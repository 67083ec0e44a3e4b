import LabSystems.Nsqd.Topic

namespace Nsqd

variable {dq : BackendQueue} {disk : Disk dq} {t t' : Topic dq} {es : List Event}

def Pump.chans : Pump → List Bytes
  | starting      => []
  | select cs     => cs
  | deliver cs .. => cs

-- What a step can do, with the guards under which it does it.
inductive Step (disk : Disk dq) (t : Topic dq) : Action → Topic dq → List Event → Prop
  | refused :
    Step disk t (.pub params input uid now) t [.refused e]
  | published (put : t.queue.put m = .ok q) :
    Step disk t (.pub params input uid now) { t with queue := q } [.published m]
  | known :
    Step disk t (.getChannel c) t []
  | create (get : t.channelMap.get c = none) :
    Step disk t (.getChannel c)
      { t with channelMap := t.channelMap.insert c ⟨[], disk.channel c⟩, creating := t.creating + 1 } []
  | start (pump : t.pump = .starting) (chans : cs.Perm t.chans) :
    Step disk t (.start cs) { t with pump := .select cs } []
  | update (pump : t.pump = .select old) (chans : cs.Perm t.chans) :
    Step disk t (.update cs) { t with pump := .select cs, creating := t.creating - 1 } []
  | drop (receive : t.queue.receive src = some (none, q)) :
    Step disk t (.take src) { t with queue := q } []
  | take (pump : t.pump = .select cs) (receive : t.queue.receive src = some (some m, q)) :
    Step disk t (.take src) { t with queue := q, pump := .deliver cs m 0 } [.took m cs]
  | finish (pump : t.pump = .deliver cs m i) (chan : cs[i]? = none) :
    Step disk t .deliver { t with pump := .select cs } []
  | enqueue (pump : t.pump = .deliver cs m i) (chan : cs[i]? = some c) (get : t.channelMap.get c = some q)
    (put : q.put (Topic.chanMsg m i) = .ok q') :
    Step disk t .deliver { t with channelMap := t.channelMap.insert c q', pump := .deliver cs m (i + 1) }
      [.enqueued c <| Topic.chanMsg m i]
  | lose (pump : t.pump = .deliver cs m i) (chan : cs[i]? = some c) (get : t.channelMap.get c = some q)
    (put : q.put (Topic.chanMsg m i) = .error e) :
    Step disk t .deliver { t with pump := .deliver cs m (i + 1) } []
  | consume (get : t.channelMap.get c = some q) (receive : q.receive src = some (r, q')) :
    Step disk t (.consume c src) { t with channelMap := t.channelMap.insert c q' } (r.toList.map (.consumed c))

namespace Topic

theorem putMessage_ok (h : t.putMessage m = .ok t') : ∃ q, t.queue.put m = .ok q ∧ t' = { t with queue := q } := by
  unfold putMessage at h
  split at h <;> cases h
  case h_1 q hq => exact ⟨q, hq, rfl⟩

theorem pub_step (h : t.pub params input uid now = some (t', es)) : Step disk t (.pub params input uid now) t' es := by
  unfold pub at h
  split at h
  case h_1 =>
    cases h
    exact .refused
  case h_2 =>
    split at h
    case isTrue =>
      simp only at h
      split at h <;> cases h
      case h_1 hp =>
        have ⟨q, hq, ht⟩ := putMessage_ok hp
        exact ht ▸ .published hq
      case h_2 => exact .refused
    case isFalse => cases h

theorem deliver_step (h : t.deliver = some (t', es)) : Step disk t .deliver t' es := by
  unfold deliver at h
  split at h
  case h_1 cs m i hp =>
    cases hc : cs[i]? <;> simp only [hc] at h
    case none =>
      cases h
      exact .finish hp hc
    case some c =>
      cases hg : t.channelMap.get c <;> simp only [hg] at h
      case none   => cases h
      case some q =>
        cases hq : q.put (chanMsg m i) <;> simp only [hq] at h <;> cases h
        case error => exact .lose hp hc hg hq
        case ok    => exact .enqueue hp hc hg hq
  case h_2 => cases h

theorem step_step (h : t.step disk a = some (t', es)) : Step disk t a t' es := by
  cases a <;> simp only [step] at h
  case pub     => exact pub_step h
  case deliver => exact deliver_step h
  case getChannel c =>
    cases hg : t.channelMap.get c <;> simp only [getChannel, hg] at h <;> cases h
    case none => exact .create hg
    case some => exact .known
  case start =>
    split at h <;> cases h
    case isTrue hs => exact .start hs.left hs.right
  case update =>
    split at h
    case h_1 hp =>
      split at h <;> cases h
      case isTrue hs => exact .update hp hs.right
    case h_2 => cases h
  case take src =>
    split at h
    case h_1 hp =>
      cases hr : t.queue.receive src <;> simp only [hr] at h
      case none => cases h
      case some r =>
        have ⟨m, q⟩ := r
        cases m <;> cases h
        case none => exact .drop hr
        case some => exact .take hp hr
    case h_2 => cases h
  case consume c src =>
    cases hg : t.channelMap.get c <;> simp only [hg] at h
    case none => cases h
    case some q =>
      cases hr : q.receive src <;> simp only [hr] at h <;> cases h
      case some => exact .consume hg hr

end Topic

theorem Step.of {name : Bytes} (u : Transition name disk) : Step disk u.pre u.act u.post u.events :=
  Topic.step_step u.valid

end Nsqd
