import Mathlib.Data.List.Nodup
import LabSystems.Nsqd.Theorems.Step

namespace List

-- What comes in is what goes out and what is kept.
theorem Perm.flow {s i i' o o' k k' : List α} (h : (s ++ i).Perm (o ++ k)) (hs : (i' ++ k).Perm (o' ++ k')) :
    (s ++ (i ++ i')).Perm (o ++ o' ++ k') :=
  calc
    s ++ (i ++ i') = s ++ i ++ i'    := (append_assoc ..).symm
    _              ~ o ++ k ++ i'    := h.append_right i'
    _              = o ++ (k ++ i')  := append_assoc ..
    _              ~ o ++ (i' ++ k)  := perm_append_comm.append_left o
    _              ~ o ++ (o' ++ k') := hs.append_left o
    _              = o ++ o' ++ k'   := (append_assoc ..).symm

end List

namespace Nsqd

variable {dq : BackendQueue} {disk : Disk dq} {t t' : Topic dq} {es es' : List Event} {c : Bytes}

-- The messages whose `PUB` is answered OK.
def publications (es : List Event) : List Message :=
  es.filterMap fun
    | .published m => some m
    | _            => none

-- The messages that `messagePump` takes from the topic.
def takings (es : List Event) : List Message :=
  es.filterMap fun
    | .took m _ => some m
    | _         => none

-- The messages that it takes while it knows a given channel.
def takingsFor (c : Bytes) (es : List Event) : List Message :=
  es.filterMap fun
    | .took m cs => if c ∈ cs then some m else none
    | _          => none

def arrivals (c : Bytes) (es : List Event) : List Message :=
  es.filterMap fun
    | .enqueued c' m => if c' = c then some m else none
    | _              => none

def departures (c : Bytes) (es : List Event) : List Message :=
  es.filterMap fun
    | .consumed c' m => if c' = c then some m else none
    | _              => none

def stored (dq : BackendQueue) (q : dq.Queue) : List Message :=
  (⟨[], q⟩ : MessageQueue dq).messages

namespace Topic

-- The messages that a channel holds, which are those on its disk as long as it does not exist.
def waiting (disk : Disk dq) (t : Topic dq) (c : Bytes) : List Message :=
  match t.channelMap.get c with
  | some q => q.messages
  | none   => stored dq (disk.channel c)

-- The message that `messagePump` is about to put into a channel.
def pending (t : Topic dq) (c : Bytes) : List Message :=
  match t.pump with
  | .deliver cs m i => if c ∈ cs.drop i then [m] else []
  | _               => []

-- The next channel and the message for it, when the channel has no room in memory and the message is
-- too long for the disk.
def refusal (t : Topic dq) : Option (Bytes × Message) :=
  match t.pump with
  | .deliver cs m i =>
    match cs[i]? with
    | none   => none
    | some c =>
      match t.channelMap.get c with
      | none   => none
      | some q =>
        if memQueueSize ≤ q.memoryMsgChan.length ∧ maxMsgSize < minValidMsgLength + m.body.length then
          some (c, m)
        else
          none
  | _ => none

-- The channels that `messagePump` knows are different and exist.
structure Known (t : Topic dq) : Prop where
  nodup   : t.pump.chans.Nodup
  created : ∀ c ∈ t.pump.chans, (t.channelMap.get c).isSome

end Topic

theorem content_chanMsg {m : Message} : (Topic.chanMsg m i).content = m.content := by
  unfold Topic.chanMsg
  split <;> rfl

-- Every published message that `messagePump` has taken is in the queues of all channels it knows,
-- exactly once and with the same contents.
structure Delivered (disk : Disk dq) (es : List Event) (t : Topic dq) : Prop where
  taken    : ((stored dq disk.topic ++ publications es).map Message.content).Perm
    ((takings es ++ t.queue.messages).map Message.content)
  enqueued : ∀ c, (arrivals c es ++ t.pending c).map Message.content = (takingsFor c es).map Message.content
  queued   : ∀ c, ((stored dq (disk.channel c) ++ arrivals c es).map Message.content).Perm
    ((departures c es ++ t.waiting disk c).map Message.content)

namespace Topic.Known

theorem step (h : t.Known) (hs : Step disk t a t' es) : t'.Known := by
  have select {cs : List Bytes} (hc : cs.Perm t.chans) : cs.Nodup ∧ ∀ c ∈ cs, (t.channelMap.get c).isSome := by
    refine ⟨hc.nodup_iff.mpr t.channelMap.nodup_keys, fun c hm => ?_⟩
    have ⟨⟨c, q⟩, he, hq⟩ := List.mem_map.mp <| hc.mem_iff.mp hm
    have hg := Ordered.Map.mem_entries.mp he
    simp only at hq
    rw [← hq, hg, Option.isSome_some]
  have insert {c : Bytes} {q : Channel dq} {cs : List Bytes} (hm : ∀ c ∈ cs, (t.channelMap.get c).isSome) :
      ∀ c' ∈ cs, ((t.channelMap.insert c q).get c').isSome := by
    intro c' hc
    by_cases he : c' = c
    case pos => simp [he]
    case neg => rw [Ordered.Map.get_insert_ne he]; exact hm c' hc
  cases hs
  case refused | known       => exact h
  case published | drop      => exact ⟨h.nodup, h.created⟩
  case create | consume      => exact ⟨h.nodup, insert h.created⟩
  case start hc | update hc  => exact ⟨(select hc).left, (select hc).right⟩
  case take cs _ _ _ hp _ | finish cs _ _ hp _ | lose cs _ _ _ _ _ hp _ _ _ =>
    have hc : t.pump.chans = cs := hp ▸ rfl
    exact ⟨hc ▸ h.nodup, fun c hm => h.created c <| hc.symm ▸ hm⟩
  case enqueue cs _ _ _ _ _ hp _ _ _ =>
    have hc : t.pump.chans = cs := hp ▸ rfl
    exact ⟨hc ▸ h.nodup, insert fun c hm => h.created c <| hc.symm ▸ hm⟩

end Topic.Known

theorem known_of_run {name : Bytes} {ts : List (Transition name disk)} (r : (topic name disk).Run ts t) : t.Known :=
  r.invariant ⟨List.nodup_nil, nofun⟩ fun u h => h.step <| .of u

namespace Step

theorem taken (hs : Step disk t a t' es) : ((publications es ++ t.queue.messages).map Message.content).Perm
    ((takings es ++ t'.queue.messages).map Message.content) := by
  cases hs
  case published hp => simpa [publications, takings] using (MessageQueue.put_messages hp).symm
  case drop hr      => simpa [publications, takings] using (MessageQueue.receive_messages hr).map _
  case take hr      => simpa [publications, takings] using (MessageQueue.receive_messages hr).map _
  case consume r _ _ _ => cases r <;> exact .refl _
  all_goals exact .refl _

theorem queued (hs : Step disk t a t' es) (c : Bytes) :
    ((arrivals c es ++ t.waiting disk c).map Message.content).Perm
      ((departures c es ++ t'.waiting disk c).map Message.content) := by
  cases hs
  case create c' hg =>
    by_cases hc : c = c'
    case neg => simp [arrivals, departures, Topic.waiting, Ordered.Map.get_insert_ne hc]
    case pos =>
      subst hc
      simp [arrivals, departures, Topic.waiting, hg, stored]
  case enqueue c' _ _ _ _ hg hq =>
    by_cases hc : c = c'
    case neg => simp [arrivals, departures, Topic.waiting, Ordered.Map.get_insert_ne hc, Ne.symm hc]
    case pos =>
      subst hc
      simpa [arrivals, departures, Topic.waiting, hg] using (MessageQueue.put_messages hq).symm
  case consume c' _ _ r _ hg hr =>
    by_cases hc : c = c'
    case neg => cases r <;> simp [arrivals, departures, Topic.waiting, Ordered.Map.get_insert_ne hc, Ne.symm hc]
    case pos =>
      subst hc
      have hr := (MessageQueue.receive_messages hr).map Message.content
      cases r <;> simpa [arrivals, departures, Topic.waiting, hg] using hr
  all_goals exact .refl _

end Step

namespace Topic

theorem drop_of_getElem? {cs : List Bytes} {i : Nat} (h : cs[i]? = some c) : cs.drop i = c :: cs.drop (i + 1) := by
  have ⟨hi, hc⟩ := List.getElem?_eq_some_iff.mp h
  rw [List.drop_eq_getElem_cons hi, hc]

theorem pending_deliver {cs : List Bytes} {m : Message} {i : Nat} (hp : t.pump = .deliver cs m i) :
    t.pending c = if c ∈ cs.drop i then [m] else [] := by
  simp only [pending, hp]

theorem refusal_eq_some {m : Message} : t.refusal = some (c, m) ↔
    ∃ cs i q, t.pump = .deliver cs m i ∧ cs[i]? = some c ∧ t.channelMap.get c = some q ∧
      memQueueSize ≤ q.memoryMsgChan.length ∧ maxMsgSize < minValidMsgLength + m.body.length := by
  constructor
  case mp =>
    intro h
    unfold refusal at h
    split at h <;> try contradiction
    case h_1 cs m' i hp =>
      cases hc : cs[i]? <;> simp only [hc] at h
      case none    => cases h
      case some c' =>
        cases hg : t.channelMap.get c' <;> simp only [hg] at h
        case none   => cases h
        case some q =>
          split at h <;> cases h
          case isTrue hf => exact ⟨cs, i, q, hp, hc, hg, hf⟩
  case mpr =>
    intro ⟨cs, i, q, hp, hc, hg, hf⟩
    simp only [refusal, hp, hc, hg, if_pos hf]

theorem put_error_iff {q : Channel dq} {m : Message} : (∃ e, q.put (chanMsg m i) = .error e) ↔
    memQueueSize ≤ q.memoryMsgChan.length ∧ maxMsgSize < minValidMsgLength + m.body.length := by
  have hb : (chanMsg m i).body = m.body := by
    unfold chanMsg
    split <;> rfl
  rw [MessageQueue.put_error_iff, hb]

-- The channel that gets the message is not among those that are still to get it.
theorem Known.not_mem_drop {cs : List Bytes} {m : Message} {i : Nat} (h : t.Known) (hp : t.pump = .deliver cs m i)
    (hc : cs[i]? = some c) : c ∉ cs.drop (i + 1) := by
  have hn : t.pump.chans = cs := hp ▸ rfl
  have hn : (cs.drop i).Nodup := (hn ▸ h.nodup).sublist <| List.drop_sublist ..
  rw [drop_of_getElem? hc] at hn
  exact (List.nodup_cons.mp hn).left

end Topic

namespace Step

-- A message that the next channel refuses is lost.
theorem of_refuses {m : Message} (ht : t.Known) (hs : Step disk t .deliver t' es) (hr : t.refusal = some (c, m)) :
    arrivals c es = [] ∧ takingsFor c es = [] ∧ t.pending c = [m] ∧ t'.pending c = [] := by
  have ⟨cs, i, q, hp, hc, hg, hf⟩ := Topic.refusal_eq_some.mp hr
  cases hs
  case finish hp' hc' =>
    cases hp.symm.trans hp'
    cases hc.symm.trans hc'
  case enqueue hp' hc' hg' hq =>
    cases hp.symm.trans hp'
    cases hc.symm.trans hc'
    cases hg.symm.trans hg'
    have ⟨e, he⟩ := Topic.put_error_iff (i := i).mpr hf
    cases he.symm.trans hq
  case lose hp' hc' hg' hq =>
    cases hp.symm.trans hp'
    refine ⟨rfl, rfl, ?_, ?_⟩
    · simp [Topic.pending_deliver hp, Topic.drop_of_getElem? hc]
    · exact Topic.pending_deliver rfl |>.trans <| if_neg <| ht.not_mem_drop hp hc

-- Otherwise, what is pending is put into the channel or stays pending.
theorem of_not_refuses (ht : t.Known) (hs : Step disk t a t' es) (hr : a = .deliver → ∀ m, t.refusal ≠ some (c, m)) :
    (t.pending c ++ takingsFor c es).map Message.content = (arrivals c es ++ t'.pending c).map Message.content := by
  cases hs
  case start hp _ | update hp _ => simp [arrivals, takingsFor, Topic.pending, hp]
  case take cs m _ _ hp _ =>
    by_cases hc : c ∈ cs
    case pos => simp [arrivals, takingsFor, Topic.pending, hp, hc]
    case neg => simp [arrivals, takingsFor, Topic.pending, hp, hc]
  case finish cs _ _ hp hc =>
    have hd := List.drop_eq_nil_of_le <| List.getElem?_eq_none_iff.mp hc
    simp [arrivals, takingsFor, Topic.pending, hp, hd]
  case enqueue c' _ _ hp hc hg hq =>
    by_cases he : c = c'
    case neg => simp [arrivals, takingsFor, Topic.pending, hp, Topic.drop_of_getElem? hc, he, Ne.symm he]
    case pos =>
      subst he
      have hn := ht.not_mem_drop hp hc
      simp [arrivals, takingsFor, Topic.pending, hp, Topic.drop_of_getElem? hc, hn, content_chanMsg]
  case lose c' _ _ hp hc hg hq =>
    by_cases he : c = c'
    case neg => simp [arrivals, takingsFor, Topic.pending, hp, Topic.drop_of_getElem? hc, he]
    case pos =>
      subst he
      have hf := Topic.put_error_iff.mp ⟨_, hq⟩
      exact absurd (Topic.refusal_eq_some.mpr ⟨_, _, _, hp, hc, hg, hf⟩) <| hr rfl _
  case consume r _ _ _ => cases r <;> simp [arrivals, takingsFor, Topic.pending]
  all_goals simp [arrivals, takingsFor, Topic.pending]

end Step

section Runs

variable {name : Bytes} {ts : List (Transition name disk)}

theorem publications_append : publications (es ++ es') = publications es ++ publications es' :=
  List.filterMap_append

theorem takings_append : takings (es ++ es') = takings es ++ takings es' :=
  List.filterMap_append

theorem takingsFor_append : takingsFor c (es ++ es') = takingsFor c es ++ takingsFor c es' :=
  List.filterMap_append

theorem arrivals_append : arrivals c (es ++ es') = arrivals c es ++ arrivals c es' :=
  List.filterMap_append

theorem departures_append : departures c (es ++ es') = departures c es ++ departures c es' :=
  List.filterMap_append

theorem taken_of_run (r : (topic name disk).Run ts t) :
    ((stored dq disk.topic ++ publications (Machine.events ts)).map Message.content).Perm
      ((takings (Machine.events ts) ++ t.queue.messages).map Message.content) := by
  induction r
  case nil => simp [publications, takings, stored, topic, Topic.newTopic]
  case snoc u _ hi =>
    have hs := (Step.of u).taken
    simp only [Machine.events_append, Machine.events_singleton, publications_append, takings_append,
      List.map_append] at hi hs ⊢
    exact hi.flow hs

theorem queued_of_run (r : (topic name disk).Run ts t) (c : Bytes) :
    ((stored dq (disk.channel c) ++ arrivals c (Machine.events ts)).map Message.content).Perm
      ((departures c (Machine.events ts) ++ t.waiting disk c).map Message.content) := by
  induction r
  case nil => simp [arrivals, departures, Topic.waiting, topic, Topic.newTopic]
  case snoc u _ hi =>
    have hs := (Step.of u).queued c
    simp only [Machine.events_append, Machine.events_singleton, arrivals_append, departures_append,
      List.map_append] at hi hs ⊢
    exact hi.flow hs

-- How many messages a channel has refused is how many it has got too few.
theorem refused_of_run (r : (topic name disk).Run ts t) (c : Bytes) :
    ∃ n, (takingsFor c (Machine.events ts)).length = (arrivals c (Machine.events ts) ++ t.pending c).length + n ∧
      (n = 0 ↔ ∀ u ∈ ts, u.act = .deliver → ∀ m, u.pre.refusal ≠ some (c, m)) ∧
      (n = 0 → (arrivals c (Machine.events ts) ++ t.pending c).map Message.content =
        (takingsFor c (Machine.events ts)).map Message.content) := by
  induction r
  case nil => exact ⟨0, rfl, by simp, fun _ => rfl⟩
  case snoc ts u r hi =>
    have ⟨n, hl, hn, he⟩ := hi
    have ht := known_of_run r
    simp only [Machine.events_append, Machine.events_singleton, takingsFor_append, arrivals_append, List.length_append,
      List.map_append, List.forall_mem_append, List.forall_mem_singleton] at hl he ⊢
    by_cases hr : u.act = .deliver → ∀ m, u.pre.refusal ≠ some (c, m)
    case pos =>
      have hs := (Step.of u).of_not_refuses ht hr
      have hsl := congrArg List.length hs
      simp only [List.length_map, List.length_append, List.map_append] at hs hsl
      refine ⟨n, by omega, by rw [hn]; exact ⟨fun h => ⟨h, hr⟩, And.left⟩, fun hz => ?_⟩
      rw [List.append_assoc, ← hs, ← List.append_assoc, he hz]
    case neg =>
      have ⟨ha, m, hm⟩ : u.act = .deliver ∧ ∃ m, u.pre.refusal = some (c, m) := by
        simpa only [not_forall, not_not, exists_prop] using hr
      have ⟨ha, ht, hp, hp'⟩ := (ha ▸ Step.of u).of_refuses ht hm
      simp only [ha, ht, hp, hp', List.length_nil, List.length_singleton] at hl ⊢
      exact ⟨n + 1, by omega, ⟨nofun, fun h => absurd h.right hr⟩, nofun⟩

-- The messages reach the channels exactly if `messagePump` never puts a message that is too long
-- for the disk into a channel whose memory is full.
theorem delivered_iff (r : (topic name disk).Run ts t) : Delivered disk (Machine.events ts) t ↔
    ∀ u ∈ ts, u.act = .deliver → u.pre.refusal = none := by
  constructor
  case mp =>
    intro h u hu ha
    refine Option.eq_none_iff_forall_ne_some.mpr fun (c, m) => ?_
    have ⟨n, hl, hn, _⟩ := refused_of_run r c
    have he := congrArg List.length (h.enqueued c)
    simp only [List.length_map] at he
    exact hn.mp (by omega) u hu ha m
  case mpr =>
    intro h
    refine ⟨taken_of_run r, fun c => ?_, queued_of_run r⟩
    have ⟨n, _, hn, he⟩ := refused_of_run r c
    refine he <| hn.mpr fun u hu ha m => ?_
    rw [h u hu ha]
    nofun

end Runs

def emptyDisk : Disk (.list minValidMsgLength maxMsgSize) :=
  ⟨[], fun _ => []⟩

def zeroID : MessageID :=
  ⟨List.replicate 16 0, rfl⟩

-- The topic `t` with the channels `c` and `d`.
theorem delivered_twoChannels :
    let r := (topic [116] emptyDisk).trace (.newTopic [116] emptyDisk)
      [.start [], .getChannel [99], .getChannel [100], .update [[100], [99]],
       .pub [[80, 85, 66], [116]] [0, 0, 0, 2, 7, 8] zeroID 5, .take .memory, .deliver, .deliver, .deliver]
    (arrivals [99] <| Machine.events r.1).length = 1 ∧ (arrivals [100] <| Machine.events r.1).length = 1 ∧
    Delivered emptyDisk (Machine.events r.1) r.2 := by
  intro r
  have hr : (topic [116] emptyDisk).Run r.1 r.2 := (topic [116] emptyDisk).path_trace ..
  exact ⟨by decide +kernel, by decide +kernel, (delivered_iff hr).mpr <| by decide +kernel⟩

-- A hundred messages fill the memory of the channel `c`, which then refuses one with 999 bytes.
theorem not_delivered :
    let publish := [.pub [[80, 85, 66], [116]] [0, 0, 0, 1, 0] zeroID 0, .take .memory, .deliver, .deliver]
    let r := (topic [116] emptyDisk).trace (.newTopic [116] emptyDisk) <|
      [.start [], .getChannel [99], .update [[99]]] ++ (List.replicate 100 publish).flatten ++
      [.pub [[80, 85, 66], [116]] ([0, 0, 3, 231] ++ List.replicate 999 0) zeroID 0, .take .memory, .deliver, .deliver]
    (topic [116] emptyDisk).Run r.1 r.2 ∧ ¬Delivered emptyDisk (Machine.events r.1) r.2 := by
  intro _ r
  refine ⟨(topic [116] emptyDisk).path_trace .., fun h => ?_⟩
  have hl := congrArg List.length (h.enqueued [99])
  simp only [List.length_map, List.length_append] at hl
  have hp : (r.2.pending [99]).length = 0 := by decide +kernel
  have ha : (arrivals [99] <| Machine.events r.1).length = 100 := by decide +kernel
  have ht : (takingsFor [99] <| Machine.events r.1).length = 101 := by decide +kernel
  omega

end Nsqd
