import LabSystems.PBService.Basic

namespace PBService

open ViewService (View PingArgs ViewServer)

-- A call returns by the action `receive` with its reply or by the action `fail` without.
inductive State.Outcome (s : State) (c : Nat) (receive fail : Action) : Action → Option Reply → Prop
  | received (reply : s.calls.reply c = some (some r)) : Outcome s c receive fail receive (some r)
  | failed : Outcome s c receive fail fail none

-- What a step can do, with the guards under which it does it.
inductive Step (s : State) : Action → State → List Event → Prop
  | vsTick : Step s .vsTick { s with vs := s.vs.tick } []
  | start (named : p ≠ "") (down : s.servers p = none) :
    Step s (.startServer p) (s.setServer p (some ⟨.startServer p, .free⟩)) [.start p]
  | crash (up : s.servers p = some sv) : Step s (.crash p) (s.setServer p none) []
  | tick (idle : s.servers p = some ⟨pb, .free⟩) :
    Step s (.tick p) ((s.setServer p (some ⟨pb, .ping s.calls.length⟩)).send (.ping pb.pingArgs))
      [.ping p pb.view.viewnum]
  | makeClerk :
    Step s (.makeClerk name rand)
      { s with clerks := s.clerks ++ [⟨name, toString rand, ⟨0, "", ""⟩⟩] } []
  | get (clerk : s.clerks[i]? = some ck) : Step s (.get i key) (s.beginOp i ck (.get ⟨key⟩)) []
  | putAppend (clerk : s.clerks[i]? = some ck) :
    Step s (.putAppend i key value op rand)
      (s.beginOp i ck (.putAppend ⟨key, value, op, toString rand, ck.me⟩))
      [.begin ⟨key, value, op, toString rand, ck.me⟩]
  | handlePing (pending : s.calls.pending c = some (.ping args)) :
    Step s (.handle c)
      ({ s with vs := (s.vs.ping args).1 }.answer c (some (.ping (s.vs.ping args).2.view))) []
  | handleGet (pending : s.calls.pending c = some (.get p args))
    (idle : s.servers p = some ⟨pb, .free⟩) :
    Step s (.handle c) (s.answer c (some (.get (pb.get args))))
      [.get c p pb.view args (pb.get args)]
  | refuse (pending : s.calls.pending c = some (.putAppend p args))
    (idle : s.servers p = some ⟨pb, .free⟩) (refuse : pb.refuse args = some reply) :
    Step s (.handle c) (s.answer c (some (.putAppend reply)))
      [.putAppend c p pb.view args reply]
  | execute (pending : s.calls.pending c = some (.putAppend p args))
    (idle : s.servers p = some ⟨pb, .free⟩) (accept : pb.refuse args = none)
    (alone : ¬pb.HasBackup) :
    Step s (.handle c)
      ((s.setServer p (some ⟨(pb.execute args).1, .free⟩)).answer c
        (some (.putAppend (pb.execute args).2)))
      [.execute p pb.view args, .putAppend c p pb.view args (pb.execute args).2]
  | replicate (pending : s.calls.pending c = some (.putAppend p args))
    (idle : s.servers p = some ⟨pb, .free⟩) (accept : pb.refuse args = none)
    (backup : pb.HasBackup) :
    Step s (.handle c)
      ((s.answer c none).forward p (pb.execute args).1 (.putAppend · c args (pb.execute args).2))
      [.execute p pb.view args, .forward s.calls.length p]
  | merge (pending : s.calls.pending c = some (.forward p args))
    (idle : s.servers p = some ⟨pb, .free⟩) :
    Step s (.handle c)
      ((s.setServer p (some ⟨pb.processForward args, .free⟩)).answer c (some .forward))
      [.merge c p args]
  | view (up : s.servers p = some ⟨pb, .ping c⟩)
    (outcome : s.Outcome c (.receive p) (.fail p) a result)
    (keep : ¬pb.NeedForward (Reply.view ⟨0, "", ""⟩ result)) :
    Step s a
      (s.setServer p (some ⟨{ pb with view := Reply.view ⟨0, "", ""⟩ result }, .free⟩))
      [.view p (Reply.view ⟨0, "", ""⟩ result)]
  | viewForward (up : s.servers p = some ⟨pb, .ping c⟩)
    (outcome : s.Outcome c (.receive p) (.fail p) a result)
    (need : pb.NeedForward (Reply.view ⟨0, "", ""⟩ result)) :
    Step s a (s.forward p { pb with view := Reply.view ⟨0, "", ""⟩ result } .tick)
      [.view p (Reply.view ⟨0, "", ""⟩ result), .forward s.calls.length p]
  | forwarded (up : s.servers p = some ⟨pb, .tick c⟩)
    (outcome : s.Outcome c (.receive p) (.fail p) a result) :
    Step s a (s.setServer p (some ⟨pb, .free⟩)) []
  | replicated (up : s.servers p = some ⟨pb, .putAppend c client args reply⟩)
    (outcome : s.Outcome c (.receive p) (.fail p) a result) :
    Step s a ((s.setServer p (some ⟨pb, .free⟩)).answer client (some (.putAppend reply)))
      [.putAppend client p pb.view args reply]
  | updateView (thread : s.threads[t]? = some th) (clerk : s.clerks[th.clerk]? = some ck)
    (wait : th.wait = .updateView c)
    (outcome : s.Outcome c (.clerkReceive t) (.clerkFail t) a result) :
    Step s a
      ((s.setView th.clerk (Reply.view ck.view result)).setThread t th (.server s.calls.length)
        |>.send (th.op.request (Reply.view ck.view result).primary)) []
  | gotten (thread : s.threads[t]? = some th) (wait : th.wait = .server c)
    (op : th.op = .get args) (reply : s.calls.reply c = some (some (.get r))) :
    Step s (.clerkReceive t) (s.setThread t th .returned) [.gotten c args r.value]
  | done (thread : s.threads[t]? = some th) (wait : th.wait = .server c)
    (op : th.op = .putAppend args) (reply : s.calls.reply c = some (some (.putAppend r))) :
    Step s (.clerkReceive t) (s.setThread t th .returned) [.done c args]
  | retry (thread : s.threads[t]? = some th) (clerk : s.clerks[th.clerk]? = some ck)
    (wait : th.wait = .server c)
    (outcome : s.Outcome c (.clerkReceive t) (.clerkFail t) a result)
    (get : ∀ args r, th.op = .get args → result ≠ some (.get r))
    (putAppend : ∀ args r, th.op = .putAppend args → result ≠ some (.putAppend r)) :
    Step s a
      (s.setThread t th (.updateView s.calls.length) |>.send (.ping ⟨ck.name, ck.view.viewnum⟩)) []

namespace State

variable {s s' : State} {es : List Event}

theorem idle_eq_some {pb : PBServer} : s.idle p = some pb ↔ s.servers p = some ⟨pb, .free⟩ := by
  unfold idle
  split
  case h_1 h => simp [h]
  case h_2 h =>
    simp only [reduceCtorEq, false_iff]
    exact h pb

theorem putAppend_step {pb : PBServer} (hc : s.calls.pending c = some (.putAppend p args))
    (hi : s.servers p = some ⟨pb, .free⟩) :
    Step s (.handle c) (s.putAppend c p pb args).1 (s.putAppend c p pb args).2 := by
  simp only [putAppend]
  split
  case h_1 hr => exact .refuse hc hi hr
  case h_2 hr =>
    split
    case isTrue hb  => exact .replicate hc hi hr hb
    case isFalse hb => exact .execute hc hi hr hb

theorem handle_step (h : s.handle c = some (s', es)) : Step s (.handle c) s' es := by
  simp only [handle] at h
  split at h
  case h_1 => contradiction
  case h_2 hc =>
    cases h
    exact .handlePing hc
  case h_3 hc =>
    have ⟨pb, hi, h⟩ := Option.map_eq_some_iff.mp h
    cases h
    exact .handleGet hc <| idle_eq_some.mp hi
  case h_4 hc =>
    have ⟨pb, hi, h⟩ := Option.map_eq_some_iff.mp h
    have hs := putAppend_step hc <| idle_eq_some.mp hi
    rwa [h] at hs
  case h_5 hc =>
    have ⟨pb, hi, h⟩ := Option.map_eq_some_iff.mp h
    cases h
    exact .merge hc <| idle_eq_some.mp hi

theorem resume_step {sv : Server} (hs : s.servers p = some sv) (hc : sv.lock.call = some c)
    (ho : s.Outcome c (.receive p) (.fail p) a result) (h : s.resume p sv result = some (s', es)) :
    Step s a s' es := by
  have ⟨pb, lock⟩ := sv
  cases lock <;> simp only [resume, Lock.call, Option.some.injEq, reduceCtorEq] at h hc
  all_goals subst hc
  case ping =>
    simp only [changeView] at h
    split at h <;> cases h
    case isTrue hn  => exact .viewForward hs ho hn
    case isFalse hn => exact .view hs ho hn
  case tick =>
    cases h
    exact .forwarded hs ho
  case putAppend =>
    cases h
    exact .replicated hs ho

theorem clerkResume_step {th : Thread} {ck : Clerk} (ht : s.threads[t]? = some th)
    (hk : s.clerks[th.clerk]? = some ck) (hc : th.wait.call = some c)
    (ho : s.Outcome c (.clerkReceive t) (.clerkFail t) a result)
    (h : s.clerkResume t th ck result = some (s', es)) : Step s a s' es := by
  simp only [clerkResume] at h
  split at h
  case h_1 hw =>
    cases h
    cases (hw ▸ hc : some _ = some _)
    exact .updateView ht hk hw ho
  case h_3 => contradiction
  case h_2 hw =>
    cases (hw ▸ hc : some _ = some _)
    split at h <;> cases h
    case h_1 hop =>
      cases ho
      exact .gotten ht hw hop ‹_›
    case h_2 hop =>
      cases ho
      exact .done ht hw hop ‹_›
    case h_3 hg hp => exact .retry ht hk hw ho hg hp

theorem step_step (h : s.step a = some (s', es)) : Step s a s' es := by
  cases a <;> simp only [step] at h
  case vsTick =>
    cases h
    exact .vsTick
  case makeClerk =>
    cases h
    exact .makeClerk
  case handle => exact handle_step h
  case startServer =>
    split at h
    case isTrue => contradiction
    case isFalse hn =>
      cases h
      have ⟨hn, hd⟩ := not_or.mp hn
      exact .start hn <| by simpa using hd
  case crash =>
    have ⟨_, hs, h⟩ := Option.map_eq_some_iff.mp h
    cases h
    exact .crash hs
  case tick =>
    have ⟨_, hi, h⟩ := Option.map_eq_some_iff.mp h
    cases h
    exact .tick <| idle_eq_some.mp hi
  case get =>
    have ⟨_, hk, h⟩ := Option.map_eq_some_iff.mp h
    cases h
    exact .get hk
  case putAppend =>
    have ⟨_, hk, h⟩ := Option.map_eq_some_iff.mp h
    cases h
    exact .putAppend hk
  case receive =>
    have ⟨sv, hs, h⟩ := Option.bind_eq_some_iff.mp h
    have ⟨c, hc, h⟩ := Option.bind_eq_some_iff.mp h
    have ⟨r, hr, h⟩ := Option.bind_eq_some_iff.mp h
    exact resume_step hs hc (.received <| Option.join_eq_some_iff.mp hr) h
  case fail =>
    have ⟨sv, hs, h⟩ := Option.bind_eq_some_iff.mp h
    have ⟨c, hc, h⟩ := Option.bind_eq_some_iff.mp h
    exact resume_step hs hc .failed h
  case clerkReceive =>
    have ⟨th, ht, h⟩ := Option.bind_eq_some_iff.mp h
    have ⟨ck, hk, h⟩ := Option.bind_eq_some_iff.mp h
    have ⟨c, hc, h⟩ := Option.bind_eq_some_iff.mp h
    have ⟨r, hr, h⟩ := Option.bind_eq_some_iff.mp h
    exact clerkResume_step ht hk hc (.received <| Option.join_eq_some_iff.mp hr) h
  case clerkFail =>
    have ⟨th, ht, h⟩ := Option.bind_eq_some_iff.mp h
    have ⟨ck, hk, h⟩ := Option.bind_eq_some_iff.mp h
    have ⟨c, hc, h⟩ := Option.bind_eq_some_iff.mp h
    exact clerkResume_step ht hk hc .failed h

end State

theorem Step.of (t : Transition) : Step t.pre t.act t.post t.events :=
  State.step_step t.valid

theorem Step.of_get {s : State} {reply : GetReply} (h : Step s a s' es) (he : .get c p v args reply ∈ es) :
    ∃ pb, s.servers p = some ⟨pb, .free⟩ ∧ pb.view = v ∧ pb.get args = reply := by
  cases h <;> simp at he
  case handleGet hi =>
    obtain ⟨rfl, rfl, rfl, rfl, rfl⟩ := he
    exact ⟨_, hi, rfl, rfl⟩

theorem Step.of_execute {s : State} (h : Step s a s' es) (he : .execute p v args ∈ es) :
    ∃ c pb, s.calls.pending c = some (.putAppend p args) ∧ s.servers p = some ⟨pb, .free⟩ ∧
      pb.refuse args = none ∧ pb.view = v := by
  cases h <;> simp at he
  case execute hc hi ha _ | replicate hc hi ha _ =>
    have ⟨hp, hv, hargs⟩ := he
    subst hp hv hargs
    exact ⟨_, _, hc, hi, ha, rfl⟩

theorem Step.of_merge {s : State} (h : Step s a s' es) (he : .merge c p args ∈ es) :
    ∃ pb, s.calls.pending c = some (.forward p args) ∧ s.servers p = some ⟨pb, .free⟩ ∧
      s'.servers p = some ⟨pb.processForward args, .free⟩ := by
  cases h <;> simp at he
  case merge hc hi =>
    have ⟨hc', hp, ha⟩ := he
    subst hc' hp ha
    exact ⟨_, hc, hi, Function.update_self ..⟩

end PBService
