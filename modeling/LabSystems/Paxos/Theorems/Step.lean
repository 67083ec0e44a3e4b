import LabSystems.Paxos.Basic

namespace Paxos

-- Goroutine `t` stands at position `pc`.
structure State.At (s : State n V) (t : Nat) (th : Thread n V) (pc : Pc n V) : Prop where
  thread : s.threads[t]? = some th
  pc     : th.pc = pc

-- What a step can do, with the guards under which it does it.
inductive Step (s : State n V) : State n V → List (Event n V) → Prop
  | start : Step s (s.spawn ⟨p, seq, v, .start⟩) [.start p seq v]
  | done {seq : Int64} : Step s (s.setPeer p ((s.peers p).done p seq.toInt)) [.done p seq.toInt]
  | min : Step s (s.forgetAt p) [.min p (s.minAt p)]
  | max : Step s s [.max p (s.peers p).max]
  | forgotten (below : seq < s.minAt p) :
    Step s (s.forgetAt p) [.min p (s.minAt p), .status p seq .forgotten none]
  | query (above : ¬seq < s.minAt p) :
    Step s ((s.forgetAt p).spawn ⟨p, seq, none, .query⟩) [.min p (s.minAt p)]
  | check (here : s.At t th .start) :
    Step s ((s.forgetAt th.peer).setThread t th
      (if th.seq < s.minAt th.peer then .finished else .propose)) [.min th.peer (s.minAt th.peer)]
  | propose (here : s.At t th .propose) (ne : pnum ≠ "") :
    Step s (s.setThread t th (.loop (.sendPrepare pnum 0 "" th.v) 0 none)) []
  | self (here : s.At t th (.loop phase th.peer none))
    (request : ∀ args, phase ≠ .sendDecide args) :
    Step s ((s.setPeer th.peer ((s.peers th.peer).handle (phase.request th.seq)).1).setThread t th
        (.loop (phase.receive ((s.peers th.peer).handle (phase.request th.seq)).2)
          (th.peer + 1) none))
      [.handle th.peer (phase.request th.seq) ((s.peers th.peer).handle (phase.request th.seq)).2]
  | skip (here : s.At t th (.loop (.sendDecide args) th.peer none)) :
    Step s (s.setThread t th (.loop (.sendDecide args) (th.peer + 1) none)) []
  | send {i : Fin n} (here : s.At t th (.loop phase i none))
    (other : i ≠ th.peer) :
    Step s ((s.setCalls <| s.calls.send (i, phase.request th.seq)).setThread t th
      (.loop phase i (some s.calls.length))) []
  | exit (here : s.At t th (.loop phase i none)) (last : n ≤ i) :
    Step s (s.setThread t th phase.exit) []
  | learn (here : s.At t th (.decide pnum value))
    (learn : (s.peers th.peer).learn th.seq pnum value = some px) :
    Step s ((s.setPeer th.peer px).setThread t th (.announce pnum value))
      [.learn th.peer th.seq pnum value]
  | crash (here : s.At t th (.decide pnum value))
    (learn : (s.peers th.peer).learn th.seq pnum value = none) : Step s (s.crash th.peer) []
  | announce (here : s.At t th (.announce pnum value)) :
    Step s (s.setThread t th (.loop (.sendDecide
      ⟨th.seq, value, pnum, th.peer, (s.peers th.peer).dones th.peer⟩) 0 none)) []
  | retry (here : s.At t th .status)
    (below : th.seq < s.minAt th.peer) :
    Step s ((s.forgetAt th.peer).setThread t th .propose)
      [.min th.peer (s.minAt th.peer), .status th.peer th.seq .forgotten none]
  | status (here : s.At t th .status)
    (above : ¬th.seq < s.minAt th.peer) :
    Step s ((s.forgetAt th.peer).setThread t th .lookup) [.min th.peer (s.minAt th.peer)]
  | lookup (here : s.At t th .lookup)
    (found : (s.peers th.peer).lookup th.seq = (fate, v)) :
    Step s (s.setThread t th (if fate = .decided then .finished else .propose))
      [.status th.peer th.seq fate v]
  | answer (here : s.At t th .query)
    (found : (s.peers th.peer).lookup th.seq = (fate, v)) :
    Step s (s.setThread t th .finished) [.status th.peer th.seq fate v]
  | deliver (pending : s.calls.pending c = some (p, req)) :
    Step s ((s.setPeer p ((s.peers p).handle req).1).setCalls
      (s.calls.answer c ((s.peers p).handle req).2)) [.handle p req ((s.peers p).handle req).2]
  | receive (here : s.At t th (.loop phase i (some c)))
    (reply : s.calls.reply c = some r) :
    Step s (s.setThread t th (.loop (phase.receive r) (i + 1) none)) []
  | fail (here : s.At t th (.loop phase i (some c))) :
    Step s (s.setThread t th (.loop (phase.receive phase.noReply) (i + 1) none)) []

namespace State

variable {n : Nat} {V : Type} {s s' : State n V} {th : Thread n V} {es : List (Event n V)}

theorem visit_step {i : Fin n} (ht : s.threads[t]? = some th) (hp : th.pc = .loop phase i none) :
    Step s (s.visit t th phase i).1 (s.visit t th phase i).2 := by
  simp only [visit]
  split
  case isFalse h => exact .send ⟨ht, hp⟩ h
  case isTrue h =>
    subst h
    split
    case h_1   => exact .skip ⟨ht, hp⟩
    case h_2 h => exact .self ⟨ht, hp⟩ h

theorem runThread_step (ht : s.threads[t]? = some th)
    (h : s.runThread t th pnum = some (s', es)) : Step s s' es := by
  simp only [runThread] at h
  split at h
  case h_1 hp =>
    cases h
    exact .check ⟨ht, hp⟩
  case h_2 hp =>
    split at h
    case isTrue => contradiction
    case isFalse hn =>
      cases h
      exact .propose ⟨ht, hp⟩ hn
  case h_3 phase i hp =>
    split at h
    case isTrue hi =>
      have hv := visit_step (i := ⟨i, hi⟩) ht hp
      rwa [Option.some.inj h] at hv
    case isFalse hi =>
      cases h
      exact .exit ⟨ht, hp⟩ <| Nat.le_of_not_lt hi
  case h_4 => contradiction
  case h_5 hp =>
    split at h
    case h_1 hl =>
      cases h
      exact .crash ⟨ht, hp⟩ hl
    case h_2 hl =>
      cases h
      exact .learn ⟨ht, hp⟩ hl
  case h_6 hp =>
    cases h
    exact .announce ⟨ht, hp⟩
  case h_7 hp =>
    split at h
    case isTrue hb =>
      cases h
      exact .retry ⟨ht, hp⟩ hb
    case isFalse hb =>
      cases h
      exact .status ⟨ht, hp⟩ hb
  case h_8 hp =>
    cases h
    exact .lookup ⟨ht, hp⟩ rfl
  case h_9 hp =>
    cases h
    exact .answer ⟨ht, hp⟩ rfl
  case h_10 => contradiction

-- A call returns with what its loop makes of the reply.
theorem returned_eq_some {reply : Phase n V → Nat → Option (Reply V)}
    (h : s.returned t reply = some (s', es)) :
    ∃ th phase i c r, s.threads[t]? = some th ∧ th.pc = .loop phase i (some c) ∧
      reply phase c = some r ∧ s' = s.setThread t th (.loop (phase.receive r) (i + 1) none) ∧
      es = [] := by
  simp only [returned] at h
  split at h
  case h_1 => contradiction
  case h_2 th ht =>
    split at h
    case isTrue => contradiction
    case isFalse =>
      split at h
      case h_1 phase i c hp =>
        have ⟨r, hr, h⟩ := Option.map_eq_some_iff.mp h
        cases h
        exact ⟨th, phase, i, c, r, ht, hp, hr, rfl, rfl⟩
      case h_2 => contradiction

theorem step_step (h : s.step a = some (s', es)) : Step s s' es := by
  cases a <;> simp only [step] at h
  case receive =>
    have ⟨_, _, _, _, _, ht, hp, hr, h₁, h₂⟩ := returned_eq_some h
    exact h₁ ▸ h₂ ▸ .receive ⟨ht, hp⟩ hr
  case fail =>
    have ⟨_, phase, _, _, r, ht, hp, hr, h₁, h₂⟩ := returned_eq_some h
    have hr : r = phase.noReply := (Option.some.inj hr).symm
    exact h₁ ▸ h₂ ▸ hr ▸ .fail ⟨ht, hp⟩
  case run =>
    split at h
    case h_1 => contradiction
    case h_2 ht =>
      split at h
      case isTrue  => contradiction
      case isFalse => exact runThread_step ht h
  case deliver =>
    split at h
    case h_1 => contradiction
    case h_2 hc =>
      split at h
      case isTrue => contradiction
      case isFalse =>
        cases h
        exact .deliver hc
  all_goals
    split at h
    case isTrue => contradiction
  case status =>
    split at h
    case isTrue hb =>
      cases h
      exact .forgotten hb
    case isFalse hb =>
      cases h
      exact .query hb
  all_goals cases h
  case start => exact .start
  case done  => exact .done
  case min   => exact .min
  case max   => exact .max

end State

theorem Step.of (t : Transition n V) : Step t.pre t.post t.events :=
  State.step_step t.valid

end Paxos
