import LabSystems.Paxos.Theorems.Step

namespace Paxos

-- An invariant that speaks about each peer, each goroutine and each call on its own.
structure State.All (P : Fin n → Peer n V → Prop) (T : Nat → Thread n V → Prop)
    (C : Nat → Call (Fin n × Request n V) (Reply V) → Prop) (s : State n V) : Prop where
  peer   : ∀ p, P p (s.peers p)
  thread : ∀ t th, s.threads[t]? = some th → T t th
  call   : ∀ c call, s.calls[c]? = some call → C c call

namespace State.All

variable {n : Nat} {V : Type} {s : State n V} {P P' : Fin n → Peer n V → Prop}
  {T T' : Nat → Thread n V → Prop} {C C' : Nat → Call (Fin n × Request n V) (Reply V) → Prop}
  {p : Fin n} {px : Peer n V} {t : Nat} {th : Thread n V} {c : Nat}

theorem init (hp : ∀ p, P p .make) : (State.init : State n V).All P T C where
  peer       := hp
  thread _ _ := by simp [State.init]
  call _ _   := by simp [State.init]

theorem mono (h : s.All P T C) (hp : ∀ p, P p (s.peers p) → P' p (s.peers p))
    (ht : ∀ t th, s.threads[t]? = some th → T t th → T' t th)
    (hc : ∀ c call, s.calls[c]? = some call → C c call → C' c call) : s.All P' T' C' where
  peer p          := hp p <| h.peer p
  thread t th hm  := ht t th hm <| h.thread t th hm
  call c call hm  := hc c call hm <| h.call c call hm

theorem setPeer (h : s.All P T C) (hp : P p px) : (s.setPeer p px).All P T C :=
  { h with
    peer := fun i => by
      by_cases he : i = p
      case pos => simpa [State.setPeer, he] using hp
      case neg => simpa [State.setPeer, he] using h.peer i
  }

theorem spawn (h : s.All P T C) (ht : T s.threads.length th) : (s.spawn th).All P T C :=
  { h with thread := List.forall_concat h.thread ht }

theorem setThread (h : s.All P T C) (ht : T t { th with pc := pc }) :
    (s.setThread t th pc).All P T C :=
  { h with thread := List.forall_set (fun i a _ => h.thread i a) ht }

theorem send (h : s.All P T C) (hc : C s.calls.length ⟨r, none⟩) :
    (s.setCalls <| s.calls.send r).All P T C :=
  { h with call := Calls.forall_send h.call hc }

theorem answer (h : s.All P T C) (hr : s.calls.pending c = some r) (hc : C c ⟨r, some rep⟩) :
    (s.setCalls <| s.calls.answer c rep).All P T C :=
  { h with
    call := Calls.forall_answer h.call fun r' old ho => by
      cases ho.symm.trans <| Calls.pending_eq_some.mp hr
      exact hc
  }

theorem crash (h : s.All P T C) : (s.crash p).All P T C :=
  ⟨h.peer, h.thread, h.call⟩

end State.All

end Paxos
