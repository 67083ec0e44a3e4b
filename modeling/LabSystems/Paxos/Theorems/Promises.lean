import LabSystems.Paxos.Theorems.Forgotten

namespace Paxos

variable {n : Nat} {V : Type} {s s' : State n V} {es : List (Event n V)} {p : Fin n} {seq : Int}
  {px px' : Peer n V} {inst inst' : Instance V} {ts : List (Transition n V)} {t : Transition n V}

-- What a handler or `sendDecide` does to an instance that exists, where a decision comes with its number.
inductive Instance.Change (inst : Instance V) : Option String → Instance V → Prop
  | promise (lt : inst.nP < pnum) : Change inst none { inst with nP := pnum }
  | vote (le : inst.nP ≤ pnum) : Change inst none { inst with nA := pnum, nP := pnum, vA := v }
  | reject : Change inst none inst
  | decide : Change inst (some pnum) ⟨.decided, pnum, pnum, v⟩

namespace Event

-- `Prepare`, `Accept`, `Decide` or `sendDecide` works on instance `seq` of peer `p`.
def Visits (p : Fin n) (seq : Int) : Event n V → Prop
  | handle q req _ => q = p ∧ req.seq = seq
  | learn q k _ _  => q = p ∧ k = seq
  | _              => False

-- The number that `Decide` or `sendDecide` writes.
def decision : Event n V → Option String
  | handle _ (.decide args) _ => args.pNum
  | learn _ _ pnum _          => pnum
  | _                         => none

end Event

-- Where a step works on an instance that exists, the promised number does not decrease, and the number of the
-- last vote does not exceed it.
def Grows (t : Transition n V) : Prop :=
  ∀ e ∈ t.events, ∀ p seq, e.Visits p seq → ∀ inst ∈ (t.pre.peers p).instances.lookup seq,
    ∃ inst' ∈ (t.post.peers p).instances.lookup seq,
      inst.nP ≤ inst'.nP ∧ inst.nA ≤ inst.nP ∧ inst'.nA ≤ inst'.nP

-- A decision comes to an instance that has promised a greater number.
def Late (t : Transition n V) : Prop :=
  ∃ e ∈ t.events, ∃ p seq, e.Visits p seq ∧ ∃ inst ∈ (t.pre.peers p).instances.lookup seq,
    ∃ pnum ∈ e.decision, pnum < inst.nP

namespace Instance.Change

theorem le_iff (h : inst.Change d inst') : inst.nP ≤ inst'.nP ↔ ∀ pnum ∈ d, ¬pnum < inst.nP := by
  cases h
  case promise lt => simp [le_of_lt lt]
  case vote le    => simp [le]
  case reject     => simp
  case decide     => simp only [Option.mem_def, Option.some.injEq, forall_eq', not_lt]

theorem ordered (h : inst.Change d inst') (hi : inst.nA ≤ inst.nP) : inst'.nA ≤ inst'.nP := by
  cases h
  case promise lt => exact hi.trans <| le_of_lt lt
  case vote       => exact le_rfl
  case reject     => exact hi
  case decide     => exact le_rfl

end Instance.Change

namespace Peer

theorem handle_change {req : Request n V} (h : inst ∈ px.instances.lookup req.seq) :
    ∃ inst' ∈ (px.handle req).1.instances.lookup req.seq,
      inst.Change (Event.decision (.handle p req (px.handle req).2)) inst' := by
  have hl := Option.mem_def.mp h
  cases req
  case decide args => exact ⟨_, setInstance_lookup, .decide⟩
  case prepare args =>
    have hl : px.instances.lookup args.seq = some inst := hl
    simp only [handle, prepare, hl, Request.seq]
    split
    case isTrue lt => exact ⟨_, setInstance_lookup, .promise lt⟩
    case isFalse   => exact ⟨_, hl, .reject⟩
  case accept args =>
    have hl : px.instances.lookup args.seq = some inst := hl
    simp only [handle, accept, hl, Request.seq]
    split
    case isTrue le => exact ⟨_, setInstance_lookup, .vote le⟩
    case isFalse   => exact ⟨_, hl, .reject⟩

-- The number of the last vote of an instance does not exceed the promised number.
def Ordered (px : Peer n V) : Prop :=
  ∀ seq, ∀ inst ∈ px.instances.lookup seq, inst.nA ≤ inst.nP

theorem Ordered.setInstance (h : px.Ordered) (hi : inst.nA ≤ inst.nP) : (px.setInstance seq inst).Ordered := by
  intro k inst' hl
  if hk : k = seq then
    subst hk
    cases setInstance_lookup.symm.trans hl
    exact hi
  else
    exact h k inst' <| setInstance_lookup_ne hk ▸ hl

theorem Ordered.handle (h : px.Ordered) (req : Request n V) : (px.handle req).1.Ordered := by
  cases req <;> simp only [Peer.handle]
  case decide args => exact h.setInstance le_rfl
  case prepare args =>
    simp only [prepare]
    split
    case h_1 => exact h.setInstance bot_le
    case h_2 hl =>
      split
      case isTrue lt => exact h.setInstance <| (h _ _ hl).trans <| le_of_lt lt
      case isFalse   => exact h
  case accept args =>
    simp only [accept]
    split
    case h_1 => exact h.setInstance le_rfl
    case h_2 =>
      split
      case isTrue  => exact h.setInstance le_rfl
      case isFalse => exact h

theorem Ordered.step (h : px.Ordered) (hs : Peer.Step p es px px') : px'.Ordered := by
  cases hs
  case same     => exact h
  case min      => exact fun k inst hl => h k inst (forget_lookup.mp hl).left
  case handle   => exact h.handle _
  case learn hl => exact (learn_eq_some hl).left ▸ h.setInstance le_rfl
  case done     =>
    unfold Peer.done
    split <;> exact h

end Peer

theorem ordered_of_run (r : (peers n V).Run ts s) (p : Fin n) : (s.peers p).Ordered :=
  r.invariant (I := fun s => (s.peers p).Ordered) nofun fun t h => h.step <| Step.of t |>.peer p

theorem Step.of_learn (h : Step s s' es) (hm : .learn p seq pnum v ∈ es) :
    (s.peers p).learn seq pnum v = some (s'.peers p) := by
  cases h <;> simp at hm
  case learn hl =>
    have ⟨hp, hs, hn, hv⟩ := hm
    subst hp hs hn hv
    simpa [State.setPeer, State.setThread] using hl

theorem Step.of_visits (h : Step s s' es) (he : e ∈ es) (hv : e.Visits p seq)
    (hi : inst ∈ (s.peers p).instances.lookup seq) :
    ∃ inst' ∈ (s'.peers p).instances.lookup seq, inst.Change e.decision inst' := by
  cases e <;> try exact hv.elim
  case handle q req reply =>
    have ⟨hq, hs⟩ := hv
    subst hq hs
    have ⟨inst', hl, hc⟩ := Peer.handle_change (p := q) hi
    refine ⟨inst', h.of_handle he ▸ hl, ?_⟩
    cases req <;> exact hc
  case learn q k pnum v =>
    have ⟨hq, hs⟩ := hv
    subst hq hs
    have ⟨hl, _⟩ := Peer.learn_eq_some <| h.of_learn he
    exact ⟨_, hl ▸ Peer.setInstance_lookup, .decide⟩

theorem Late.not_grows (h : Late t) : ¬Grows t := by
  intro hg
  have ⟨e, he, p, seq, hv, inst, hi, pnum, hd, hlt⟩ := h
  have ⟨inst', hl, hc⟩ := Step.of t |>.of_visits he hv hi
  have ⟨_, hl', hle, _⟩ := hg e he p seq hv inst hi
  cases hl.symm.trans hl'
  exact hc.le_iff.mp hle pnum hd hlt

theorem grows_iff (r : (peers n V).Run ts s) (h : t ∈ ts) : Grows t ↔ ¬Late t where
  mp hg hl := hl.not_grows hg
  mpr hn e he p seq hv inst hi := by
    have ⟨_, _, hs⟩ := List.append_of_mem h
    have ho := ordered_of_run (hs ▸ r).split_cons.left p seq inst hi
    have ⟨inst', hl, hc⟩ := Step.of t |>.of_visits he hv hi
    have hle := hc.le_iff.mpr fun pnum hd hlt => hn ⟨e, he, p, seq, hv, inst, hi, pnum, hd, hlt⟩
    exact ⟨inst', hl, hle, ho, hc.ordered ho⟩

-- Peer 1 has got a vote of peer 0 under the number "1-1".
def proposal : List (Action 2 Nat) :=
  [.start ⟨1, Nat.one_lt_two⟩ 0 (some 8), .run 0 "", .run 0 "1-1", .run 0 "", .deliver 0, .receive 0, .run 0 "", .run 0 "",
    .run 0 "", .deliver 1, .receive 0]

-- It votes for its own value.
theorem grows_proposal : ∃ (ts : List (Transition 2 Nat)) (s : _) (t : _), (peers 2 Nat).Run ts s ∧ t ∈ ts ∧
    t.act = .run 0 "" ∧ (∃ e ∈ t.events, e.Visits 1 0) ∧ Grows t := by
  let t : Transition 2 Nat := ⟨((peers 2 Nat).trace .init proposal).2, .run 0 "", _, _, rfl⟩
  have r := (peers 2 Nat).path_trace .init proposal |>.snoc t
  refine ⟨_, _, t, r, by simp, rfl, ⟨_, List.mem_cons_self, rfl, rfl⟩, (grows_iff r <| by simp).mpr ?_⟩
  rintro ⟨e, he, p, seq, _, _, _, pnum, hd, _⟩
  cases List.mem_singleton.mp he
  cases hd

-- Peer 1 decides its value and announces it, and peer 0 promises "2-0" before it gets the message.
theorem exists_late : ∃ (ts : List (Transition 2 Nat)) (s : _) (t : _), (peers 2 Nat).Run ts s ∧ t ∈ ts ∧
    t.act = .deliver 2 ∧ ¬Grows t := by
  let as := proposal ++ [.run 0 "", .run 0 "", .run 0 "", .run 0 "", .run 0 "", .start 0 0 (some 7), .run 1 "",
    .run 1 "2-0", .run 1 ""]
  let t : Transition 2 Nat := ⟨((peers 2 Nat).trace .init as).2, .deliver 2, _, _, rfl⟩
  have r := (peers 2 Nat).path_trace .init as |>.snoc t
  have hi : (t.pre.peers 0).instances.lookup 0 = some ⟨.pending, "2-0", "1-1", some 8⟩ := by decide +kernel
  have hl : Late t :=
    ⟨_, List.mem_cons_self, 0, 0, ⟨rfl, rfl⟩, _, hi, "1-1", rfl, by decide⟩
  exact ⟨_, _, t, r, by simp, rfl, hl.not_grows⟩

end Paxos
