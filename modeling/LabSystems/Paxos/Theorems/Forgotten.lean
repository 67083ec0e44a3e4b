import LabSystems.Paxos.Theorems.Peer
import LabSystems.Paxos.Theorems.Step

namespace Paxos

variable {n : Nat} {V : Type} {s s' : State n V} {es : List (Event n V)} {p : Fin n} {seq : Int}

-- What a step does to a single peer.
inductive Peer.Step (p : Fin n) (es : List (Event n V)) (px : Peer n V) : Peer n V → Prop
  | same : Step p es px px
  | done (event : .done p k ∈ es) : Step p es px (px.done p k)
  | min : Step p es px (px.min p).1
  | handle (event : .handle p req (px.handle req).2 ∈ es) : Step p es px (px.handle req).1
  | learn (learn : px.learn k pnum v = some px') : Step p es px px'

theorem State.setPeer_step {px : Peer n V} (h : Peer.Step p es (s.peers p) px) (i : Fin n) :
    Peer.Step i es (s.peers i) ((s.setPeer p px).peers i) := by
  by_cases he : i = p
  case pos => simpa [he, setPeer] using h
  case neg => simpa [he, setPeer] using .same

theorem Step.peer (h : Step s s' es) (i : Fin n) : Peer.Step i es (s.peers i) (s'.peers i) := by
  cases h
  case done    => exact s.setPeer_step (.done <| by simp) i
  case min | forgotten | query | check | retry | status => exact s.setPeer_step .min i
  case self    => exact s.setPeer_step (.handle <| by simp) i
  case deliver => exact s.setPeer_step (.handle <| by simp) i
  case learn h => exact s.setPeer_step (.learn h) i
  all_goals exact .same

theorem Step.of_min (h : Step s s' es) (hm : .min p m ∈ es) :
    m = s.minAt p ∧ s'.peers p = ((s.peers p).min p).1 := by
  cases h <;> simp at hm
  all_goals
    have ⟨rfl, hm⟩ := hm
    exact ⟨hm, by simp [State.forgetAt, State.setPeer, State.spawn, State.setThread]⟩

theorem Step.of_handle (h : Step s s' es) (hm : .handle p req reply ∈ es) :
    s'.peers p = ((s.peers p).handle req).1 := by
  cases h <;> simp at hm
  all_goals
    have ⟨rfl, rfl, _⟩ := hm
    simp [State.setPeer, State.setThread, State.setCalls]

namespace Peer

variable {px px' : Peer n V}

-- Only the handling of a message creates a record.
theorem Step.lookup_none (h : Step p es px px') (hn : px.instances.lookup seq = none)
    (hq : ∀ req reply, .handle p req reply ∈ es → req.seq ≠ seq) :
    px'.instances.lookup seq = none := by
  cases h
  case same => exact hn
  case min  => exact forget_lookup_none hn
  case done =>
    simp only [Peer.done]
    split <;> exact hn
  case handle event =>
    exact handle_lookup_ne (Ne.symm <| hq _ _ event) |>.trans hn
  case learn k _ _ hl =>
    have ⟨he, hs⟩ := learn_eq_some hl
    have hne : seq ≠ k := by
      rintro rfl
      simp [hn] at hs
    rw [he, setInstance_lookup_ne hne, hn]

-- `Min` keeps a record below the minimum exactly if the instance is not decided.
theorem min_lookup_none (h : seq < (px.min p).2) : (px.min p).1.instances.lookup seq = none ↔
    ∀ inst, px.instances.lookup seq = some inst → inst.state = .decided := by
  have hle : ¬px.minDone p < seq := not_lt.mpr <| Int.lt_add_one_iff.mp <| h.trans_le <| px.min_le_minDone p
  simp only [Peer.min, Option.eq_none_iff_forall_ne_some, ne_eq, forget_lookup, hle, false_or]
  exact forall_congr' fun inst => by rw [not_and, not_not]

end Peer

namespace Event

-- `Min` at peer `p` returns a value greater than `seq`.
def Forgets (p : Fin n) (seq : Int) : Event n V → Prop
  | min q m => q = p ∧ seq < m
  | _       => False

-- Peer `p` handles a message for instance `seq`.
def Handles (p : Fin n) (seq : Int) : Event n V → Prop
  | handle q req _ => q = p ∧ req.seq = seq
  | _              => False

-- Peer `p` answers `OK` to a `Prepare` or an `Accept` for instance `seq`.
def Accepts (p : Fin n) (seq : Int) : Event n V → Prop
  | handle q req reply => q = p ∧ req.seq = seq ∧ reply.Ok
  | _                  => False

instance : DecidablePred (Forgets p seq : Event n V → Prop) :=
  fun e => by cases e <;> unfold Forgets <;> infer_instance

instance : DecidablePred (Handles p seq : Event n V → Prop) :=
  fun e => by cases e <;> unfold Handles <;> infer_instance

instance : DecidablePred (Accepts p seq : Event n V → Prop) :=
  fun e => by cases e <;> unfold Accepts <;> infer_instance

theorem Accepts.handles {e : Event n V} (h : e.Accepts p seq) : e.Handles p seq := by
  cases e <;> first | exact ⟨h.left, h.right.left⟩ | exact h

end Event

theorem Step.lookup_of_forgets (h : Step s s' es) (hm : ∃ e ∈ es, e.Forgets p seq) :
    (s'.peers p).instances.lookup seq = none ↔
    ∀ inst, (s.peers p).instances.lookup seq = some inst → inst.state = .decided := by
  have ⟨e, he, hf⟩ := hm
  cases e <;> simp only [Event.Forgets] at hf
  have ⟨rfl, hb⟩ := hf
  have ⟨hv, hp⟩ := h.of_min he
  subst hv
  exact hp ▸ Peer.min_lookup_none hb

theorem Step.lookup_of_handles (h : Step s s' es) (hm : ∃ e ∈ es, e.Handles p seq) :
    ((s'.peers p).instances.lookup seq).isSome := by
  have ⟨e, he, hf⟩ := hm
  cases e <;> simp only [Event.Handles] at hf
  have ⟨rfl, hs⟩ := hf
  rw [h.of_handle he, ← hs]
  exact Peer.handle_lookup

-- Once `Min` at peer `p` has returned a value greater than `seq`, the peer has no record of the
-- instance and accepts no proposal for it.
def StaysForgotten (p : Fin n) (seq : Int) (ts : List (Transition n V)) : Prop :=
  ∀ ts₁ t ts₂, ts = ts₁ ++ t :: ts₂ → (∃ e ∈ t.events, e.Forgets p seq) →
    (t.post.peers p).instances.lookup seq = none ∧
    ∀ u ∈ ts₂, (u.post.peers p).instances.lookup seq = none ∧ ∀ e ∈ u.events, ¬e.Accepts p seq

-- Either `Min` finds an undecided instance below the minimum, or a message for the instance arrives
-- after `Min` has returned a greater value. Neither `Min` nor the handlers guard against this.
def Reopens (p : Fin n) (seq : Int) (ts : List (Transition n V)) (t : Transition n V) : Prop :=
  ((∃ e ∈ t.events, e.Forgets p seq) ∧
    ∃ inst ∈ (t.pre.peers p).instances.lookup seq, inst.state ≠ .decided) ∨
  ((∃ e ∈ Machine.events ts, e.Forgets p seq) ∧ ∃ e ∈ t.events, e.Handles p seq)

theorem staysForgotten_iff (r : (peers n V).Run ts s) : StaysForgotten p seq ts ↔
    ∀ ts₁ t ts₂, ts = ts₁ ++ t :: ts₂ → ¬Reopens p seq ts₁ t where
  mp h ts₁ t ts₂ hs ho := by
    cases ho
    case inl ho =>
      have ⟨hm, inst, hl, hd⟩ := ho
      have hn := Step.of t |>.lookup_of_forgets hm |>.mp (h ts₁ t ts₂ hs hm).left
      exact hd <| hn inst hl
    case inr ho =>
      have ⟨⟨e, he, hm⟩, hh⟩ := ho
      have ⟨t₀, ht, he⟩ := Machine.mem_events.mp he
      have ⟨us, vs, hv⟩ := List.append_of_mem ht
      have hn := h us t₀ (vs ++ t :: ts₂) (by simp [hs, hv]) ⟨e, he, hm⟩ |>.right t (by simp) |>.left
      have := Step.of t |>.lookup_of_handles hh
      simp [hn] at this
  mpr h ts₁ t ts₂ hs hm := by
    have hn : (t.post.peers p).instances.lookup seq = none :=
      Step.of t |>.lookup_of_forgets hm |>.mpr fun inst hl => by
        by_contra hd
        exact h ts₁ t ts₂ hs <| .inl ⟨hm, inst, hl, hd⟩
    have hq : ∀ u ∈ ts₂, ∀ e ∈ u.events, ¬e.Handles p seq := by
      intro u hu e he hh
      have ⟨us, vs, hv⟩ := List.append_of_mem hu
      have ⟨e', he', hm⟩ := hm
      refine h (ts₁ ++ t :: us) u vs (by simp [hs, hv]) <| .inr ⟨⟨e', ?_, hm⟩, e, he, hh⟩
      exact Machine.mem_events.mpr ⟨t, by simp, he'⟩
    refine ⟨hn, fun u hu => ⟨?_, fun e he ha => hq u hu e he ha.handles⟩⟩
    have ⟨us, vs, hv⟩ := List.append_of_mem hu
    have path := (hs ▸ r).split_cons.right
    have path := (hv ▸ path : (peers n V).Path _ (us ++ u :: vs) _).split_cons.left.snoc
    refine path.invariant_of (I := fun s => (s.peers p).instances.lookup seq = none) hn
      (C := fun u => ∀ e ∈ u.events, ¬e.Handles p seq) (fun w hw => hq w ?_)
      (fun u hc hn => Step.of u |>.peer p |>.lookup_none hn fun req reply he hr => hc _ he ⟨rfl, hr⟩)
    exact hv ▸ by simpa [or_left_comm, or_assoc] using List.mem_append_left vs hw

-- An instance that no goroutine works on any more stays forgotten.
theorem staysForgotten_single :
    StaysForgotten 0 0 <| Prod.fst <| (peers 1 Nat).trace .init
      [.start 0 0 (some 7), .run 0 "", .run 0 "1", .run 0 "", .run 0 "", .run 0 "", .run 0 "",
        .run 0 "", .done 0 0, .min 0, .start 0 1 (some 8), .run 1 "", .run 1 "2", .run 1 ""] := by
  refine staysForgotten_iff ((peers 1 Nat).path_trace ..) |>.mpr ?_
  unfold Reopens
  exact List.forall_split_iff.mpr (by decide)

-- Two goroutines of the same peer pass the test of `Start`. The first one decides 7. `Min` then
-- deletes the instance, and the second one decides 8.
theorem not_staysForgotten_two_proposers :
    ∃ (ts : List (Transition 1 Nat)) (s : _), (peers 1 Nat).Run ts s ∧
      .learn 0 0 "1" (some 7) ∈ Machine.events ts ∧ .learn 0 0 "2" (some 8) ∈ Machine.events ts ∧
      ¬StaysForgotten 0 0 ts := by
  let as : List (Action 1 Nat) :=
    [.start 0 0 (some 7), .start 0 0 (some 8), .run 0 "", .run 1 "", .run 0 "1", .run 0 "", .run 0 "",
      .run 0 "", .run 0 "", .run 0 "", .done 0 0, .min 0, .run 1 "2", .run 1 "", .run 1 "", .run 1 "",
      .run 1 "", .run 1 ""]
  refine ⟨_, _, (peers 1 Nat).path_trace .init as, by decide, by decide, fun h => ?_⟩
  exact absurd (List.forall_split_iff.mp h) (by decide)

end Paxos
