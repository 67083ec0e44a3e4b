import LabSystems.Paxos.Theorems.Forgotten

namespace Paxos

variable {n : Nat} {V : Type} {s s' : State n V} {es : List (Event n V)} {p : Fin n} {k m : Int}
  {ts ts₁ ts₂ : List (Transition n V)}

theorem le_foldl_max (l : List Int) : m ≤ l.foldl (fun max k => if max < k then k else max) m ∧
    ∀ k ∈ l, k ≤ l.foldl (fun max k => if max < k then k else max) m := by
  induction l generalizing m
  case nil => simp
  case cons k l hi =>
    have ⟨hm, hl⟩ := hi (m := if m < k then k else m)
    have hk : m ≤ (if m < k then k else m) ∧ k ≤ (if m < k then k else m) := by
      split <;> omega
    refine ⟨hk.left.trans hm, fun k' hk' => ?_⟩
    cases List.mem_cons.mp hk'
    case inl he => exact he ▸ hk.right.trans hm
    case inr hk' => exact hl k' hk'

theorem foldl_max_mem (l : List Int) : l.foldl (fun max k => if max < k then k else max) m ∈ m :: l := by
  induction l generalizing m
  case nil => simp
  case cons k l hi =>
    rw [List.foldl_cons]
    by_cases hk : m < k
    case pos =>
      rw [if_pos hk]
      exact List.mem_cons_of_mem m hi
    case neg =>
      rw [if_neg hk]
      cases List.mem_cons.mp (hi (m := m))
      case inl he => exact List.mem_cons.mpr <| .inl he
      case inr hl => exact List.mem_cons_of_mem m <| List.mem_cons_of_mem k hl

namespace Peer

variable {px : Peer n V}

theorem max_nonneg : 0 ≤ px.max :=
  le_foldl_max _ |>.left

theorem le_max (h : k ∈ px.instances.keys) : k ≤ px.max :=
  le_foldl_max _ |>.right k h

-- There is a record of what `Max` returns, unless it is 0.
theorem max_mem (h : px.max ≠ 0) : px.max ∈ px.instances.keys :=
  List.mem_cons.mp (foldl_max_mem px.instances.keys (m := 0)) |>.resolve_left h

end Peer

theorem Step.of_max (h : Step s s' es) (hm : .max p m ∈ es) : m = (s.peers p).max ∧ s' = s := by
  cases h <;> simp at hm
  exact ⟨hm.right ▸ hm.left ▸ rfl, rfl⟩

-- `Max` is called at peer `p`.
def Event.IsMax (p : Fin n) : Event n V → Prop
  | max q _ => q = p
  | _       => False

instance : DecidablePred (Event.IsMax p : Event n V → Prop)
  | .max q _ => inferInstanceAs <| Decidable (q = p)
  | .start .. | .done .. | .min .. | .status .. | .handle .. | .learn .. => instDecidableFalse

theorem Event.IsMax.exists {e : Event n V} (h : e.IsMax p) : ∃ m, e = .max p m := by
  cases e <;> simp only [Event.IsMax] at h
  exact ⟨_, by rw [h]⟩

-- Peer `p` has had a record of instance `k`.
def Held (p : Fin n) (k : Int) (ts : List (Transition n V)) : Prop :=
  ∃ t ∈ ts, k ∈ (t.post.peers p).instances.keys

-- `Max` returns -1 until there is a record, and from then on no less than the number of any record that
-- there has been.
def MaxKnown (p : Fin n) (ts : List (Transition n V)) : Prop :=
  ∀ ts₁ t ts₂, ts = ts₁ ++ t :: ts₂ → ∀ m, .max p m ∈ t.events →
    ((∀ k, ¬Held p k ts₁) → m = -1) ∧ (∀ k, Held p k ts₁ → k ≤ m) ∧
    ∀ u ∈ ts₂, ∀ m', .max p m' ∈ u.events → m ≤ m'

-- There has been a record, and the one with the highest number is still there.
structure Kept (p : Fin n) (ts : List (Transition n V)) (s : State n V) : Prop where
  held : ∃ k, Held p k ts
  kept : ∀ k, Held p k ts → 0 < k → ∃ k' ∈ (s.peers p).instances.keys, k ≤ k'

instance : Decidable (Kept p ts s) :=
  decidable_of_iff ((∃ t ∈ ts, (t.post.peers p).instances.keys ≠ []) ∧ ∀ t ∈ ts,
      ∀ k ∈ (t.post.peers p).instances.keys, 0 < k → ∃ k' ∈ (s.peers p).instances.keys, k ≤ k') {
    mp h := ⟨
      have ⟨t, ht, hn⟩ := h.left
      have ⟨k, hk⟩ := List.exists_mem_of_ne_nil _ hn
      ⟨k, t, ht, hk⟩,
      fun k ⟨t, ht, hk⟩ => h.right t ht k hk⟩
    mpr h := ⟨
      have ⟨_, t, ht, hk⟩ := h.held
      ⟨t, ht, List.ne_nil_of_mem hk⟩,
      fun t ht k hk => h.kept k ⟨t, ht, hk⟩⟩
  }

instance : Decidable (Held p k ts) :=
  inferInstanceAs <| Decidable <| ∃ t ∈ ts, k ∈ (t.post.peers p).instances.keys

theorem Kept.le_max (h : Kept p ts s) (hk : Held p k ts) : k ≤ (s.peers p).max := by
  by_cases hz : 0 < k
  case neg => exact (not_lt.mp hz).trans Peer.max_nonneg
  case pos =>
    have ⟨_, hl, hle⟩ := h.kept k hk hz
    exact hle.trans <| Peer.le_max hl

-- `Max` starts from 0, and takes only the records into account that `Min` has left.
theorem maxKnown_iff : MaxKnown p ts ↔
    ∀ ts₁ t ts₂, ts = ts₁ ++ t :: ts₂ → (∃ e ∈ t.events, e.IsMax p) → Kept p ts₁ t.pre := by
  constructor
  case mp =>
    intro h ts₁ t ts₂ hs ⟨e, hm, he⟩
    have ⟨m, he⟩ := he.exists
    subst he
    have ⟨hinit, hle, _⟩ := h ts₁ t ts₂ hs m hm
    have ⟨he, _⟩ := Step.of t |>.of_max hm
    refine ⟨?_, fun k hk hz => ?_⟩
    case refine_1 =>
      by_contra hn
      have hneg := hinit fun k hk => hn ⟨k, hk⟩
      have hz : 0 ≤ (t.pre.peers p).max := Peer.max_nonneg
      omega
    case refine_2 =>
      have hle := hle k hk
      exact ⟨_, Peer.max_mem (by omega), he ▸ hle⟩
  case mpr =>
    intro h ts₁ t ts₂ hs m hm
    have ⟨he, hpost⟩ := Step.of t |>.of_max hm
    have hk := h ts₁ t ts₂ hs ⟨_, hm, rfl⟩
    refine ⟨fun hn => ?_, fun k hh => he ▸ hk.le_max hh, fun u hu m' hm' => ?_⟩
    case refine_1 =>
      have ⟨k, hh⟩ := hk.held
      exact absurd hh (hn k)
    case refine_2 =>
      have ⟨us, vs, hv⟩ := List.append_of_mem hu
      have ⟨he', _⟩ := Step.of u |>.of_max hm'
      have hk' := h (ts₁ ++ t :: us) u vs (by simp [hs, hv]) ⟨_, hm', rfl⟩
      rw [he, he']
      by_cases hz : (t.pre.peers p).max = 0
      case pos => exact hz ▸ Peer.max_nonneg
      case neg => exact hk'.le_max ⟨t, by simp, hpost.symm ▸ Peer.max_mem hz⟩

-- A single peer decides instance 1.
def single : List (Action 1 Nat) :=
  [.start 0 1 (some 7), .run 0 "", .run 0 "1", .run 0 "", .run 0 "", .run 0 "", .run 0 "", .run 0 ""]

theorem maxKnown_single :
    MaxKnown 0 <| Prod.fst <| (peers 1 Nat).trace .init <| single ++ [.max 0, .done 0 0, .min 0, .max 0] :=
  maxKnown_iff.mpr <| List.forall_split_iff.mpr (by decide +kernel)

-- `Max` returns 0 before there is a record, and when the record of instance 1 has been deleted.
theorem not_maxKnown :
    ∃ (ts : List (Transition 1 Nat)) (s : _), (peers 1 Nat).Run ts s ∧
      (Machine.events ts).filter (fun | .max .. => true | _ => false) = [.max 0 0, .max 0 1, .max 0 0] ∧
      Held 0 1 ts ∧ ¬MaxKnown 0 ts := by
  let as := .max 0 :: single ++ [.max 0, .done 0 1, .min 0, .max 0]
  refine ⟨_, _, (peers 1 Nat).path_trace .init as, by decide +kernel, ?_, fun h => ?_⟩
  case refine_1 => decide +kernel
  case refine_2 =>
    have hk := maxKnown_iff.mp h
    exact absurd (List.forall_split_iff.mp hk) (by decide +kernel)

end Paxos
