import LabSystems.Paxos.Basic

namespace Paxos

def Reply.Ok : Reply V → Prop
  | prepare reply => reply.err = .ok
  | accept reply  => reply.err = .ok
  | decide        => False

instance : DecidablePred (Reply.Ok : Reply V → Prop)
  | .prepare reply => inferInstanceAs (Decidable (reply.err = .ok))
  | .accept reply  => inferInstanceAs (Decidable (reply.err = .ok))
  | .decide        => inferInstanceAs (Decidable False)

namespace Peer

variable {n : Nat} {V : Type} {px px' : Peer n V} {me : Fin n} {k b m : Int}

@[simp]
theorem setInstance_lookup : (px.setInstance seq inst).instances.lookup seq = some inst :=
  AList.lookup_insert _

theorem setInstance_lookup_ne (h : k ≠ seq) :
    (px.setInstance seq inst).instances.lookup k = px.instances.lookup k :=
  AList.lookup_insert_ne h

@[simp]
theorem setInstance_dones : (px.setInstance seq inst).dones = px.dones :=
  rfl

-- A handler touches no other instance.
theorem handle_lookup_ne {req : Request n V} (h : k ≠ req.seq) :
    (px.handle req).1.instances.lookup k = px.instances.lookup k := by
  cases req <;> simp only [handle, prepare, accept, decide]
  case decide => exact setInstance_lookup_ne h
  all_goals
    split
    case h_1 => exact setInstance_lookup_ne h
    case h_2 =>
      split
      case isTrue  => exact setInstance_lookup_ne h
      case isFalse => rfl

-- A handler leaves a record of the instance behind.
theorem handle_lookup {req : Request n V} :
    ((px.handle req).1.instances.lookup req.seq).isSome := by
  cases req <;> simp only [handle, prepare, accept, decide, Request.seq]
  case decide => exact Option.isSome_of_mem setInstance_lookup
  all_goals
    split
    case h_1 => exact Option.isSome_of_mem setInstance_lookup
    case h_2 hl =>
      split
      case isTrue  => exact Option.isSome_of_mem setInstance_lookup
      case isFalse => exact Option.isSome_of_mem hl

theorem handle_dones (px : Peer n V) (req : Request n V) :
    (px.handle req).1.dones = px.dones ∨
      ∃ args, req = .decide args ∧ (px.handle req).1.dones = Function.update px.dones args.me args.done := by
  cases req <;> simp only [handle, prepare, accept, decide]
  case decide args => exact .inr ⟨args, rfl, rfl⟩
  all_goals
    refine .inl ?_
    split <;> try split
    all_goals rfl

theorem learn_eq_some (h : px.learn seq pnum v = some px') :
    px' = px.setInstance seq ⟨.decided, pnum, pnum, v⟩ ∧ (px.instances.lookup seq).isSome := by
  simp only [learn] at h
  split at h
  case h_1    => contradiction
  case h_2 hl => exact ⟨(Option.some.inj h).symm, Option.isSome_of_mem hl⟩

theorem forget_foldl_lookup (es : List (Sigma fun _ : Int => Instance V)) (insts : Instances V) :
    AList.lookup k (es.foldl (fun insts e =>
      if b < e.1 then insts else if e.2.state ≠ .decided then insts else insts.erase e.1) insts) =
    if ∃ e ∈ es, e.1 = k ∧ ¬b < k ∧ e.2.state = .decided then none else insts.lookup k := by
  induction es generalizing insts
  case nil => simp
  case cons e es hi =>
    rw [List.foldl_cons, hi]
    by_cases he : e.1 = k ∧ ¬b < k ∧ e.2.state = .decided
    case pos =>
      have ⟨rfl, hm, hd⟩ := he
      simp [hm, hd]
    case neg =>
      have hl : AList.lookup k (if b < e.1 then insts else
          if e.2.state ≠ .decided then insts else insts.erase e.1) = insts.lookup k := by
        split
        case isTrue => rfl
        case isFalse hm =>
          split
          case isTrue => rfl
          case isFalse hd =>
            exact AList.lookup_erase_ne fun h => he ⟨h.symm, h ▸ hm, not_not.mp hd⟩
      simp only [hl, List.exists_mem_cons_iff, he, false_or]

-- `Min` deletes exactly the decided instances up to the minimum.
theorem forget_lookup {insts : Instances V} : (forget insts b).lookup k = some inst ↔
    insts.lookup k = some inst ∧ (b < k ∨ inst.state ≠ .decided) := by
  rw [forget, forget_foldl_lookup]
  constructor
  case mp =>
    intro h
    split at h
    case isTrue => contradiction
    case isFalse hn =>
      refine ⟨h, or_iff_not_imp_left.mpr fun hm hd => hn ?_⟩
      exact ⟨⟨k, inst⟩, AList.mem_lookup_iff.mp h, rfl, hm, hd⟩
  case mpr =>
    intro ⟨hl, h⟩
    rw [if_neg, hl]
    rintro ⟨⟨_, inst'⟩, he, rfl, hm, hd⟩
    have hi := hl ▸ AList.mem_lookup_iff.mpr he
    cases hi
    exact h.elim hm (· hd)

theorem forget_lookup_of_lt {insts : Instances V} (h : b < k) :
    (forget insts b).lookup k = insts.lookup k := by
  rw [forget, forget_foldl_lookup, if_neg]
  exact fun ⟨_, _, _, hb, _⟩ => hb h

theorem forget_lookup_none {insts : Instances V} (h : insts.lookup k = none) :
    (forget insts b).lookup k = none := by
  by_contra hn
  have ⟨_, hs⟩ := Option.ne_none_iff_exists'.mp hn
  simp [forget_lookup.mp hs |>.left] at h

theorem foldl_le_of_mem {f : ι → Int} (l : List ι) :
    (l.foldl (fun x i => if f i < x then f i else x) m ≤ m) ∧
    ∀ i ∈ l, l.foldl (fun x i => if f i < x then f i else x) m ≤ f i := by
  induction l generalizing m
  case nil => simp
  case cons i l hi =>
    have ⟨h₁, h₂⟩ := hi (m := if f i < m then f i else m)
    have hm : (if f i < m then f i else m) ≤ m ∧ (if f i < m then f i else m) ≤ f i := by
      split <;> omega
    refine ⟨h₁.trans hm.left, fun j hj => ?_⟩
    cases List.mem_cons.mp hj
    case inl hj => exact hj ▸ h₁.trans hm.right
    case inr hj => exact h₂ j hj

theorem le_foldl {f : ι → Int} (l : List ι) (hm : b ≤ m) (hf : ∀ i, b ≤ f i) :
    b ≤ l.foldl (fun x i => if f i < x then f i else x) m := by
  induction l generalizing m
  case nil => exact hm
  case cons i l hi =>
    refine hi ?_
    beta_reduce
    split
    case isTrue  => exact hf i
    case isFalse => exact hm

theorem minDone_le (px : Peer n V) (me i : Fin n) : px.minDone me ≤ px.dones i :=
  foldl_le_of_mem _ |>.right i <| List.mem_finRange i

theorem le_minDone (me : Fin n) (h : ∀ i, b ≤ px.dones i) : b ≤ px.minDone me :=
  le_foldl _ (h me) h

theorem le_minDone_iff {b : Int} : b ≤ px.minDone p ↔ ∀ i, b ≤ px.dones i :=
  ⟨fun h i => h.trans <| px.minDone_le p i, px.le_minDone p⟩

theorem increment_le (k : Int) : increment k ≤ k + 1 := by
  unfold increment
  split <;> omega

theorem min_le_minDone (px : Peer n V) (me : Fin n) : (px.min me).2 ≤ px.minDone me + 1 :=
  increment_le _

end Peer

end Paxos
