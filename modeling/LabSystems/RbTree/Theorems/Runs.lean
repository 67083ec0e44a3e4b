import LabSystems.RbTree.Theorems.Reads

namespace RbTree

open Algorithm (Addr)
open Linked

variable {E L : Type} [LinearOrder L] {cmp : E → E → Int} {rank : E → L} {s s' : Head E} {t : BinaryTree Addr}
  {es : List (Addr × E)} {ts : List (tree cmp).Transition}

theorem holds_init : Head.Holds rank (⟨∅, none⟩ : Head E) [] .nil where
  represents := ⟨rfl, .nil⟩
  balanced   := ⟨0, .nil⟩
  keys       := rfl
  data       := by simp
  sorted     := .nil

-- The tree and the list take the same calls, return the same and go on together.
theorem Head.Holds.step (h : s.Holds rank es t) (hc : Compares cmp rank) (a : Head.Action E) :
    (tree cmp).step s a = none ∧ (sortedList cmp).step es a = none ∨
      ∃ s' t' es' ps, (tree cmp).step s a = some (s', ps) ∧ (sortedList cmp).step es a = some (es', ps) ∧
        s'.Holds rank es' t' := by
  have hf := h.foreach
  cases a with
  | insert x n =>
    by_cases hx : x ∈ es.map Prod.fst
    case pos =>
      refine .inl ⟨?_, if_pos hx⟩
      simp only [tree, Head.step, hf, Option.bind_eq_bind, Option.bind_some, if_pos hx, Option.map_none]
    case neg =>
      obtain ⟨s', t', hs, h'⟩ := h.insert hc hx n
      refine .inr ⟨s', t', _, _, ?_, if_neg hx, h'⟩
      simp only [tree, Head.step, hf, Option.bind_eq_bind, Option.bind_some, if_neg hx, hs, Option.map_some]
  | remove x =>
    by_cases hx : x ∈ es.map Prod.fst
    case neg =>
      refine .inl ⟨?_, if_neg hx⟩
      simp only [tree, Head.step, hf, Option.bind_eq_bind, Option.bind_some, if_neg hx, Option.map_none]
    case pos =>
      obtain ⟨e, he, rfl⟩ := List.mem_map.mp hx
      obtain ⟨s', t', hs, h'⟩ := h.remove he
      refine .inr ⟨s', t', _, _, ?_, if_pos hx, h'⟩
      simp only [tree, Head.step, hf, Option.bind_eq_bind, Option.bind_some, if_pos hx, hs, Option.map_some,
        Option.pure_def]

theorem run_holds (hc : Compares cmp rank) (h : (tree cmp).Run ts s) : ∃ us es t, (sortedList cmp).Run us es ∧
    us.map (·.act) = ts.map (·.act) ∧ Machine.events us = Machine.events ts ∧ s.Holds rank es t := by
  refine h.history_invariant (I := fun ts s => ∃ us es t, (sortedList cmp).Run us es ∧ us.map (·.act) = ts.map (·.act) ∧
    Machine.events us = Machine.events ts ∧ s.Holds rank es t) ⟨[], [], .nil, .nil, rfl, rfl, holds_init⟩ ?_
  rintro ts u ⟨us, es, t, hr, ha, he, ht⟩
  rcases ht.step hc u.act with ⟨hn, _⟩ | ⟨s', t', es', ps, hs, hs', h'⟩
  case inl => cases hn.symm.trans u.valid
  case inr =>
    obtain ⟨rfl, rfl⟩ := Prod.mk.inj <| Option.some.inj <| hs.symm.trans u.valid
    refine ⟨us ++ [⟨es, u.act, u.events, es', hs'⟩], es', t', hr.snoc ⟨es, u.act, u.events, es', hs'⟩, ?_, ?_, h'⟩
    case refine_1 => simp [ha]
    case refine_2 => simp [he]

-- In each run the tree is an ordered list without equal elements: it returns what the list does, a walk visits the
-- elements of the list in their order, and no call that the list takes goes wrong.
theorem run_sorted (hc : Compares cmp rank) (h : (tree cmp).Run ts s) : ∃ us es, (sortedList cmp).Run us es ∧
    us.map (·.act) = ts.map (·.act) ∧ Machine.events us = Machine.events ts ∧ s.foreach = some (es.map Prod.fst) ∧
      es.Pairwise (rank ·.snd < rank ·.snd) ∧
        ∀ a, ((tree cmp).step s a).isSome = ((sortedList cmp).step es a).isSome := by
  obtain ⟨us, es, t, hr, ha, he, ht⟩ := run_holds hc h
  refine ⟨us, es, hr, ha, he, ht.foreach, ht.sorted, fun a => ?_⟩
  rcases ht.step hc a with ⟨hn, hn'⟩ | ⟨s', t', es', ps, hs, hs', _⟩
  case inl => rw [hn, hn', Option.isSome_none, Option.isSome_none]
  case inr => rw [hs, hs', Option.isSome_some, Option.isSome_some]

def difference (a b : Int) : Int :=
  a - b

theorem compares_difference : Compares difference (id : Int → Int) where
  neg a b := by
    simp only [difference, id]
    omega
  pos a b := by
    simp only [difference, id]
    omega

-- An element with a key, for which the fields of the tree hold something else before.
def keyed (key : Int) : Element Int :=
  ⟨key, some 70, none, some 80, .black⟩

-- The fourth key makes the tree change colours, the fifth one is there already, and the root is removed at the end.
def grown : List (tree difference).Transition × Head Int :=
  (tree difference).trace (tree difference).init
    [.insert 1 (keyed 2), .insert 2 (keyed 1), .insert 3 (keyed 3), .insert 4 (keyed 4), .insert 5 (keyed 3), .remove 1]

theorem sorted_grown : ∃ es : List (Addr × Int), grown.2.foreach = some (es.map Prod.fst) ∧
    es.Pairwise (·.snd < ·.snd) := by
  obtain ⟨_, es, _, _, _, hf, hs, _⟩ := run_sorted compares_difference <| (tree difference).path_trace ..
  exact ⟨es, hf, hs⟩

-- What a program reads.
theorem run_reads (hc : Compares cmp rank) (h : (tree cmp).Run ts s) : ∃ us es, (sortedList cmp).Run us es ∧
    us.map (·.act) = ts.map (·.act) ∧ (∀ elm, s.find cmp elm = some (findEqual cmp elm es)) ∧
      s.min = some (es.head?.map Prod.fst) ∧ s.max = some (es.getLast?.map Prod.fst) ∧
        ∀ xs e ys, es = xs ++ e :: ys → s.next e.fst = some (ys.head?.map Prod.fst) := by
  obtain ⟨us, es, t, hr, ha, _, ht⟩ := run_holds hc h
  exact ⟨us, es, hr, ha, ht.find hc, ht.min, ht.max, fun _ _ _ he => ht.next he⟩

theorem reads_grown : ∃ es, (∀ elm, grown.2.find difference elm = some (findEqual difference elm es)) ∧
    grown.2.min = some (es.head?.map Prod.fst) ∧ grown.2.max = some (es.getLast?.map Prod.fst) := by
  obtain ⟨_, es, _, _, hf, hm, hm', _⟩ := run_reads compares_difference <| (tree difference).path_trace ..
  exact ⟨es, hf, hm, hm'⟩

-- The tree is balanced in each run, so that a search takes a number of passes that is logarithmic.
theorem run_balanced (hc : Compares cmp rank) (h : (tree cmp).Run ts s) : ∃ t n, Rep s.links s.root none t ∧
    Balanced s.colorOf t .black n ∧ s.foreach = some (inorder t) ∧
      t.height ≤ 2 * Nat.log 2 ((inorder t).length + 1) ∧
        ∀ elm, (s.search cmp elm (2 * Nat.log 2 ((inorder t).length + 1) + 1) none 0 s.root).isSome := by
  obtain ⟨us, es, t, _, _, _, ht⟩ := run_holds hc h
  obtain ⟨n, hb⟩ := ht.balanced
  have hh := hb.height_le_log
  refine ⟨t, n, ht.represents.rep, hb, ht.keys ▸ ht.foreach, hh, fun elm => ?_⟩
  rcases ht.search hc elm (Nat.lt_succ_of_le hh) with ⟨_, e, _, c, _, _, hs⟩ | ⟨fs, c, _, _, hs, _⟩
  case inl => rw [hs]; rfl
  case inr => rw [hs]; rfl

theorem balanced_grown : ∃ t n, Rep grown.2.links grown.2.root none t ∧ Balanced grown.2.colorOf t .black n ∧
    t.height ≤ 2 * Nat.log 2 ((inorder t).length + 1) := by
  obtain ⟨t, n, hr, hb, _, hh, _⟩ := run_balanced compares_difference <| (tree difference).path_trace ..
  exact ⟨t, n, hr, hb, hh⟩

end RbTree
