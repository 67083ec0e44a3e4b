import Mathlib.Data.List.Basic

-- Lists that are used as tables, indexed by position, which grow at the end.
namespace List

variable {l : List α} {P : Nat → α → Prop} {i : Nat} {a b : α}

theorem getElem?_concat_of_getElem? (h : l[i]? = some a) : (l ++ [b])[i]? = some a := by
  have hi := getElem?_eq_some_iff.mp h |>.choose
  simpa [getElem?_append_left hi] using h

-- A property of all entries survives the addition of an entry with the property.
theorem forall_concat (hp : ∀ i a, l[i]? = some a → P i a) (hn : P l.length b) :
    ∀ i a, (l ++ [b])[i]? = some a → P i a := by
  intro i a h
  rw [getElem?_append] at h
  split at h
  case isTrue => exact hp i a h
  case isFalse hi =>
    rw [getElem?_singleton] at h
    split at h
    case isTrue he =>
      have he : i = l.length := by omega
      exact he ▸ Option.some.inj h ▸ hn
    case isFalse => contradiction

-- A property of all entries survives the replacement of one entry by an entry with the property.
theorem forall_set (hp : ∀ i a, i ≠ j → l[i]? = some a → P i a) (hn : P j b) :
    ∀ i a, (l.set j b)[i]? = some a → P i a := by
  intro i a h
  by_cases he : i = j
  case pos =>
    subst he
    rw [getElem?_set_self'] at h
    cases hl : l[i]? <;> simp [hl] at h
    exact h ▸ hn
  case neg => exact hp i a he <| getElem?_set_ne (Ne.symm he) ▸ h

-- The ways to split a list at one of its entries are its positions.
theorem forall_split_iff {P : List α → α → List α → Prop} :
    (∀ l₁ a l₂, l = l₁ ++ a :: l₂ → P l₁ a l₂) ↔
    ∀ i (h : i < l.length), P (l.take i) l[i] (l.drop (i + 1)) where
  mp hp i h := hp _ _ _ <| by rw [← drop_eq_getElem_cons h, take_append_drop]
  mpr hp l₁ a l₂ h := by
    subst h
    simpa [Nat.sub_eq_zero_of_le] using hp l₁.length (by simp)

theorem exists_split_iff {P : List α → α → List α → Prop} :
    (∃ l₁ a l₂, l = l₁ ++ a :: l₂ ∧ P l₁ a l₂) ↔
    ∃ i, ∃ h : i < l.length, P (l.take i) l[i] (l.drop (i + 1)) := by
  simpa using (forall_split_iff (l := l) (P := fun l₁ a l₂ => ¬P l₁ a l₂)).not

end List
