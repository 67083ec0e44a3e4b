import Mathlib.Data.List.Basic
import LabSystems.Algorithm.BTree

namespace Algorithm.Slots

variable {a b a' b' : Slots α} {l r : List α} {i k n d : Nat} {v : α}

-- The values in the slots from 1 to `n`.
def used (a : Slots α) (n : Nat) : List α :=
  a.toList.drop 1 |>.take n

theorem getElem?_used : (used a n)[j]? = if j < n then a[j + 1]? else none := by
  rw [used, List.getElem?_take, List.getElem?_drop, Nat.add_comm 1 j, Vector.getElem?_toList]

theorem length_used (h : n ≤ MAX_NODE_KEY * 2) : (used a n).length = n := by
  rw [used, List.length_take, List.length_drop, Vector.length_toList]
  omega

theorem getElem?_of_used (h : used a n = l ++ v :: r) (hl : l.length + 1 = i) : a[i]? = some v := by
  have hg := getElem?_used (a := a) (n := n) (j := l.length)
  rw [h, List.getElem?_append_right (Nat.le_refl _), Nat.sub_self, List.getElem?_cons_zero, hl] at hg
  split at hg
  case isTrue  => exact hg.symm
  case isFalse => cases hg

theorem used_of_append (h : used a n = l ++ r) (hl : l.length = m) : used a m = l := by
  have hlen : (l ++ r).length ≤ n := h ▸ List.length_take_le n _
  rw [List.length_append] at hlen
  have ht : used a m = (used a n).take m := by rw [used, used, List.take_take, Nat.min_eq_left (by omega)]
  rw [ht, h, ← hl, List.take_left]

theorem used_succ (h : a[n + 1]? = some v) : used a (n + 1) = used a n ++ [v] := by
  rw [used, List.take_add_one, List.getElem?_drop, Nat.add_comm 1 n, Vector.getElem?_toList, h]
  rfl

theorem exists_write (h : i < MAX_NODE_KEY * 2 + 1) :
    ∃ a', write a i v = some a' ∧ ∀ j, a'[j]? = if j = i then some v else a[j]? := by
  refine ⟨a.set i v h, by rw [write, dif_pos h], fun j => ?_⟩
  rw [Vector.getElem?_set]
  split <;> split <;> first | rfl | omega

theorem exists_getElem (h : i < MAX_NODE_KEY * 2 + 1) (a : Slots α) : ∃ v, a[i]? = some v :=
  ⟨a[i], Vector.getElem?_eq_getElem h⟩

theorem exists_shift (h : i + k < MAX_NODE_KEY * 2 + 1) :
    ∃ a', shift a i k = some a' ∧ ∀ j, a'[j]? = if i < j ∧ j ≤ i + k then a[j - 1]? else a[j]? := by
  induction k generalizing a
  case zero => exact ⟨a, rfl, fun j => by rw [if_neg (by omega)]⟩
  case succ k hi =>
    obtain ⟨v, hv⟩ := exists_getElem (by omega : i + k < _) a
    obtain ⟨a₁, hw, h₁⟩ := exists_write (a := a) (v := v) (by omega : i + k + 1 < _)
    obtain ⟨a₂, hs, h₂⟩ := hi (a := a₁) (by omega)
    refine ⟨a₂, by simp [shift, hv, hw, hs], fun j => ?_⟩
    rw [h₂, h₁, h₁]
    grind

theorem exists_copy (hk : k < MAX_NODE_KEY * 2 + 1) (hd : k + d < MAX_NODE_KEY * 2 + 1) :
    ∃ b', copy a b d k = some b' ∧ ∀ j, b'[j]? = if 0 < j ∧ j ≤ k then a[j + d]? else b[j]? := by
  induction k
  case zero => exact ⟨b, rfl, fun j => by rw [if_neg (by omega)]⟩
  case succ k hi =>
    obtain ⟨b₁, hc, h₁⟩ := hi (by omega) (by omega)
    obtain ⟨v, hv⟩ := exists_getElem (by omega : k + 1 + d < _) a
    obtain ⟨b₂, hw, h₂⟩ := exists_write (a := b₁) (v := v) (by omega : k + 1 < _)
    refine ⟨b₂, by simp [copy, hc, hv, hw], fun j => ?_⟩
    rw [h₂, h₁]
    grind

-- A value is put between others.
theorem exists_insert (hu : used a n = l ++ r) (hn : n < MAX_NODE_KEY * 2) (hl : l.length + 1 = i) (hk : i + k = n + 1) :
    ∃ a₁ a', shift a i k = some a₁ ∧ write a₁ i v = some a' ∧ used a' (n + 1) = l ++ v :: r ∧ a'[0]? = a[0]? := by
  have hlen := length_used (a := a) (by omega : n ≤ _)
  rw [hu, List.length_append] at hlen
  obtain ⟨a₁, hs, h₁⟩ := exists_shift (a := a) (by omega : i + k < _)
  obtain ⟨a₂, hw, h₂⟩ := exists_write (a := a₁) (v := v) (by omega : i < _)
  refine ⟨a₁, a₂, hs, hw, List.ext_getElem? fun j => ?_, ?_⟩
  case refine_2 => rw [h₂, h₁, if_neg (by omega), if_neg (by omega)]
  case refine_1 =>
    have hj (j : Nat) : (l ++ r)[j]? = if j < n then a[j + 1]? else none := hu ▸ getElem?_used
    rw [getElem?_used, h₂, h₁]
    rcases lt_trichotomy j l.length with hlt | rfl | hgt
    case inl =>
      have hj := hj j
      rw [List.getElem?_append_left hlt, if_pos (by omega)] at hj
      rw [List.getElem?_append_left hlt, hj, if_pos (by omega), if_neg (by omega), if_neg (by omega)]
    case inr.inl => simp [hl, show l.length < n + 1 by omega]
    case inr.inr =>
      obtain ⟨m, rfl⟩ := Nat.exists_eq_add_of_lt hgt
      have hj := hj (l.length + m)
      rw [List.getElem?_append_right (by omega), Nat.add_sub_cancel_left] at hj
      have he : l.length + m + 1 - l.length = m + 1 := by omega
      rw [List.getElem?_append_right (by omega), he, List.getElem?_cons_succ, hj]
      by_cases hm : l.length + m < n
      case pos => rw [if_pos (by omega), if_neg (by omega), if_pos (by omega), if_pos hm, Nat.add_sub_cancel]
      case neg => rw [if_neg (by omega), if_neg hm]

theorem exists_copied (hu : used a n = l ++ r) (hn : n ≤ MAX_NODE_KEY * 2) (hd : l.length = d) (hk : r.length = k) :
    ∃ b', copy a b d k = some b' ∧ used b' k = r ∧ b'[0]? = b[0]? := by
  have hlen := length_used (a := a) hn
  rw [hu, List.length_append] at hlen
  obtain ⟨b', hc, hb⟩ := exists_copy (a := a) (b := b) (by omega : k < _) (by omega : k + d < _)
  refine ⟨b', hc, List.ext_getElem? fun j => ?_, by rw [hb, if_neg (by omega)]⟩
  have hj : (l ++ r)[l.length + j]? = _ := hu ▸ getElem?_used
  rw [List.getElem?_append_right (by omega), Nat.add_sub_cancel_left] at hj
  rw [getElem?_used, hb, hj]
  grind

theorem exists_lastNotGreater (key : Int32) {a : Slots Int32} (hn : n ≤ MAX_NODE_KEY * 2) :
    ∃ i l r, lastNotGreater a key n = some i ∧ used a n = l ++ r ∧ l.length = i ∧ (∀ k ∈ l.getLast?, k ≤ key) ∧ ∀ k ∈ r, key < k := by
  induction n
  case zero => exact ⟨0, [], [], rfl, rfl, rfl, by simp, by simp⟩
  case succ n hi =>
    obtain ⟨k, hk⟩ := exists_getElem (by omega : n + 1 < _) a
    by_cases hlt : key < k
    case pos =>
      obtain ⟨i, l, r, hs, hu, hl, hle, hr⟩ := hi (by omega)
      refine ⟨i, l, r ++ [k], by simp [lastNotGreater, hk, hlt, hs], by rw [used_succ hk, hu, List.append_assoc], hl, hle, ?_⟩
      simpa [or_imp, forall_and] using ⟨hr, hlt⟩
    case neg =>
      refine ⟨n + 1, used a (n + 1), [], by simp [lastNotGreater, hk, hlt], by simp, length_used hn, ?_, by simp⟩
      rw [used_succ hk]
      simpa using Int32.not_lt.mp hlt

theorem lastNotGreater_le {a : Slots Int32} (h : lastNotGreater a key n = some i) (hn : n ≤ MAX_NODE_KEY * 2) : i ≤ n := by
  obtain ⟨j, l, r, hs, hu, hl, _⟩ := exists_lastNotGreater key (a := a) hn
  cases h.symm.trans hs
  have hlen := length_used (a := a) hn
  rw [hu, List.length_append] at hlen
  omega

theorem lastNotGreater_congr {a a' : Slots Int32} (h : ∀ j ≤ n, a'[j]? = a[j]?) :
    lastNotGreater a' key n = lastNotGreater a key n := by
  induction n
  case zero      => rfl
  case succ n hi => rw [lastNotGreater, lastNotGreater, h _ (Nat.le_refl _), hi fun j hj => h j (by omega)]

theorem shiftGreater_eq {a : Slots Int32} (hn : n < MAX_NODE_KEY * 2) (hi : lastNotGreater a key n = some i) :
    shiftGreater a key n = (shift a (i + 1) (n - i)).map fun a => (a, i) := by
  induction n generalizing a
  case zero =>
    cases hi
    rfl
  case succ n hn' =>
    obtain ⟨k, hk⟩ := exists_getElem (by omega : n + 1 < _) a
    by_cases hlt : key < k
    case pos =>
      obtain ⟨a₁, hw, h₁⟩ := exists_write (a := a) (v := k) (by omega : n + 2 < _)
      have hs : lastNotGreater a key n = some i := by simpa [lastNotGreater, hk, hlt] using hi
      have h₁ (j : Nat) (hj : j ≤ n) : a₁[j]? = a[j]? := by rw [h₁, if_neg (by omega)]
      have hs₁ := (lastNotGreater_congr h₁).trans hs
      have hle := lastNotGreater_le hs (by omega)
      have he : i + 1 + (n - i) = n + 1 := by omega
      rw [shiftGreater, Nat.succ_sub hle, shift, he]
      simp [hk, hlt, hw, hn' (by omega) hs₁]
    case neg =>
      obtain rfl : n + 1 = i := by simpa [lastNotGreater, hk, hlt] using hi
      simp [shiftGreater, hk, hlt, shift]

theorem exists_firstNotLess_from (key : Int32) {a : Slots Int32} (hn : n ≤ MAX_NODE_KEY * 2) (hi : i + k = n) :
    ∃ l r, firstNotLess a key (i + 1) k = some (i + l.length + 1) ∧ used a n = used a i ++ (l ++ r) ∧
      (∀ k ∈ l, k < key) ∧ ∀ k ∈ r.head?, key ≤ k := by
  induction k generalizing i
  case zero =>
    obtain rfl := hi
    exact ⟨[], [], rfl, by simp, by simp, by simp⟩
  case succ k hk =>
    obtain ⟨v, hv⟩ := exists_getElem (by omega : i + 1 < _) a
    by_cases hlt : v < key
    case pos =>
      obtain ⟨l, r, hs, hu, hl, hr⟩ := hk (i := i + 1) (by omega)
      refine ⟨v :: l, r, ?_, ?_, by simpa using ⟨hlt, hl⟩, hr⟩
      case refine_1 =>
        have he : i + (v :: l).length + 1 = i + 1 + l.length + 1 := by
          rw [List.length_cons]
          omega
        rw [he, firstNotLess, hv]
        simp [hlt, hs]
      case refine_2 => rw [hu, used_succ hv, List.append_assoc, List.singleton_append, List.cons_append]
    case neg =>
      refine ⟨[], (used a n).drop i, by simp [firstNotLess, hv, hlt], ?_, by simp, ?_⟩
      case refine_1 =>
        have hl : ((used a n).take i).length = i := by rw [List.length_take, length_used hn, Nat.min_eq_left (by omega)]
        rw [used_of_append (List.take_append_drop i (used a n)).symm hl, List.nil_append, List.take_append_drop]
      case refine_2 =>
        rw [List.head?_drop, getElem?_used, if_pos (by omega), hv]
        simpa using Int32.not_lt.mp hlt

theorem exists_firstNotLess {a : Slots Int32} {key : Int32} (h₀ : ∀ k ∈ a[0]?, k < key) (hn : n ≤ MAX_NODE_KEY * 2) :
    ∃ l r, firstNotLess a key 0 (n + 1) = some (l.length + 1) ∧ used a n = l ++ r ∧ (∀ k ∈ l, k < key) ∧
      ∀ k ∈ r.head?, key ≤ k := by
  obtain ⟨v, hv⟩ := exists_getElem (Nat.succ_pos _) a
  obtain ⟨l, r, hs, hu, hl, hr⟩ := exists_firstNotLess_from key (a := a) hn (Nat.zero_add n)
  refine ⟨l, r, ?_, hu, hl, hr⟩
  rw [Nat.zero_add, Nat.zero_add] at hs
  rw [firstNotLess, hv]
  simp [h₀ v hv, hs]

end Algorithm.Slots
