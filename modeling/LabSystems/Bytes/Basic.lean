import Mathlib.Data.List.Lex
import Mathlib.Data.Nat.Bitwise
import Mathlib.Tactic.IntervalCases

-- Byte strings, which are compared like `memcmp` does: byte by byte, and then by length.
abbrev Bytes :=
  List UInt8

instance instLinearOrderUInt8 : LinearOrder UInt8 where
  le_refl             := UInt8.le_refl
  le_trans _ _ _      := UInt8.le_trans
  le_antisymm _ _     := UInt8.le_antisymm
  le_total            := UInt8.le_total
  lt_iff_le_not_ge a b := by
    simp only [UInt8.lt_iff_toNat_lt, UInt8.le_iff_toNat_le]
    omega
  toDecidableLE       := inferInstance
  toDecidableLT       := inferInstance
  toDecidableEq       := inferInstance

instance instLinearOrderUInt64 : LinearOrder UInt64 where
  le_refl             := UInt64.le_refl
  le_trans _ _ _      := UInt64.le_trans
  le_antisymm _ _     := UInt64.le_antisymm
  le_total            := UInt64.le_total
  lt_iff_le_not_ge a b := by
    simp only [UInt64.lt_iff_toNat_lt, UInt64.le_iff_toNat_le]
    omega
  toDecidableLE       := inferInstance
  toDecidableLT       := inferInstance
  toDecidableEq       := inferInstance

namespace List

-- The first separator determines what is before it.
theorem eq_of_append_cons {l l' r r' : List α} {c : α} (hl : c ∉ l) (hl' : c ∉ l') (h : l ++ c :: r = l' ++ c :: r') :
    l = l' ∧ r = r' := by
  induction l generalizing l'
  case nil =>
    cases l'
    case nil       => exact ⟨rfl, (cons.inj h).right⟩
    case cons d l' => exact absurd (cons.inj h).left <| ne_of_not_mem_cons hl'
  case cons d l hi =>
    cases l'
    case nil        => exact absurd (cons.inj h).left.symm <| ne_of_not_mem_cons hl
    case cons d' l' =>
      have ⟨hd, ht⟩ := cons.inj h
      have ⟨hl, hr⟩ := hi (not_mem_of_not_mem_cons hl) (not_mem_of_not_mem_cons hl') ht
      exact ⟨hd ▸ hl ▸ rfl, hr⟩

end List

namespace UInt64

variable {n m : UInt64}

theorem one_le_iff : 1 ≤ n ↔ n ≠ 0 := by
  rw [le_iff_toNat_le, ne_eq, ← UInt64.toNat_inj]
  simp only [reduceToNat]
  omega

theorem toNat_add_one (h : n ≠ 0xffffffffffffffff) : (n + 1).toNat = n.toNat + 1 := by
  have hn := mt UInt64.toNat_inj.mp h
  have hl := n.toNat_lt
  rw [UInt64.toNat_add]
  simp only [reduceToNat] at hn ⊢
  omega

theorem add_one_le_of_lt (h : n < m) : n + 1 ≤ m := by
  have hn : n ≠ 0xffffffffffffffff := by
    rintro rfl
    have hm := m.toNat_lt
    rw [lt_iff_toNat_lt] at h
    simp only [reduceToNat] at h
    omega
  rwa [le_iff_toNat_le, toNat_add_one hn, Nat.add_one_le_iff, ← lt_iff_toNat_lt]

theorem le_add_one_iff (h : n ≠ 0xffffffffffffffff) : m ≤ n + 1 ↔ m = n + 1 ∨ m ≤ n := by
  rw [le_iff_toNat_le, le_iff_toNat_le, ← UInt64.toNat_inj, toNat_add_one h]
  omega

end UInt64

namespace Bytes

-- The bytes of a number in memory, where the least significant byte comes first.
def ofNat : Nat → Nat → Bytes
  | 0, _     => []
  | w + 1, n => n.toUInt8 :: ofNat w (n / 256)

def toNat : Bytes → Nat
  | []      => 0
  | b :: bs => b.toNat + 256 * toNat bs

@[simp]
theorem length_ofNat : (ofNat w n).length = w := by
  induction w generalizing n
  case zero      => rfl
  case succ w hi => simp [ofNat, hi]

theorem toNat_ofNat : toNat (ofNat w n) = n % 256 ^ w := by
  induction w generalizing n
  case zero => simp [ofNat, toNat, Nat.mod_one]
  case succ w hi =>
    rw [ofNat, toNat, hi, pow_succ', Nat.mod_mul]
    simp

theorem toNat_lt (bs : Bytes) : toNat bs < 256 ^ bs.length := by
  induction bs
  case nil => simp [toNat]
  case cons b bs hi =>
    have := b.toNat_lt
    rw [toNat, List.length_cons, pow_succ']
    omega

theorem ofNat_toNat (bs : Bytes) : ofNat bs.length (toNat bs) = bs := by
  induction bs
  case nil => rfl
  case cons b bs hi =>
    have hd : (b.toNat + 256 * toNat bs) / 256 = toNat bs := by
      have := b.toNat_lt
      omega
    simp only [List.length_cons, ofNat, toNat, hd, hi, List.cons.injEq, and_true]
    apply UInt8.toNat_inj.mp
    have := b.toNat_lt
    simp only [Nat.toUInt8_eq, UInt8.toNat_ofNat']
    omega

theorem ofNat_injOn (hn : n < 256 ^ w) (hm : m < 256 ^ w) (h : ofNat w n = ofNat w m) : n = m := by
  have h := congrArg toNat h
  rwa [toNat_ofNat, toNat_ofNat, Nat.mod_eq_of_lt hn, Nat.mod_eq_of_lt hm] at h

theorem getElem_ofNat (h : i < (ofNat w n).length) : (ofNat w n)[i] = (n / 256 ^ i).toUInt8 := by
  induction w generalizing n i
  case zero => simp at h
  case succ w hi =>
    cases i
    case zero => simp [ofNat]
    case succ i =>
      simp only [ofNat, List.getElem_cons_succ]
      rw [hi, Nat.div_div_eq_div_mul, pow_succ']

-- Strings of the same length are compared by their last bytes if everything before is the same.
theorem append_singleton_lt {s t : Bytes} {a b : UInt8} (h : s.length = t.length) :
    s ++ [a] < t ++ [b] ↔ s < t ∨ s = t ∧ a < b := by
  induction s generalizing t
  case nil =>
    have ht : t = [] := List.length_eq_zero_iff.mp h.symm
    simp [ht, List.cons_lt_cons_iff]
  case cons c s hi =>
    cases t
    case nil => simp at h
    case cons d t =>
      rw [List.cons_append, List.cons_append, List.cons_lt_cons_iff, List.cons_lt_cons_iff,
        hi (by simpa using h), List.cons.injEq]
      tauto

-- In the reverse order, the bytes of numbers are compared like the numbers.
theorem reverse_ofNat_lt (hn : n < 256 ^ w) (hm : m < 256 ^ w) :
    (ofNat w n).reverse < (ofNat w m).reverse ↔ n < m := by
  induction w generalizing n m
  case zero =>
    have hn : n = 0 := by simpa using hn
    have hm : m = 0 := by simpa using hm
    simp [hn, hm, ofNat]
  case succ w hi =>
    have hn' : n / 256 < 256 ^ w := Nat.div_lt_of_lt_mul <| by rwa [pow_succ'] at hn
    have hm' : m / 256 < 256 ^ w := Nat.div_lt_of_lt_mul <| by rwa [pow_succ'] at hm
    rw [ofNat, ofNat, List.reverse_cons, List.reverse_cons, append_singleton_lt (by simp), hi hn' hm',
      List.reverse_inj, UInt8.lt_iff_toNat_lt]
    have he : ofNat w (n / 256) = ofNat w (m / 256) ↔ n / 256 = m / 256 :=
      ⟨ofNat_injOn hn' hm', fun h => h ▸ rfl⟩
    rw [he]
    simp only [Nat.toUInt8_eq, UInt8.toNat_ofNat']
    omega

end Bytes
