import Mathlib.Data.UInt
import Mathlib.Tactic.SplitIfs
import LabSystems.Bytes.Basic

-- Numbers in decimal notation, and how C reads them.

namespace Bytes

def ofString (s : String) : Bytes :=
  s.toList.map Char.toUInt8

def isDigit (b : UInt8) : Bool :=
  48 ≤ b.toNat && b.toNat ≤ 57

def isSpace (b : UInt8) : Bool :=
  b.toNat = 32 || 9 ≤ b.toNat && b.toNat ≤ 13

def decimal (n : Nat) : Bytes :=
  Nat.toDigits 10 n |>.map Char.toUInt8

def signed (n : Int) : Bytes :=
  if n < 0 then 45 :: decimal n.natAbs else decimal n.natAbs

def ofDigits (bs : Bytes) : Nat :=
  bs.foldl (fun n b => 10 * n + (b.toNat - 48)) 0

-- The integer that a string starts with, after white space and a sign, or zero.
def toInt (bs : Bytes) : Int :=
  match bs.dropWhile isSpace with
  | 43 :: bs => ofDigits <| bs.takeWhile isDigit
  | 45 :: bs => -(ofDigits <| bs.takeWhile isDigit)
  | bs       => ofDigits <| bs.takeWhile isDigit

-- What does not fit is as near to it as possible.
def strtol (bs : Bytes) : Int64 :=
  .ofInt <| max (-2 ^ 63) <| min (toInt bs) (2 ^ 63 - 1)

-- A negative number wraps around.
def strtoull (bs : Bytes) : UInt64 :=
  if (toInt bs).natAbs < 2 ^ 64 then .ofInt <| toInt bs else 2 ^ 64 - 1

theorem toNat_toUInt8 {c : Char} (h : c.isDigit) : c.toUInt8.toNat = c.toNat := by
  simp only [Char.isDigit, Char.toUInt8, ge_iff_le, Bool.and_eq_true, decide_eq_true_eq] at h ⊢
  have hl := UInt32.le_iff_toNat_le.mp h.right
  simp only [UInt32.toNat_toUInt8, Char.toNat]
  exact Nat.mod_eq_of_lt <| hl.trans_lt (by decide)

theorem isDigit_of_mem_decimal (h : b ∈ decimal n) : isDigit b := by
  have ⟨c, hc, he⟩ := List.mem_map.mp h
  have hd := Nat.isDigit_of_mem_toDigits (by omega) (le_refl 10) hc
  have ht := toNat_toUInt8 hd
  simp only [Char.isDigit, ge_iff_le, Bool.and_eq_true, decide_eq_true_eq, UInt32.le_iff_toNat_le] at hd
  simp only [isDigit, ← he, ht, Bool.and_eq_true, decide_eq_true_eq]
  exact hd

theorem decimal_ne_nil : decimal n ≠ [] := by
  simp [decimal, Nat.toDigits_ne_nil]

theorem length_decimal_le (h : 0 < k) : (decimal n).length ≤ k ↔ n < 10 ^ k := by
  rw [decimal, List.length_map, Nat.length_toDigits_le_iff (by omega) h]

@[simp]
theorem ofDigits_decimal : ofDigits (decimal n) = n := by
  have hd : ∀ c ∈ Nat.toDigits 10 n, c.isDigit :=
    fun c hc => Nat.isDigit_of_mem_toDigits (by omega) (le_refl 10) hc
  rw [ofDigits, decimal, List.foldl_map]
  refine .trans ?_ <| Nat.ofDigitChars_ten_toDigits (n := n)
  rw [Nat.ofDigitChars_eq_foldl]
  refine List.foldl_ext _ _ _ fun m c hc => ?_
  rw [toNat_toUInt8 (hd c hc)]
  rfl

theorem not_isSpace_of_isDigit (h : isDigit b) : isSpace b = false := by
  simp only [isDigit, isSpace, Bool.and_eq_true, decide_eq_true_eq, Bool.or_eq_false_iff,
    Bool.and_eq_false_iff, decide_eq_false_iff_not] at h ⊢
  omega

-- A number is read up to the first byte that is not a digit.
theorem takeWhile_decimal (h : ∀ b ∈ bs.head?, isDigit b = false) :
    (decimal n ++ bs).takeWhile isDigit = decimal n := by
  rw [List.takeWhile_append_of_pos fun b => isDigit_of_mem_decimal]
  cases bs
  case nil => simp
  case cons b bs => simp [h b rfl]

theorem toInt_decimal (h : ∀ b ∈ bs.head?, isDigit b = false) : toInt (decimal n ++ bs) = n := by
  have ht := takeWhile_decimal (n := n) h
  cases hd : decimal n
  case nil => exact absurd hd decimal_ne_nil
  case cons d ds =>
    have hm : isDigit d := isDigit_of_mem_decimal <| hd ▸ List.mem_cons_self
    rw [hd, List.cons_append] at ht
    have hs : (d :: (ds ++ bs)).dropWhile isSpace = d :: (ds ++ bs) := by
      simp [not_isSpace_of_isDigit hm]
    rw [List.cons_append, toInt, hs]
    split
    case h_1 h =>
      cases h
      cases hm
    case h_2 h =>
      cases h
      cases hm
    case h_3 => rw [ht, ← hd, ofDigits_decimal]

theorem strtol_decimal (hn : n < 2 ^ 63) (h : ∀ b ∈ bs.head?, isDigit b = false) :
    (strtol (decimal n ++ bs)).toInt = n := by
  rw [strtol, toInt_decimal h, Int64.toInt_ofInt_of_le]
  all_goals omega

theorem strtoull_decimal (h : ∀ b ∈ bs.head?, isDigit b = false) {n : UInt64} :
    strtoull (decimal n.toNat ++ bs) = n := by
  have hn := n.toNat_lt
  have hm : (n.toNat : Int) % 2 ^ 64 = n.toNat := by omega
  rw [strtoull, toInt_decimal h, if_pos (by omega), UInt64.ofInt, hm, Int.toNat_natCast, UInt64.ofNat_toNat]

theorem decimal_inj (h : decimal n = decimal m) : n = m := by
  rw [← ofDigits_decimal (n := n), h, ofDigits_decimal]

theorem signed_inj (h : signed n = signed m) : n = m := by
  have hd {k l} (h : 45 :: decimal k = decimal l) : False := by
    have := isDigit_of_mem_decimal (h ▸ List.mem_cons_self : 45 ∈ decimal l)
    cases this
  unfold signed at h
  split at h <;> split at h
  case isTrue.isTrue =>
    have := decimal_inj (List.cons.inj h).right
    omega
  case isTrue.isFalse   => exact (hd h).elim
  case isFalse.isTrue   => exact (hd h.symm).elim
  case isFalse.isFalse =>
    have := decimal_inj h
    omega

end Bytes
