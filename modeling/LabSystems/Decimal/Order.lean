import Mathlib.Data.Nat.Digits.Defs
import Mathlib.Data.String.Basic

-- How numbers compare as strings, when they are printed without leading zeros.

namespace Decimal

theorem toNat_of_isDigit {c : Char} (h : c.isDigit) : 48 ≤ c.toNat ∧ c.toNat ≤ 57 := by
  simp only [Char.isDigit, ge_iff_le, Bool.and_eq_true, decide_eq_true_eq, UInt32.le_iff_toNat_le] at h
  exact h

theorem char_lt_iff {c d : Char} : c < d ↔ c.toNat < d.toNat :=
  UInt32.lt_iff_toNat_lt

def value (l : List Char) (n : Nat) : Nat :=
  Nat.ofDigitChars 10 l n

theorem value_cons : value (c :: l) n = value l (10 * n + (c.toNat - 48)) := by
  simp only [value, Nat.ofDigitChars_eq_foldl]
  rfl

theorem value_nil : value [] n = n := by
  simp [value, Nat.ofDigitChars_eq_foldl]

-- Numbers of the same length are in the order of their digits.
theorem value_lt_iff (hd : ∀ c ∈ l, c.isDigit) (hd' : ∀ c ∈ l', c.isDigit) (h : l.length = l'.length) :
    value l m < value l' n ↔ m < n ∨ m = n ∧ l < l' := by
  induction l generalizing l' m n
  case nil =>
    cases l'
    case nil  => simp [value_nil]
    case cons => cases h
  case cons c l hi =>
    cases l'
    case nil         => cases h
    case cons c' l' =>
      have ⟨hc, hd⟩ := List.forall_mem_cons.mp hd
      have ⟨hc', hd'⟩ := List.forall_mem_cons.mp hd'
      have hn := toNat_of_isDigit hc
      have hn' := toNat_of_isDigit hc'
      rw [value_cons, value_cons, hi hd hd' (Nat.succ.inj h), List.cons_lt_cons_iff, char_lt_iff, ← Char.toNat_inj]
      by_cases hl : l < l'
      all_goals
        simp only [hl, and_true, and_false, or_false]
        omega

theorem value_add : value l (m + n) = m * 10 ^ l.length + value l n := by
  induction l generalizing m n
  case nil          => simp [value_nil]
  case cons c l hi =>
    have he : 10 * (m + n) + (c.toNat - 48) = 10 * m + (10 * n + (c.toNat - 48)) := by omega
    rw [value_cons, he, hi, value_cons, List.length_cons, Nat.pow_succ]
    ring

theorem value_append : value (l ++ l') 0 = value l 0 * 10 ^ l'.length + value l' 0 := by
  have ha : value (l ++ l') 0 = value l' (value l 0) := by
    simp only [value, Nat.ofDigitChars_eq_foldl, List.foldl_append]
  rw [ha, ← value_add, Nat.add_zero]

theorem value_lt (hd : ∀ c ∈ l, c.isDigit) : value l n < (n + 1) * 10 ^ l.length := by
  induction l generalizing n
  case nil          => simp [value_nil]
  case cons c l hi =>
    have ⟨hc, hd⟩ := List.forall_mem_cons.mp hd
    have hn := toNat_of_isDigit hc
    calc value (c :: l) n
      _ = value l (10 * n + (c.toNat - 48))                 := value_cons
      _ < (10 * n + (c.toNat - 48) + 1) * 10 ^ l.length     := hi hd
      _ ≤ (10 * (n + 1)) * 10 ^ l.length                    := Nat.mul_le_mul_right _ (by omega)
      _ = (n + 1) * 10 ^ (c :: l).length                    := by rw [List.length_cons, Nat.pow_succ]; ring

theorem append_lt_append_iff {l l' r r' : List Char} (h : l.length = l'.length) :
    l ++ r < l' ++ r' ↔ l < l' ∨ l = l' ∧ r < r' := by
  induction l generalizing l'
  case nil =>
    cases l'
    case nil  => simp
    case cons => cases h
  case cons c l hi =>
    cases l'
    case nil        => cases h
    case cons c' l' =>
      simp only [List.cons_append, List.cons_lt_cons_iff, hi (Nat.succ.inj h), List.cons.injEq]
      tauto

theorem isDigit_of_mem (h : c ∈ Nat.toDigits 10 n) : c.isDigit :=
  Nat.isDigit_of_mem_toDigits (by omega) (le_refl 10) h

@[simp]
theorem value_toDigits : value (Nat.toDigits 10 n) 0 = n :=
  Nat.ofDigitChars_ten_toDigits

theorem length_toDigits_le (h : m ≤ n) : (Nat.toDigits 10 m).length ≤ (Nat.toDigits 10 n).length := by
  have hpos : 0 < (Nat.toDigits 10 n).length := List.length_pos_iff.mpr Nat.toDigits_ne_nil
  refine (Nat.length_toDigits_le_iff (by omega) hpos).mpr ?_
  exact h.trans_lt <| (Nat.length_toDigits_le_iff (by omega) hpos).mp (le_refl _)

-- The leading digits of a number.
theorem value_eq_div (h : ∀ c ∈ l', c.isDigit) : value l 0 = value (l ++ l') 0 / 10 ^ l'.length := by
  have hlt : value l' 0 < 10 ^ l'.length := by simpa using value_lt h (n := 0)
  rw [value_append, Nat.add_comm, Nat.add_mul_div_right _ _ (Nat.pow_pos (by omega)), Nat.div_eq_of_lt hlt,
    Nat.zero_add]

theorem le_iff_value_le (hd : ∀ c ∈ l, c.isDigit) (hd' : ∀ c ∈ l', c.isDigit) (h : l.length = l'.length) :
    l ≤ l' ↔ value l 0 ≤ value l' 0 := by
  have hlt := value_lt_iff hd' hd h.symm (m := 0) (n := 0)
  simp only [lt_irrefl, false_or, true_and] at hlt
  rw [← not_lt, ← hlt, not_lt]

-- The separator is less than a digit.
theorem append_lt_iff {l l' l'' : List Char} {sep : Char} (r r' : List Char) (hd : ∀ c ∈ l, c.isDigit)
    (hd' : ∀ c ∈ l', c.isDigit) (hd'' : ∀ c ∈ l'', c.isDigit) (h : l.length = l'.length) (hlt : value l 0 < value (l' ++ l'') 0)
    (hs : sep.toNat < 48) : l ++ sep :: r < l' ++ (l'' ++ sep :: r') ↔ value l 0 ≤ value l' 0 := by
  rw [append_lt_append_iff h, ← le_iff_value_le hd hd' h, le_iff_lt_or_eq]
  refine or_congr_right <| and_iff_left_of_imp fun he => ?_
  cases l''
  case nil          => simp [he] at hlt
  case cons c l'' =>
    have hc := toNat_of_isDigit <| hd'' c List.mem_cons_self
    exact List.cons_lt_cons_iff.mpr <| .inl <| char_lt_iff.mpr <| by omega

-- A number compares with the leading digits of a larger one.
theorem toDigits_lt_iff {m n : Nat} {sep : Char} {r r' : List Char} (h : m < n) (hs : sep.toNat < 48) :
    Nat.toDigits 10 m ++ sep :: r < Nat.toDigits 10 n ++ sep :: r' ↔
      m ≤ n / 10 ^ ((Nat.toDigits 10 n).length - (Nat.toDigits 10 m).length) := by
  have hle := length_toDigits_le h.le
  have happ := List.take_append_drop (Nat.toDigits 10 m).length (Nat.toDigits 10 n)
  have hlen : (Nat.toDigits 10 m).length = ((Nat.toDigits 10 n).take (Nat.toDigits 10 m).length).length := by
    rw [List.length_take, Nat.min_eq_left hle]
  have hdrop : ∀ c ∈ (Nat.toDigits 10 n).drop (Nat.toDigits 10 m).length, c.isDigit :=
    fun c hc => isDigit_of_mem <| List.mem_of_mem_drop hc
  have hv := value_eq_div (l := (Nat.toDigits 10 n).take (Nat.toDigits 10 m).length) hdrop
  have hiff := append_lt_iff r r' (fun c => isDigit_of_mem)
    (fun c hc => isDigit_of_mem <| List.mem_of_mem_take hc) hdrop hlen (by simpa [happ] using h) hs
  rw [← List.append_assoc, happ, hv, happ, value_toDigits, value_toDigits, List.length_drop] at hiff
  exact hiff

end Decimal
