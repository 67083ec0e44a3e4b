import Mathlib.Data.List.Induction
import Mathlib.Data.List.TakeWhile
import LabSystems.Bytes.Decimal

-- How far the integer extends that a string starts with.

namespace Bytes

-- The sign, and the string from the first digit on.
def afterSign (bs : Bytes) : Int × Bytes :=
  match bs.dropWhile isSpace with
  | 43 :: bs => (1, bs)
  | 45 :: bs => (-1, bs)
  | bs       => (1, bs)

-- The string after the last digit.
def afterInt (bs : Bytes) : Bytes :=
  (afterSign bs).2.dropWhile isDigit

variable {bs s : Bytes} {p : UInt8 → Bool}

theorem toInt_eq : toInt bs = (afterSign bs).1 * ofDigits ((afterSign bs).2.takeWhile isDigit) := by
  unfold toInt afterSign
  split
  case h_1 he    => simp_all
  case h_2 he    => simp_all
  case h_3 h₁ h₂ => simp_all

theorem sign_cases (bs : Bytes) : (afterSign bs).1 = 1 ∨ (afterSign bs).1 = -1 := by
  unfold afterSign
  split <;> simp

theorem afterSign_append (h : bs.dropWhile isSpace ≠ []) :
    afterSign (bs ++ s) = ((afterSign bs).1, (afterSign bs).2 ++ s) := by
  unfold afterSign
  rw [List.dropWhile_append, if_neg <| by simpa using h]
  rcases hd : bs.dropWhile isSpace with _ | ⟨c, r⟩
  case nil  => exact absurd hd h
  case cons =>
    rw [List.cons_append]
    split
    case h_1 he =>
      have ⟨hc, hr⟩ := List.cons.inj he
      subst hc hr
      rfl
    case h_2 he =>
      have ⟨hc, hr⟩ := List.cons.inj he
      subst hc hr
      rfl
    case h_3 h₁ h₂ =>
      split
      case h_1 he => exact absurd (congrArg (· :: (r ++ s)) (List.cons.inj he).left) (h₁ _)
      case h_2 he => exact absurd (congrArg (· :: (r ++ s)) (List.cons.inj he).left) (h₂ _)
      case h_3    => rfl

-- White space is skipped.
theorem afterSign_space (h : ∀ b ∈ bs, isSpace b) : afterSign (bs ++ s) = afterSign s := by
  rw [afterSign, List.dropWhile_append_of_pos h, afterSign]

theorem afterSign_digits (h : ∀ b ∈ s, isDigit b) : afterSign s = (1, s) := by
  cases s
  case nil      => rfl
  case cons c s =>
    have hc := h c List.mem_cons_self
    rw [afterSign, List.dropWhile_cons_of_neg <| by simp [not_isSpace_of_isDigit hc]]
    split
    case h_1 he => exact absurd ((List.cons.inj he).left ▸ hc) (by decide)
    case h_2 he => exact absurd ((List.cons.inj he).left ▸ hc) (by decide)
    case h_3    => rfl

theorem takeWhile_append_of_dropWhile (h : bs.dropWhile p ≠ []) : (bs ++ s).takeWhile p = bs.takeWhile p := by
  induction bs
  case nil          => exact absurd rfl h
  case cons b bs hi =>
    rw [List.cons_append, List.takeWhile_cons, List.takeWhile_cons]
    split
    case isTrue hb  => rw [hi (by rwa [List.dropWhile_cons_of_pos hb] at h)]
    case isFalse    => rfl

-- An integer that ends in a string does not depend on what is after the string.
theorem toInt_append (h : afterInt bs ≠ []) : toInt (bs ++ s) = toInt bs := by
  have hs : bs.dropWhile isSpace ≠ [] := by
    intro hs
    rw [afterInt, afterSign, hs] at h
    exact h rfl
  rw [toInt_eq, toInt_eq, afterSign_append hs, takeWhile_append_of_dropWhile h]

theorem strtol_append (h : afterInt bs ≠ []) : strtol (bs ++ s) = strtol bs := by
  rw [strtol, toInt_append h, strtol]

theorem ofDigits_append : ofDigits (bs ++ s) = ofDigits bs * 10 ^ s.length + ofDigits s := by
  unfold ofDigits
  rw [List.foldl_append]
  generalize List.foldl (fun n (b : UInt8) => 10 * n + (b.toNat - 48)) 0 bs = n
  induction s using List.reverseRecOn
  case nil => simp
  case append_singleton s b hi =>
    rw [List.foldl_append, List.foldl_append, hi]
    simp only [List.foldl_cons, List.foldl_nil, List.length_append, List.length_singleton, pow_succ]
    rw [← Nat.mul_assoc]
    omega

-- An integer that extends to the end of a string goes on with the digits that are after the string.
theorem toInt_append_digits (h : afterInt bs = []) (hs : ∀ b ∈ s, isDigit b) :
    toInt (bs ++ s) = (afterSign bs).1 * ((toInt bs).natAbs * 10 ^ s.length + ofDigits s : Nat) := by
  have hd : ∀ b ∈ (afterSign bs).2, isDigit b := List.dropWhile_eq_nil_iff.mp h
  have hn : (toInt bs).natAbs = ofDigits (afterSign bs).2 := by
    rw [toInt_eq, List.takeWhile_eq_self_iff.mpr hd, Int.natAbs_mul]
    rcases sign_cases bs with hk | hk
    all_goals simp [hk]
  rw [hn, ← ofDigits_append, toInt_eq]
  by_cases hb : bs.dropWhile isSpace = []
  case pos =>
    have he : afterSign bs = (1, []) := by rw [afterSign, hb]
    rw [afterSign_space <| List.dropWhile_eq_nil_iff.mp hb, afterSign_digits hs, he,
      List.takeWhile_eq_self_iff.mpr hs, List.nil_append]
  case neg =>
    have ha : ∀ b ∈ (afterSign bs).2 ++ s, isDigit b := fun b hb => (List.mem_append.mp hb).elim (hd b) (hs b)
    rw [afterSign_append hb, List.takeWhile_eq_self_iff.mpr ha]

end Bytes
