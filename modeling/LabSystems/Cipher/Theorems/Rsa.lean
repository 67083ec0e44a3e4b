import LabSystems.Cipher.Rsa
import Mathlib.FieldTheory.Finite.Basic
import Mathlib.Data.Int.GCD
import Mathlib.Tactic.Ring
import Mathlib.Tactic.Linarith
import Mathlib.Tactic.NormNum.Prime

namespace Cipher

open Words

-- The invariant of the extended Euclidean algorithm. The coefficients have opposite signs, which bounds
-- their sizes.
structure Euclid (u v : Int) (u1 v1 u3 v3 : Int) : Prop where
  rest     : 0 ≤ v3
  pos      : 0 < u3
  left     : u1 * u ≡ u3 [ZMOD v]
  right    : v1 * u ≡ v3 [ZMOD v]
  gcd      : Int.gcd u3 v3 = Int.gcd u v
  size     : |u1| * v3 + |v1| * u3 = v
  opposite : 0 ≤ u1 ∧ v1 ≤ 0 ∨ u1 ≤ 0 ∧ 0 ≤ v1
  small    : |u1| ≤ v

namespace Euclid

variable {u v u1 v1 u3 v3 : Int}

theorem init (hu : 0 < u) (hv : 0 < v) : Euclid u v 1 0 u v where
  rest     := hv.le
  pos      := hu
  left     := by simp
  right    := by simp [Int.ModEq]
  gcd      := rfl
  size     := by simp
  opposite := .inl ⟨by decide, le_rfl⟩
  small    := by simpa using Int.add_one_le_of_lt hv

theorem right_le (h : Euclid u v u1 v1 u3 v3) : |v1| * u3 ≤ v := by
  have := mul_nonneg (abs_nonneg u1) h.rest
  linarith [h.size]

theorem coefficient_le (h : Euclid u v u1 v1 u3 v3) : |v1| ≤ v :=
  (le_mul_of_one_le_right (abs_nonneg v1) <| Int.add_one_le_of_lt h.pos).trans h.right_le

theorem next (h : Euclid u v u1 v1 u3 v3) (hp : 0 < v3) :
    Euclid u v v1 (u1 - v1 * (u3 / v3)) v3 (u3 - v3 * (u3 / v3)) := by
  have hq : 0 ≤ u3 / v3 := Int.ediv_nonneg h.pos.le hp.le
  have hr : u3 - v3 * (u3 / v3) = u3 % v3 := (Int.emod_def u3 v3).symm
  have habs : |u1 - v1 * (u3 / v3)| = |u1| + |v1| * (u3 / v3) := by
    rcases h.opposite with ⟨h₁, h₂⟩ | ⟨h₁, h₂⟩
    case inl =>
      rw [abs_of_nonneg h₁, abs_of_nonpos h₂, abs_of_nonneg <| by nlinarith]
      ring
    case inr =>
      rw [abs_of_nonpos h₁, abs_of_nonneg h₂, abs_of_nonpos <| by nlinarith]
      ring
  constructor
  case rest  => exact hr ▸ Int.emod_nonneg u3 hp.ne'
  case pos   => exact hp
  case left  => exact h.right
  case right =>
    have := h.left.sub <| h.right.mul_right (u3 / v3)
    rwa [mul_right_comm, ← sub_mul] at this
  case gcd   => rw [hr, ← h.gcd, Int.gcd_comm v3, Int.gcd_emod]
  case size  =>
    rw [habs, ← h.size]
    ring
  case opposite =>
    rcases h.opposite with ⟨h₁, h₂⟩ | ⟨h₁, h₂⟩
    case inl => exact .inr ⟨h₂, by nlinarith⟩
    case inr => exact .inl ⟨h₂, by nlinarith⟩
  case small => exact h.coefficient_le

end Euclid

variable {fuel : Nat} {u v c x n z : Int64}

-- No product is greater than the numbers with which the algorithm begins.
theorem returns_euclid {u1 v1 u3 v3 : Int64} (h : Euclid u.toInt v.toInt u1.toInt v1.toInt u3.toInt v3.toInt)
    (hf : v3.toInt.toNat < fuel) : Returns (euclid fuel u1 v1 u3 v3) fun r =>
      r.toInt * u.toInt ≡ Int.gcd u.toInt v.toInt [ZMOD v.toInt] ∧ |r.toInt| ≤ v.toInt := by
  induction fuel generalizing u1 v1 u3 v3
  case zero => contradiction
  case succ fuel hi =>
    simp only [euclid]
    split
    case isTrue hle =>
      have hz : v3.toInt = 0 := by
        have := Int64.le_iff_toInt_le.mp hle
        have := h.rest
        simp at *
        omega
      have hg : (Int.gcd u.toInt v.toInt : Int) = u3.toInt := by
        rw [← h.gcd, hz, Int.gcd_zero_right, Int.natCast_natAbs, abs_of_pos h.pos]
      exact .pure ⟨hg ▸ h.left, h.small⟩
    case isFalse hlt =>
      have hp : 0 < v3.toInt := by
        have := Int64.lt_iff_toInt_lt.mp <| Int64.not_le.mp hlt
        simpa using this
      have hn := h.next hp
      refine (Returns.quo h.pos.le hp).bind fun q hq => ?_
      have hq0 : 0 ≤ q.toInt := hq ▸ Int.ediv_nonneg h.pos.le hp.le
      have hq3 : q.toInt ≤ u3.toInt := hq ▸ Int.ediv_le_self _ h.pos.le
      have ha : |v1.toInt * q.toInt| ≤ v.toInt := by
        rw [abs_mul, abs_of_nonneg hq0]
        exact (mul_le_mul_of_nonneg_left hq3 <| abs_nonneg _).trans h.right_le
      refine (Returns.mul <| fits_of_abs_le ha).bind fun a ha => ?_
      have hb : |v3.toInt * q.toInt| ≤ u3.toInt := by
        rw [abs_of_nonneg <| mul_nonneg hp.le hq0, hq]
        exact Int.mul_ediv_self_le hp.ne'
      refine (Returns.mul <| fits_of_abs_le hb).bind fun b hb => ?_
      rw [← hq] at hn
      rw [← ha, ← hb] at hn
      have hu : (u1 - a).toInt = u1.toInt - a.toInt := toInt_sub <| fits_of_abs_le hn.coefficient_le
      have hmod : u3.toInt - b.toInt = u3.toInt % v3.toInt := by rw [hb, hq, Int.emod_def]
      have hlt : u3.toInt - b.toInt < v3.toInt := hmod ▸ Int.emod_lt_of_pos _ hp
      have hw : (u3 - b).toInt = u3.toInt - b.toInt := toInt_sub <| fits_of_abs_le (a := v3) <| by
        rw [abs_of_nonneg hn.rest]
        exact hlt.le
      exact hi (hu ▸ hw ▸ hn) <| by omega

theorem returns_makePositive {u1 : Int64} (h : |u1.toInt| ≤ v.toInt) :
    Returns (makePositive (fuel + 2) u1 v) fun r =>
      0 ≤ r.toInt ∧ r.toInt ≤ v.toInt ∧ r.toInt ≡ u1.toInt [ZMOD v.toInt] := by
  have hle := abs_le.mp h
  simp only [makePositive, Int64.lt_iff_toInt_lt, Int64.toInt_zero]
  split
  case isFalse hn => exact .pure ⟨not_lt.mp hn, hle.right, rfl⟩
  case isTrue hn =>
    have hadd : (u1 + v).toInt = u1.toInt + v.toInt :=
      toInt_add <| fits_of_abs_le (a := v) <| abs_le.mpr ⟨by omega, by omega⟩
    rw [if_neg (by omega)]
    exact .pure ⟨by omega, by omega, by simp [hadd, Int.ModEq]⟩

-- The coefficient of `u` is its inverse.
theorem returns_inverse (hu : 0 < u.toInt) (hv : 0 < v.toInt) (hg : Int.gcd u.toInt v.toInt = 1)
    (hf : v.toInt.toNat + 1 < fuel) : Returns (inverse fuel u v) fun d =>
      0 ≤ d.toInt ∧ d.toInt ≤ v.toInt ∧ d.toInt * u.toInt ≡ 1 [ZMOD v.toInt] := by
  have h := @returns_euclid fuel u v 1 0 u v (.init hu hv) (by omega)
  refine h.bind fun r ⟨hr, hle⟩ => ?_
  obtain ⟨fuel, rfl⟩ : ∃ k, fuel = k + 2 := ⟨fuel - 2, by omega⟩
  refine (returns_makePositive hle).mono fun d ⟨hd, hdv, he⟩ => ⟨hd, hdv, ?_⟩
  rw [hg] at hr
  exact (he.mul_right _).trans hr

-- The number with the given binary digits.
def value (seq : List Int64) : Nat :=
  seq.foldr (fun bit k => 2 * k + if bit = 1 then 1 else 0) 0

theorem land_one_ne_zero (hc : 0 ≤ c.toInt) : c &&& 1 ≠ 0 ↔ c.toInt % 2 = 1 := by
  have hn : c.toInt = c.toBitVec.toNat := (toNat_toUInt64 hc).symm
  have ha : (c &&& 1).toBitVec.toNat = c.toBitVec.toNat % 2 := by
    rw [Int64.toBitVec_and, BitVec.toNat_and]
    exact Nat.and_one_is_mod _
  have hz : c &&& 1 = 0 ↔ c.toBitVec.toNat % 2 = 0 := by
    rw [← ha, ← Int64.toBitVec_inj, ← BitVec.toNat_inj]
    rfl
  rw [ne_eq, hz, hn]
  omega

theorem returns_sequence (hf : c.toInt.toNat < fuel) :
    Returns (sequence fuel c) fun seq => value seq = c.toInt.toNat := by
  induction fuel generalizing c
  case zero => contradiction
  case succ fuel hi =>
    simp only [sequence, Int64.le_iff_toInt_le, Int64.toInt_zero]
    split
    case isTrue hc  => exact .pure (Int.toNat_of_nonpos hc).symm
    case isFalse hc =>
      have hd : (c / 2).toInt = c.toInt / 2 := by
        rw [Int64.toInt_div_of_ne_right c 2 (by decide)]
        exact Int.tdiv_eq_ediv_of_nonneg (by omega)
      refine (hi (c := c / 2) (by omega)).bind fun seq hs => .pure ?_
      have hb := land_one_ne_zero (c := c) (by omega)
      have hv {bit : Int64} : value (bit :: seq) = 2 * value seq + if bit = 1 then 1 else 0 := rfl
      rw [hv, hs, hd]
      by_cases hbit : c &&& 1 ≠ 0
      case pos =>
        rw [if_pos hbit, if_pos rfl]
        have := hb.mp hbit
        omega
      case neg =>
        rw [if_neg hbit, if_neg (by decide)]
        have := hb.not.mp hbit
        omega

theorem fits_mul {a b : Int64} (ha : 0 ≤ a.toInt ∧ a.toInt < n.toInt) (hb : 0 ≤ b.toInt ∧ b.toInt < n.toInt)
    (hn : n.toInt ≤ 3037000499) : Fits (a.toInt * b.toInt) := by
  have := mul_nonneg ha.left hb.left
  have := mul_le_mul (Int.le_sub_one_of_lt ha.right) (Int.le_sub_one_of_lt hb.right) hb.left (by omega)
  have : (n.toInt - 1) * (n.toInt - 1) ≤ 3037000498 * 3037000498 := by nlinarith
  exact ⟨by omega, by omega⟩

theorem returns_round (hx : 0 ≤ x.toInt ∧ x.toInt < n.toInt) (hz : 0 ≤ z.toInt ∧ z.toInt < n.toInt)
    (hn : n.toInt ≤ 3037000499) : Returns (round x n z bit) fun r =>
      r.toInt = (z.toInt ^ 2 * if bit = 1 then x.toInt else 1) % n.toInt := by
  have hp : 0 < n.toInt := hz.left.trans_lt hz.right
  refine (Returns.mul <| fits_mul hz hz hn).bind fun a ha => ?_
  refine (Returns.rem (ha ▸ mul_nonneg hz.left hz.left) hp).bind fun z' hz' => ?_
  split
  case isFalse => exact .pure <| by rw [hz', ha, pow_two, mul_one]
  case isTrue  =>
    have hz'' : 0 ≤ z'.toInt ∧ z'.toInt < n.toInt := hz' ▸ ⟨Int.emod_nonneg _ hp.ne', Int.emod_lt_of_pos _ hp⟩
    refine (Returns.mul <| fits_mul hz'' hx hn).bind fun b hb => ?_
    refine (Returns.rem (hb ▸ mul_nonneg hz''.left hx.left) hp).mono fun r hr => ?_
    rw [hr, hb, hz', ha, pow_two, Int.mul_emod, Int.emod_emod, ← Int.mul_emod]

theorem returns_foldlM {seq : List Int64} (hx : 0 ≤ x.toInt ∧ x.toInt < n.toInt)
    (hn : 1 < n.toInt ∧ n.toInt ≤ 3037000499) : Returns (seq.reverse.foldlM (round x n) 1) fun r =>
      r.toInt = x.toInt ^ value seq % n.toInt := by
  induction seq
  case nil => exact .pure <| by simp [value, Int.emod_eq_of_lt, hn.left]
  case cons bit seq hi =>
    rw [List.reverse_cons, List.foldlM_append]
    refine hi.bind fun z hz => ?_
    have hp : 0 < n.toInt := by omega
    have hz' : 0 ≤ z.toInt ∧ z.toInt < n.toInt := hz ▸ ⟨Int.emod_nonneg _ hp.ne', Int.emod_lt_of_pos _ hp⟩
    rw [List.foldlM_cons]
    refine (returns_round hx hz' hn.right).bind fun r hr => .pure ?_
    have hv : value (bit :: seq) = 2 * value seq + if bit = 1 then 1 else 0 := rfl
    have hsq : (x.toInt ^ value seq % n.toInt) ^ 2 % n.toInt = x.toInt ^ (2 * value seq) % n.toInt := by
      rw [mul_comm, pow_mul, pow_two, ← Int.mul_emod, pow_two]
    rw [hr, hz, hv, pow_add, Int.mul_emod, hsq, ← Int.mul_emod]
    congr 2
    split <;> simp

-- The binary exponentiation computes a power.
theorem returns_squareAndMultipy (hx : 0 ≤ x.toInt ∧ x.toInt < n.toInt) (hn : 1 < n.toInt ∧ n.toInt ≤ 3037000499)
    (hf : c.toInt.toNat < fuel) : Returns (squareAndMultipy fuel x c n) fun r =>
      r.toInt = x.toInt ^ c.toInt.toNat % n.toInt :=
  (returns_sequence hf).bind fun _ hs => hs ▸ returns_foldlM hx hn

-- Exponents count modulo `p - 1`, also for multiples of the prime.
theorem pow_modEq {p e m : Nat} (hp : p.Prime) (he : e ≡ 1 [MOD p - 1]) (hpos : 1 ≤ e) : m ^ e ≡ m [MOD p] := by
  have : Fact p.Prime := ⟨hp⟩
  have ⟨k, hk⟩ := (Nat.modEq_iff_dvd' hpos).mp he.symm
  have hk : e = (p - 1) * k + 1 := by omega
  rw [← ZMod.natCast_eq_natCast_iff, Nat.cast_pow, hk, pow_succ, pow_mul]
  by_cases hz : (m : ZMod p) = 0
  case pos => simp [hz]
  case neg => simp [ZMod.pow_card_sub_one_eq_one hz]

theorem pow_mul_modEq {p q e m : Nat} (hp : p.Prime) (hq : q.Prime) (hne : p ≠ q)
    (he : e ≡ 1 [MOD (p - 1) * (q - 1)]) (hpos : 1 ≤ e) : m ^ e ≡ m [MOD p * q] :=
  Nat.modEq_and_modEq_iff_modEq_mul ((Nat.coprime_primes hp hq).mpr hne) |>.mp
    ⟨pow_modEq hp (he.of_mul_right _) hpos, pow_modEq hq (he.of_mul_left _) hpos⟩

theorem decrypts {p q : Nat} {n n1 b m : Int64} (hp : p.Prime) (hq : q.Prime) (hne : p ≠ q)
    (hn : n.toInt = p * q) (hle : n.toInt ≤ 3037000499) (hn1 : n1.toInt = (p - 1) * (q - 1))
    (hb : 0 < b.toInt ∧ b.toInt < n1.toInt) (hc : Int.gcd b.toInt n1.toInt = 1)
    (hm : 0 ≤ m.toInt ∧ m.toInt < n.toInt) : ∀ fuel > n.toInt.toNat, Returns (do
      let e ← squareAndMultipy fuel m b n
      let d ← inverse fuel b n1
      squareAndMultipy fuel e d n) (· = m) := by
  intro fuel hf
  have hp2 := hp.two_le
  have hq2 := hq.two_le
  have hphi : n1.toInt = n.toInt - p - q + 1 := by
    rw [hn1, hn]
    ring
  have hn' : 1 < n.toInt ∧ n.toInt ≤ 3037000499 := ⟨by omega, hle⟩
  refine (returns_squareAndMultipy hm hn' (by omega)).bind fun e he => ?_
  refine (returns_inverse hb.left (by omega) hc (by omega)).bind fun d ⟨hd, hdv, hdb⟩ => ?_
  have he' : 0 ≤ e.toInt ∧ e.toInt < n.toInt :=
    he ▸ ⟨Int.emod_nonneg _ (by omega), Int.emod_lt_of_pos _ (by omega)⟩
  refine (returns_squareAndMultipy he' hn' (by omega)).mono fun r hr => Int64.toInt_inj.mp ?_
  have hcast : n1.toInt = ((p - 1) * (q - 1) : Nat) := by
    rw [hn1]
    push_cast [Nat.cast_sub hp.one_le, Nat.cast_sub hq.one_le]
    rfl
  have hone : d.toInt.toNat * b.toInt.toNat ≡ 1 [MOD (p - 1) * (q - 1)] := by
    rw [← Int.natCast_modEq_iff, ← hcast]
    push_cast
    rwa [Int.toNat_of_nonneg hd, Int.toNat_of_nonneg hb.left.le]
  have hpos : 1 ≤ d.toInt.toNat * b.toInt.toNat := by
    by_contra hz
    rw [Nat.lt_one_iff.mp <| not_le.mp hz] at hone
    have := Nat.dvd_one.mp <| Nat.modEq_zero_iff_dvd.mp hone.symm
    omega
  have hpow := (Int.natCast_modEq_iff.mpr <| pow_mul_modEq (m := m.toInt.toNat) hp hq hne hone hpos).eq
  push_cast at hpow
  rw [Int.toNat_of_nonneg hm.left, ← hn, Int.emod_eq_of_lt hm.left hm.right, mul_comm, pow_mul] at hpow
  rw [hr, he]
  exact ((Int.mod_modEq _ _).pow _).eq.trans hpow

theorem decrypts_main : Returns (do
    let e ← squareAndMultipy 11414 228 3533 11413
    let d ← inverse 11414 3533 11200
    squareAndMultipy 11414 e d 11413) (· = 228) :=
  @decrypts 101 113 11413 11200 3533 228 (by norm_num) (by norm_num) (by decide) (by decide) (by decide) (by decide)
    (by decide) (by decide) (by decide) 11414 (by decide)

end Cipher
