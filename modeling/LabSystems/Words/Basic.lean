import Mathlib.Algebra.Order.Group.Abs
import Mathlib.Algebra.Order.Group.Int
import Mathlib.Algebra.Order.Ring.Int

-- Computations on integers of 64 bits, whose arithmetic wraps around. A computation may fail, and it
-- records the exact values of the products that it forms.

abbrev Words (α : Type) :=
  StateT (List Int) Option α

namespace Words

def Fits (x : Int) : Prop :=
  -2 ^ 63 ≤ x ∧ x < 2 ^ 63

instance : DecidablePred Fits :=
  fun _ => inferInstanceAs <| Decidable (_ ∧ _)

def mul (a b : Int64) : Words Int64 :=
  fun ps => some (a * b, ps ++ [a.toInt * b.toInt])

-- A division by zero panics.
def quo (a b : Int64) : Words Int64 :=
  if b = 0 then failure else pure (a / b)

def rem (a b : Int64) : Words Int64 :=
  if b = 0 then failure else pure (a % b)

-- A computation returns a result with a property, and all its products fit into 64 bits.
def Returns (m : Words α) (P : α → Prop) : Prop :=
  ∃ a qs, P a ∧ (∀ q ∈ qs, Fits q) ∧ ∀ ps, m.run ps = some (a, ps ++ qs)

variable {P Q : α → Prop} {R : β → Prop} {m : Words α} {f : α → Words β} {a b : Int64}

theorem fits_of_abs_le {x : Int} (h : |x| ≤ a.toInt) : Fits x := by
  have ⟨hl, hu⟩ := abs_le.mp h
  have := a.toInt_lt
  exact ⟨by omega, by omega⟩

theorem Fits.bmod_eq {x : Int} (h : Fits x) : x.bmod (2 ^ 64) = x :=
  Int.bmod_eq_of_le (by have := h.left; omega) (by have := h.right; omega)

theorem toInt_add (h : Fits (a.toInt + b.toInt)) : (a + b).toInt = a.toInt + b.toInt :=
  (Int64.toInt_add a b).trans h.bmod_eq

theorem toInt_sub (h : Fits (a.toInt - b.toInt)) : (a - b).toInt = a.toInt - b.toInt :=
  (Int64.toInt_sub a b).trans h.bmod_eq

-- A number that is not negative has the same bits with and without a sign.
theorem toNat_toUInt64 (h : 0 ≤ a.toInt) : (a.toUInt64.toNat : Int) = a.toInt := by
  have he : a.toInt = a.toBitVec.toInt := rfl
  have hn : a.toUInt64.toNat = a.toBitVec.toNat := rfl
  have hlt := a.toBitVec.isLt
  rw [BitVec.toInt_eq_toNat_cond] at he
  split at he <;> omega

namespace Returns

theorem pure {a : α} (h : P a) : Returns (pure a) P :=
  ⟨a, [], h, nofun, fun ps => by simp⟩

theorem mono (h : Returns m P) (hp : ∀ a, P a → Q a) : Returns m Q :=
  have ⟨a, qs, ha, hq, hm⟩ := h
  ⟨a, qs, hp a ha, hq, hm⟩

theorem bind (h : Returns m P) (hf : ∀ a, P a → Returns (f a) R) : Returns (m >>= f) R := by
  have ⟨a, qs, ha, hq, hm⟩ := h
  have ⟨b, rs, hb, hr, hn⟩ := hf a ha
  refine ⟨b, qs ++ rs, hb, fun q hq' => (List.mem_append.mp hq').elim (hq q) (hr q), fun ps => ?_⟩
  simp [hm, hn]

theorem mul (h : Fits (a.toInt * b.toInt)) : Returns (Words.mul a b) fun c => c.toInt = a.toInt * b.toInt :=
  ⟨a * b, [a.toInt * b.toInt], (Int64.toInt_mul a b).trans h.bmod_eq, by simpa using h, fun _ => rfl⟩

-- Division truncates, which makes no difference for positive numbers.
theorem quo (ha : 0 ≤ a.toInt) (hb : 0 < b.toInt) : Returns (Words.quo a b) fun c => c.toInt = a.toInt / b.toInt := by
  have hn : b ≠ 0 := by
    rintro rfl
    simp at hb
  rw [Words.quo, if_neg hn]
  refine pure ?_
  rw [Int64.toInt_div, Int.tdiv_eq_ediv_of_nonneg ha]
  refine Fits.bmod_eq ⟨?_, ?_⟩
  case refine_1 => exact (by decide : (-2 ^ 63 : Int) ≤ 0).trans <| Int.ediv_nonneg ha hb.le
  case refine_2 => exact (Int.ediv_le_self _ ha).trans_lt a.toInt_lt

theorem rem (ha : 0 ≤ a.toInt) (hb : 0 < b.toInt) : Returns (Words.rem a b) fun c => c.toInt = a.toInt % b.toInt := by
  have hn : b ≠ 0 := by
    rintro rfl
    simp at hb
  rw [Words.rem, if_neg hn]
  exact pure <| (Int64.toInt_mod a b).trans <| Int.tmod_eq_emod_of_nonneg ha

end Returns

end Words
