import LabSystems.Decimal.Order
import LabSystems.Paxos.Peer

namespace Paxos

-- The number for a reading of the clock, which is the time since a fixed date.
def generatePNum (nanoseconds : Int64) (me : Nat) : String :=
  toString nanoseconds.toInt ++ "-" ++ toString me

def digits (n : Nat) : Nat :=
  (Nat.toDigits 10 n).length

-- A number is at most what its digits leave of a later one. This is so if both have as many digits.
def Leads (m n : Nat) : Prop :=
  m ≤ n / 10 ^ (digits n - digits m)

instance : Decidable (Leads m n) :=
  inferInstanceAs <| Decidable <| m ≤ n / 10 ^ (digits n - digits m)

theorem toNat_lt_toNat {t₁ t₂ : Int64} (h₀ : 0 < t₁) (h : t₁ < t₂) : t₁.toInt.toNat < t₂.toInt.toNat := by
  have h₀ : 0 < t₁.toInt := Int64.lt_iff_toInt_lt.mp h₀
  have h := Int64.lt_iff_toInt_lt.mp h
  omega

theorem toList_generatePNum {t : Int64} (h : 0 < t) (me : Nat) : (generatePNum t me).toList =
    Nat.toDigits 10 t.toInt.toNat ++ '-' :: (toString me).toList := by
  have ht : 0 < t.toInt := Int64.lt_iff_toInt_lt.mp h
  have hn : toString t.toInt = String.ofList (Nat.toDigits 10 t.toInt.toNat) := by
    conv_lhs => rw [← Int.toNat_of_nonneg ht.le]
    rfl
  rw [generatePNum, hn, String.toList_append, String.toList_append, String.toList_ofList, List.append_assoc]
  rfl

theorem generatePNum_lt_iff {t₁ t₂ : Int64} (h₀ : 0 < t₁) (h : t₁ < t₂) (i j : Nat) :
    generatePNum t₁ i < generatePNum t₂ j ↔ Leads t₁.toInt.toNat t₂.toInt.toNat := by
  rw [String.lt_iff_toList_lt, toList_generatePNum h₀, toList_generatePNum (Int64.lt_trans h₀ h)]
  exact Decimal.toDigits_lt_iff (toNat_lt_toNat h₀ h) (by decide)

theorem Peer.prepare_ok_iff {px : Peer n V} (h : px.instances.lookup args.seq = some inst) :
    (px.prepare args).2.err = .ok ↔ inst.nP < args.pNum := by
  rw [prepare, h]
  dsimp only
  split
  case isTrue hlt  => simp [prepare.promise, hlt]
  case isFalse hlt => simp [hlt]

-- Numbers are compared as strings, so that a later one may be less than an earlier one with fewer
-- digits. It is then rejected.
theorem later_iff {t₁ t₂ : Int64} (h₀ : 0 < t₁) (h : t₁ < t₂) (i j : Fin n) :
    (generatePNum t₁ i < generatePNum t₂ j ↔ Leads t₁.toInt.toNat t₂.toInt.toNat) ∧
    ∀ (px : Peer n V) (seq : Int) (inst : Instance V), px.instances.lookup seq = some inst →
      inst.nP = generatePNum t₁ i →
      ((px.prepare ⟨seq, generatePNum t₂ j⟩).2.err = .ok ↔ Leads t₁.toInt.toNat t₂.toInt.toNat) := by
  have hlt := generatePNum_lt_iff h₀ h i j
  refine ⟨hlt, fun px seq inst hl hp => ?_⟩
  rw [Peer.prepare_ok_iff hl, hp]
  exact hlt

theorem later_100_1234 : generatePNum 100 0 < generatePNum 1234 1 :=
  later_iff (n := 2) (V := Nat) (by decide) (by decide) 0 1 |>.left.mpr (by decide)

-- A clock needs one more digit some 31 years after the fixed date.
theorem not_later :
    let pnum := generatePNum 999999999999999999 0
    let pnum' := generatePNum 1000000000000000000 1
    ¬pnum < pnum' ∧ (((Peer.make : Peer 2 Nat).prepare ⟨0, pnum⟩).1.prepare ⟨0, pnum'⟩).2.err = .reject :=
  ⟨by decide +kernel, by decide +kernel⟩

end Paxos
