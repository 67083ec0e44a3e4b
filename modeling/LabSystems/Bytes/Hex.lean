import LabSystems.Bytes.Decimal

-- Bytes in hexadecimal notation.

namespace Bytes

def hexTable : Bytes :=
  ofString "0123456789abcdef"

def hexDigit (n : Nat) : UInt8 :=
  hexTable.getD n 0

def hex (bs : Bytes) : Bytes :=
  bs.flatMap fun b => [hexDigit (b.toNat / 16), hexDigit (b.toNat % 16)]

theorem hex_cons : hex (b :: bs) = hexDigit (b.toNat / 16) :: hexDigit (b.toNat % 16) :: hex bs :=
  rfl

@[simp]
theorem length_hex : (hex bs).length = 2 * bs.length := by
  induction bs
  case nil          => rfl
  case cons b bs hi =>
    rw [hex_cons, List.length_cons, List.length_cons, List.length_cons, hi]
    omega

theorem hexDigit_lt_of_lt : ∀ m < 16, ∀ n < m, hexDigit n < hexDigit m := by
  decide

theorem hexDigit_lt (hn : n < 16) (hm : m < 16) : hexDigit n < hexDigit m ↔ n < m := by
  refine ⟨fun h => ?_, hexDigit_lt_of_lt m hm n⟩
  by_contra hl
  rcases Nat.eq_or_lt_of_le <| Nat.le_of_not_lt hl with he | hl
  case inl => exact absurd (he ▸ h) <| lt_irrefl _
  case inr => exact absurd h <| lt_asymm <| hexDigit_lt_of_lt n hn m hl

theorem hexDigit_inj (hn : n < 16) (hm : m < 16) : hexDigit n = hexDigit m ↔ n = m := by
  refine ⟨fun h => ?_, fun h => h ▸ rfl⟩
  have hl := mt (hexDigit_lt hn hm).mpr <| h ▸ lt_irrefl _
  have hl' := mt (hexDigit_lt hm hn).mpr <| h ▸ lt_irrefl _
  omega

-- Strings are compared like the bytes that they stand for.
theorem hex_lt {s t : Bytes} : hex s < hex t ↔ s < t := by
  induction s generalizing t
  case nil =>
    cases t
    case nil  => simp
    case cons => simp [hex_cons, show hex [] = [] from rfl]
  case cons a s hi =>
    cases t
    case nil       => simp [show hex [] = [] from rfl]
    case cons b t =>
      have ha := a.toNat_lt
      have hb := b.toNat_lt
      rw [hex_cons, hex_cons, List.cons_lt_cons_iff, List.cons_lt_cons_iff, List.cons_lt_cons_iff, hi,
        hexDigit_lt (by omega) (by omega), hexDigit_lt (by omega) (by omega), hexDigit_inj (by omega) (by omega),
        hexDigit_inj (by omega) (by omega), UInt8.lt_iff_toNat_lt, ← UInt8.toNat_inj]
      grind

end Bytes
