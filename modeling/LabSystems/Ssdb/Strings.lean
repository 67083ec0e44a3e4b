import LabSystems.Bytes.Decimal

namespace Ssdb

def str (v : UInt64) : Bytes :=
  .decimal v.toNat

def strToUint64 (str : Bytes) : UInt64 :=
  str.strtoull

@[simp]
theorem strToUint64_str : strToUint64 (str v) = v := by
  rw [strToUint64, str, ← List.append_nil (Bytes.decimal _)]
  exact Bytes.strtoull_decimal <| by simp

theorem str_ne_nil : str v ≠ [] :=
  Bytes.decimal_ne_nil

def bigEndian32 (v : UInt32) : UInt32 :=
  (v >>> 24) ||| ((v >>> 8) &&& (0xff00 : UInt32)) ||| ((v <<< 8) &&& (0xff0000 : UInt32)) |||
    (v <<< 24)

def bigEndian (v : UInt64) : UInt64 :=
  let h := (v >>> 32).toUInt32
  let l := (v &&& (0xffffffff : UInt64)).toUInt32
  (bigEndian32 h).toUInt64 ||| ((bigEndian32 l).toUInt64 <<< 32)

-- What is in memory where a 64-bit integer is, and the integer that is there.
def memory (v : UInt64) : Bytes :=
  .ofNat 8 v.toNat

def ofMemory (bs : Bytes) : UInt64 :=
  .ofNat <| Bytes.toNat <| bs.take 8

@[simp]
theorem length_memory : (memory v).length = 8 :=
  Bytes.length_ofNat

@[simp]
theorem ofMemory_append : ofMemory (memory v ++ bs) = v := by
  have hv : v.toNat % 256 ^ 8 = v.toNat := Nat.mod_eq_of_lt v.toNat_lt
  rw [ofMemory, List.take_left' length_memory, memory, Bytes.toNat_ofNat, hv, UInt64.ofNat_toNat]

@[simp]
theorem ofMemory_memory : ofMemory (memory v) = v := by
  simpa using (ofMemory_append : ofMemory (memory v ++ []) = v)

theorem memory_ofMemory (h : bs.length = 8) : memory (ofMemory bs) = bs := by
  have hl : Bytes.toNat bs < 256 ^ 8 := h ▸ Bytes.toNat_lt bs
  rw [ofMemory, List.take_of_length_le (by omega), memory, UInt64.toNat_ofNat_of_lt' hl, ← h,
    Bytes.ofNat_toNat]

theorem memory_inj : memory v = memory w ↔ v = w :=
  ⟨fun h => by simpa using congrArg ofMemory h, fun h => h ▸ rfl⟩

theorem bigEndian32_getLsbD (h : i < 32) : (bigEndian32 v).toBitVec.getLsbD i =
    v.toBitVec.getLsbD (24 - i / 8 * 8 + i % 8) := by
  simp only [bigEndian32, UInt32.toBitVec_or, UInt32.toBitVec_and, UInt32.toBitVec_shiftLeft,
    UInt32.toBitVec_shiftRight, UInt32.toBitVec_ofNat]
  interval_cases i <;> simp

theorem bigEndian_getLsbD (hi : i < 64) : (bigEndian v).toBitVec.getLsbD i =
    v.toBitVec.getLsbD (56 - i / 8 * 8 + i % 8) := by
  have hs : (32#64 % 64).toNat = 32 := by decide
  have high (j : Nat) (hj : j < 32) :
      (v >>> 32).toUInt32.toBitVec.getLsbD j = v.toBitVec.getLsbD (32 + j) := by
    simp only [UInt64.toBitVec_toUInt32, BitVec.getLsbD_setWidth, UInt64.toBitVec_shiftRight,
      UInt64.toBitVec_ofNat, hs, BitVec.ushiftRight_eq', BitVec.getLsbD_ushiftRight, hj, decide_true,
      Bool.true_and]
  have low (j : Nat) (hj : j < 32) :
      (v &&& 0xffffffff).toUInt32.toBitVec.getLsbD j = v.toBitVec.getLsbD j := by
    have hm : Nat.testBit 4294967295 j = true := by
      rw [show 4294967295 = 2 ^ 32 - 1 from rfl, Nat.testBit_two_pow_sub_one]
      simp [hj]
    simp [UInt64.toBitVec_toUInt32, UInt64.toBitVec_and, UInt64.toBitVec_ofNat, BitVec.getLsbD_ofNat,
      hj, hm, show j < 64 by omega, -UInt64.toUInt32_and]
  simp only [bigEndian, UInt64.toBitVec_or, UInt64.toBitVec_shiftLeft, UInt32.toBitVec_toUInt64,
    UInt64.toBitVec_ofNat, BitVec.getLsbD_or, hs, BitVec.shiftLeft_eq', BitVec.getLsbD_shiftLeft,
    BitVec.getLsbD_setWidth, hi, decide_true, Bool.true_and]
  by_cases h : i < 32
  case pos =>
    rw [bigEndian32_getLsbD h, high _ (by omega)]
    simp only [h, decide_true, Bool.not_true, Bool.false_and, Bool.or_false]
    congr 1
    omega
  case neg =>
    rw [bigEndian32_getLsbD (by omega : i - 32 < 32), low _ (by omega),
      BitVec.getLsbD_of_ge _ _ (by omega)]
    simp only [h, show i - 32 < 64 by omega, decide_true, decide_false, Bool.not_false,
      Bool.true_and, Bool.false_or]
    congr 1
    omega

theorem testBit_getElem_memory (hi : i < (memory v).length) (hj : j < 8) :
    (memory v)[i].toNat.testBit j = v.toBitVec.getLsbD (8 * i + j) := by
  have he : 256 ^ i = 2 ^ (8 * i) := Nat.pow_mul 2 8 i |>.symm
  simp only [memory, Bytes.getElem_ofNat, Nat.toUInt8_eq, UInt8.toNat_ofNat', Nat.testBit_mod_two_pow,
    hj, decide_true, Bool.true_and, he, Nat.testBit_div_two_pow]
  rw [BitVec.getLsbD, UInt64.toNat_toBitVec, Nat.add_comm]

-- The bytes of an integer come in the reverse order.
theorem memory_bigEndian : memory (bigEndian v) = (memory v).reverse := by
  apply List.ext_getElem (by simp)
  intro i hi hi'
  have hl : i < 8 := by simpa using hi
  rw [List.getElem_reverse]
  apply UInt8.toNat_inj.mp
  refine Nat.eq_of_testBit_eq fun j => ?_
  by_cases hj : j < 8
  case pos =>
    rw [testBit_getElem_memory _ hj, testBit_getElem_memory _ hj, bigEndian_getLsbD (by omega)]
    congr 1
    simp only [length_memory]
    omega
  case neg =>
    have high (b : UInt8) : b.toNat.testBit j = false :=
      Nat.testBit_lt_two_pow <| Nat.lt_of_lt_of_le b.toNat_lt <| Nat.pow_le_pow_right (by omega)
        (by omega)
    rw [high, high]

theorem bigEndian_bigEndian : bigEndian (bigEndian v) = v := by
  apply memory_inj.mp
  rw [memory_bigEndian, memory_bigEndian, List.reverse_reverse]

theorem memory_bigEndian_lt : memory (bigEndian v) < memory (bigEndian w) ↔ v < w := by
  rw [memory_bigEndian, memory_bigEndian, UInt64.lt_iff_toNat_lt]
  exact Bytes.reverse_ofNat_lt v.toNat_lt w.toNat_lt

end Ssdb
