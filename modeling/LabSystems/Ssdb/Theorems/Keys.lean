import LabSystems.Ssdb.SSDBImpl

namespace Ssdb

variable {seq seq' : UInt64} {name name' key key' : Bytes}

@[simp]
theorem head?_encodeSeqKey : (encodeSeqKey seq).head? = some DataType.synclog :=
  rfl

@[simp]
theorem head?_encodeKvKey : (encodeKvKey key).head? = some DataType.kv :=
  rfl

@[simp]
theorem head?_encodeHsizeKey : (encodeHsizeKey name).head? = some DataType.hsize :=
  rfl

@[simp]
theorem head?_encodeHashKey : (encodeHashKey name key).head? = some DataType.hash :=
  rfl

-- Keys of different types of data differ.
theorem ne_of_head? {k k' : Bytes} (h : k.head? = some t) (h' : k'.head? = some t') (hn : t ≠ t') :
    k ≠ k' := by
  rintro rfl
  exact hn <| Option.some.inj <| h.symm.trans h'

@[simp]
theorem decodeSeqKey_encodeSeqKey : decodeSeqKey (encodeSeqKey seq) = seq := by
  simp [decodeSeqKey, encodeSeqKey, bigEndian_bigEndian]

theorem encodeSeqKey_inj : encodeSeqKey seq = encodeSeqKey seq' ↔ seq = seq' :=
  ⟨fun h => by simpa using congrArg decodeSeqKey h, fun h => h ▸ rfl⟩

theorem encodeSeqKey_lt : encodeSeqKey seq < encodeSeqKey seq' ↔ seq < seq' := by
  simp [encodeSeqKey, memory_bigEndian_lt]

theorem encodeSeqKey_decodeSeqKey (h : decodeSeqKey key ≠ 0) :
    encodeSeqKey (decodeSeqKey key) = key := by
  unfold decodeSeqKey at h ⊢
  split at h
  case h_1 => contradiction
  case h_2 t bs =>
    split at h
    case isFalse => contradiction
    case isTrue hb =>
      have ⟨hl, ht⟩ := hb
      simp [encodeSeqKey, hl, ht, bigEndian_bigEndian, memory_ofMemory]

theorem encodeKvKey_inj : encodeKvKey key = encodeKvKey key' ↔ key = key' := by
  simp [encodeKvKey]

theorem encodeHsizeKey_inj : encodeHsizeKey name = encodeHsizeKey name' ↔ name = name' := by
  simp [encodeHsizeKey]

-- A name that is longer than the one of a record, by a multiple of 256, would have to reach beyond
-- the end of the record.
theorem encodeHashKey_inj (hn : name.length ≤ keyLenMax) (hk : key.length ≤ keyLenMax) :
    encodeHashKey name' key' = encodeHashKey name key ↔ name' = name ∧ key' = key := by
  refine ⟨fun h => ?_, fun h => by rw [h.left, h.right]⟩
  simp only [encodeHashKey, List.cons_append, List.cons.injEq, true_and] at h
  have ⟨hl, he⟩ := h
  have ht := congrArg List.length he
  have hm := congrArg UInt8.toNat hl
  simp only [List.length_append, List.length_cons, Nat.toUInt8_eq, UInt8.toNat_ofNat', keyLenMax] at hn hk ht hm
  have ⟨hn, he⟩ := List.append_inj he <| by omega
  exact ⟨hn, List.cons.inj he |>.right⟩

theorem encodeHashKey_append : encodeHashKey name [] ++ key = encodeHashKey name key := by
  simp [encodeHashKey]

theorem encodeHashKey_starts (hn : name.length ≤ keyLenMax) (hk : key.length ≤ keyLenMax) :
    encodeHashKey name' [] <+: encodeHashKey name key ↔ name' = name := by
  constructor
  case mp =>
    intro ⟨_, h⟩
    rw [encodeHashKey_append, encodeHashKey_inj hn hk] at h
    exact h.left
  case mpr =>
    rintro rfl
    exact ⟨key, encodeHashKey_append⟩

end Ssdb
