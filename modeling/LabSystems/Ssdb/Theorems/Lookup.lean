import Mathlib.Data.Finset.Max
import LabSystems.Ssdb.Theorems.GapFree

namespace Ssdb

open Ordered (Map)

-- A key that is not of a log.
def Foreign (key : Bytes) : Prop :=
  key.head? = some DataType.kv ∨ key.head? = some DataType.hash ∨ key.head? = some DataType.hsize

-- A database has logs with these sequence numbers, and data.
structure Records (db : DB) (seqs : Finset UInt64) : Prop where
  one_le : ∀ seq ∈ seqs, 1 ≤ seq
  ne_max : ∀ seq ∈ seqs, seq ≠ maxSeq
  log    : ∀ seq ∈ seqs, ∃ log : Binlog, db.get (encodeSeqKey seq) = some log.buf
  keys   : ∀ key val, db.get key = some val → (∃ seq ∈ seqs, key = encodeSeqKey seq) ∨ Foreign key

variable {db : DB} {seqs : Finset UInt64} {seq s : UInt64} {log log' : Binlog} {key val : Bytes}

theorem encodeSeqKey_le : encodeSeqKey seq ≤ encodeSeqKey s ↔ seq ≤ s := by
  rw [← not_lt, ← not_lt, encodeSeqKey_lt]

-- Data comes after the logs.
theorem Foreign.lt (h : Foreign key) : encodeSeqKey seq < key := by
  cases key
  case nil => simp [Foreign] at h
  case cons c key =>
    refine List.cons_lt_cons_iff.mpr <| .inl ?_
    rcases h with h | h | h
    all_goals
      rw [List.head?_cons, Option.some.injEq] at h
      subst h
      decide

theorem Foreign.decodeSeqKey (h : Foreign key) : decodeSeqKey key = 0 := by
  by_contra hz
  have hl : encodeSeqKey (Ssdb.decodeSeqKey key) < key := h.lt
  exact lt_irrefl _ <| encodeSeqKey_decodeSeqKey hz ▸ hl

namespace Records

theorem mem (h : Records db seqs) (hg : db.get (encodeSeqKey seq) = some val) : seq ∈ seqs := by
  rcases h.keys _ _ hg with ⟨_, hm, he⟩ | hf
  case inl => exact encodeSeqKey_inj.mp he ▸ hm
  case inr => exact absurd hf.lt <| lt_irrefl _

-- Both searches look at one entry, which is a log or data.
def entry : Option (Bytes × Bytes) → Find
  | none            => .missing
  | some (key, val) => if decodeSeqKey key ≠ 0 then .load val else .missing

theorem entry_log (h₁ : 1 ≤ seq) : entry (some (encodeSeqKey seq, log.buf)) = .found log := by
  simp [entry, UInt64.one_le_iff.mp h₁, Find.load]

theorem entry_foreign (h : Foreign key) : entry (some (key, val)) = .missing := by
  simp [entry, h.decodeSeqKey]

theorem findNext_eq (h : Records db seqs) : BinlogQueue.findNext db s = entry (db.first (encodeSeqKey s ≤ ·)) := by
  unfold BinlogQueue.findNext
  cases hg : BinlogQueue.get db s
  case none => rfl
  case some log =>
    have hg := BinlogQueue.get_eq_some.mp hg
    have hf : db.first (encodeSeqKey s ≤ ·) = some (encodeSeqKey s, log.buf) :=
      Map.first_eq_some.mpr ⟨hg, le_refl _, fun _ hle hlt => absurd hlt hle.not_gt⟩
    rw [hf, entry_log <| h.one_le _ <| h.mem hg]

theorem findNext_least (h : Records db seqs) (hl : IsLeast {n | n ∈ seqs ∧ s ≤ n} seq)
    (hg : db.get (encodeSeqKey seq) = some log.buf) : BinlogQueue.findNext db s = .found log := by
  have ⟨⟨hm, hle⟩, hb⟩ := hl
  have hf : db.first (encodeSeqKey s ≤ ·) = some (encodeSeqKey seq, log.buf) := by
    refine Map.first_eq_some.mpr ⟨hg, encodeSeqKey_le.mpr hle, fun key hk hlt => ?_⟩
    by_contra hn
    have ⟨val, hv⟩ := Option.ne_none_iff_exists'.mp hn
    rcases h.keys _ _ hv with ⟨n, hmn, rfl⟩ | hf
    case inl => exact absurd (hb ⟨hmn, encodeSeqKey_le.mp hk⟩) <| not_le.mpr <| encodeSeqKey_lt.mp hlt
    case inr => exact lt_asymm hlt hf.lt
  rw [h.findNext_eq, hf, entry_log <| h.one_le _ hm]

theorem findNext_none (h : Records db seqs) (hn : ∀ n ∈ seqs, n < s) : BinlogQueue.findNext db s = .missing := by
  rw [h.findNext_eq]
  cases hf : db.first (encodeSeqKey s ≤ ·)
  case none => rfl
  case some e =>
    have ⟨hg, hk, _⟩ := Map.first_eq_some.mp hf
    rcases h.keys _ _ hg with ⟨n, hm, he⟩ | hf
    case inl => exact absurd (hn n hm) <| not_lt.mpr <| encodeSeqKey_le.mp <| he ▸ hk
    case inr => exact entry_foreign hf

theorem findLast_greatest (h : Records db seqs) (hl : IsGreatest (seqs : Set UInt64) seq)
    (hg : db.get (encodeSeqKey seq) = some log.buf) : BinlogQueue.findLast db = .found log := by
  have ⟨hm, hb⟩ := hl
  have hf : db.last (· < encodeSeqKey maxSeq) = some (encodeSeqKey seq, log.buf) := by
    refine Map.last_eq_some.mpr ⟨hg, encodeSeqKey_lt.mpr <| lt_maxSeq <| h.ne_max _ hm, fun key hk hlt => ?_⟩
    by_contra hn
    have ⟨val, hv⟩ := Option.ne_none_iff_exists'.mp hn
    rcases h.keys _ _ hv with ⟨n, hmn, rfl⟩ | hf
    case inl => exact absurd (hb hmn) <| not_le.mpr <| encodeSeqKey_lt.mp hlt
    case inr => exact lt_asymm hk hf.lt
  rw [BinlogQueue.findLast_eq, hf]
  exact entry_log <| h.one_le _ hm

theorem findLast_none (h : Records db ∅) : BinlogQueue.findLast db = .missing := by
  rw [BinlogQueue.findLast_eq]
  cases hl : db.last (· < encodeSeqKey maxSeq)
  case none => rfl
  case some e =>
    have ⟨hg, hk, _⟩ := Map.last_eq_some.mp hl
    rcases h.keys _ _ hg with ⟨n, hm, _⟩ | hf
    case inl => exact absurd hm <| Finset.notMem_empty n
    case inr => exact absurd hf.lt hk.not_gt

theorem exists_least (hm : seq ∈ seqs) (hle : s ≤ seq) : ∃ n, IsLeast {n | n ∈ seqs ∧ s ≤ n} n := by
  have hn : (seqs.filter (s ≤ ·)).Nonempty := ⟨seq, Finset.mem_filter.mpr ⟨hm, hle⟩⟩
  have hl := Finset.isLeast_min' _ hn
  rw [Finset.coe_filter] at hl
  exact ⟨_, hl⟩

-- A search finds one log, or there is none.
theorem findNext_cases (h : Records db seqs) (s : UInt64) :
    (∃ seq log, IsLeast {n | n ∈ seqs ∧ s ≤ n} seq ∧ db.get (encodeSeqKey seq) = some log.buf ∧
      BinlogQueue.findNext db s = .found log) ∨
    (∀ n ∈ seqs, n < s) ∧ BinlogQueue.findNext db s = .missing := by
  by_cases hn : ∀ n ∈ seqs, n < s
  case pos => exact .inr ⟨hn, h.findNext_none hn⟩
  case neg =>
    push Not at hn
    have ⟨n, hm, hle⟩ := hn
    have ⟨seq, hl⟩ := exists_least hm hle
    have ⟨log, hg⟩ := h.log _ hl.left.left
    exact .inl ⟨seq, log, hl, hg, h.findNext_least hl hg⟩

theorem findLast_cases (h : Records db seqs) :
    (∃ seq log, IsGreatest (seqs : Set UInt64) seq ∧ db.get (encodeSeqKey seq) = some log.buf ∧
      BinlogQueue.findLast db = .found log) ∨
    seqs = ∅ ∧ BinlogQueue.findLast db = .missing := by
  rcases seqs.eq_empty_or_nonempty with rfl | hn
  case inl => exact .inr ⟨rfl, h.findLast_none⟩
  case inr =>
    have hl := Finset.isGreatest_max' seqs hn
    have ⟨log, hg⟩ := h.log _ hl.left
    exact .inl ⟨_, log, hl, hg, h.findLast_greatest hl hg⟩

end Records

-- The searches for logs are searches in the order of the sequence numbers.
theorem lookup_seqs (h : Records db seqs) :
    (∀ s log, BinlogQueue.findNext db s = .found log ↔
      ∃ seq, IsLeast {n | n ∈ seqs ∧ s ≤ n} seq ∧ db.get (encodeSeqKey seq) = some log.buf) ∧
    (∀ s, BinlogQueue.findNext db s = .missing ↔ ∀ n ∈ seqs, n < s) ∧
    (∀ log, BinlogQueue.findLast db = .found log ↔
      ∃ seq, IsGreatest (seqs : Set UInt64) seq ∧ db.get (encodeSeqKey seq) = some log.buf) ∧
    (BinlogQueue.findLast db = .missing ↔ seqs = ∅) ∧
    (∀ a b, encodeSeqKey a < encodeSeqKey b ↔ a < b) ∧ ∀ a, decodeSeqKey (encodeSeqKey a) = a := by
  refine ⟨fun s log => ⟨fun hf => ?_, fun ⟨_, hl, hg⟩ => h.findNext_least hl hg⟩,
    fun s => ⟨fun hf => ?_, h.findNext_none⟩,
    fun log => ⟨fun hf => ?_, fun ⟨_, hl, hg⟩ => h.findLast_greatest hl hg⟩,
    ⟨fun hf => ?_, fun he => Records.findLast_none <| he ▸ h⟩,
    fun _ _ => encodeSeqKey_lt, fun _ => decodeSeqKey_encodeSeqKey⟩
  case refine_1 =>
    rcases h.findNext_cases s with ⟨seq, _, hl, hg, hf'⟩ | ⟨_, hf'⟩
    case inl => exact ⟨seq, hl, Find.found.inj (hf.symm.trans hf') ▸ hg⟩
    case inr => cases hf.symm.trans hf'
  case refine_2 =>
    rcases h.findNext_cases s with ⟨_, _, _, _, hf'⟩ | ⟨hn, _⟩
    case inl => cases hf.symm.trans hf'
    case inr => exact hn
  case refine_3 =>
    rcases h.findLast_cases with ⟨seq, _, hl, hg, hf'⟩ | ⟨_, hf'⟩
    case inl => exact ⟨seq, hl, Find.found.inj (hf.symm.trans hf') ▸ hg⟩
    case inr => cases hf.symm.trans hf'
  case refine_4 =>
    rcases h.findLast_cases with ⟨_, _, _, _, hf'⟩ | ⟨he, _⟩
    case inl => cases hf.symm.trans hf'
    case inr => exact he

-- Two logs between which there is a gap, and a key.
def gap : DB :=
  Map.empty.insert (encodeSeqKey 3) (Binlog.of 3 BinlogType.sync BinlogCommand.kset (encodeKvKey [])).buf
    |>.insert (encodeSeqKey 256) (Binlog.of 256 BinlogType.sync BinlogCommand.kset (encodeKvKey [])).buf
    |>.insert (encodeKvKey []) []

theorem records_gap : Records gap {3, 256} where
  one_le := by simp
  ne_max := by simp [maxSeq]
  log seq hm := by
    simp only [Finset.mem_insert, Finset.mem_singleton] at hm
    rcases hm with rfl | rfl
    case inl => exact ⟨Binlog.of 3 BinlogType.sync BinlogCommand.kset (encodeKvKey []), by decide +kernel⟩
    case inr => exact ⟨Binlog.of 256 BinlogType.sync BinlogCommand.kset (encodeKvKey []), by decide +kernel⟩
  keys key val hg := by
    simp only [gap, Map.get_insert, Map.get_empty] at hg
    split_ifs at hg with h₁ h₂ h₃
    case pos => exact .inr <| .inl <| h₁ ▸ rfl
    case pos => exact .inl ⟨256, by decide, h₂⟩
    case pos => exact .inl ⟨3, by decide, h₃⟩

theorem lookup_seqs_gap : BinlogQueue.findNext gap 257 = .missing :=
  lookup_seqs records_gap |>.right.left 257 |>.mpr <| by simp

end Ssdb
