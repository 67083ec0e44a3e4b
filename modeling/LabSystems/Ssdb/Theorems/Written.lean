import LabSystems.Ssdb.Theorems.GapFree

namespace Ssdb

open Ordered (Map Write)

-- There is a log for a key after a position.
def Due (db : DB) (p : UInt64) (k : Bytes) : Prop :=
  ∃ seq log, p < seq ∧ BinlogQueue.get db seq = some log ∧ log.key = k

namespace Binlog

structure Writes (log : Binlog) (key : Bytes) : Prop where
  type  : log.type = BinlogType.sync
  about : log.key = encodeKvKey key
  cmd   : log.cmd = BinlogCommand.kset ∧ key ≠ [] ∨ log.cmd = BinlogCommand.kdel

end Binlog

namespace SSDBImpl

def kv (s : SSDBImpl) (key : Bytes) : Option Bytes :=
  s.ldb.get (encodeKvKey key)

-- A database to which only `set` and `del` have been applied.
structure Written (s : SSDBImpl) : Prop where
  logged : s.Logged
  bound  : s.binlogs.lastSeq ≠ maxSeq
  keys   : ∀ k, (s.ldb.get k).isSome → k.head? = some DataType.synclog ∨ ∃ key, key ≠ [] ∧ k = encodeKvKey key
  logs   : ∀ seq log, BinlogQueue.get s.ldb seq = some log → ∃ key, log.Writes key

-- What has been written since is at the end of the log.
structure Extends (s s' : SSDBImpl) : Prop where
  lastSeq : s.binlogs.lastSeq ≤ s'.binlogs.lastSeq
  logs    : ∀ seq log, BinlogQueue.get s.ldb seq = some log → BinlogQueue.get s'.ldb seq = some log
  kv      : ∀ key, s'.kv key = s.kv key ∨ Due s'.ldb s.binlogs.lastSeq (encodeKvKey key)

end SSDBImpl

section

variable {db db' : DB} {s s' s'' : SSDBImpl} {p p' seq : UInt64} {log : Binlog}

theorem Due.mono (h : Due db p k) (hp : p' ≤ p) : Due db p' k :=
  have ⟨seq, log, hs, hg, hk⟩ := h
  ⟨seq, log, hp.trans_lt hs, hg, hk⟩

-- The next log after a position is the one for the key, or there is a later one.
theorem Due.next (h : Due db p k) (hn : ∀ seq, p < seq → seq' ≤ seq) (hg : BinlogQueue.get db seq' = some log)
    (hk : log.key ≠ k) : Due db seq' k := by
  have ⟨seq, log', hs, hg', hk'⟩ := h
  refine ⟨seq, log', lt_of_le_of_ne (hn seq hs) ?_, hg', hk'⟩
  rintro rfl
  cases hg.symm.trans hg'
  exact hk hk'

namespace SSDBImpl

theorem Extends.due (h : s.Extends s') (hd : Due s.ldb p k) : Due s'.ldb p k :=
  have ⟨seq, log, hs, hg, hk⟩ := hd
  ⟨seq, log, hs, h.logs seq log hg, hk⟩

theorem Logged.get_seq (h : s.Logged) (hg : BinlogQueue.get s.ldb seq = some log) :
    log.seq = seq ∧ 1 ≤ seq ∧ seq ≤ s.binlogs.lastSeq := by
  have hg := BinlogQueue.get_eq_some.mp hg
  have ⟨log', hl, hs⟩ := h.decodes seq _ hg
  cases Binlog.load_buf log |>.symm.trans hl
  exact ⟨hs, h.get_le <| by simp [hg]⟩

namespace Written

theorem init : Written (.open .empty) where
  logged      := .init
  bound       := by decide
  keys k hk   := by simp [SSDBImpl.open] at hk
  logs _ _ hg := by simpa [SSDBImpl.open] using BinlogQueue.get_eq_some.mp hg

-- A log for a key that is not the last one is followed by another one.
theorem due_of_kdel (h : s.Written) (hg : BinlogQueue.get s.ldb seq = some log)
    (hk : log.key = encodeKvKey key) (hc : log.cmd = BinlogCommand.kdel) :
    s.kv key = none ∨ Due s.ldb seq (encodeKvKey key) := by
  refine or_iff_not_imp_left.mpr fun hn => ?_
  have ⟨seq', log', hl, hc'⟩ := h.logged.data key |>.mp <| Option.isSome_iff_ne_none.mpr hn
  refine ⟨seq', log', lt_of_le_of_ne (hl.last seq log hg hk) ?_, hl.found, hl.key⟩
  rintro rfl
  cases hg.symm.trans hl.found
  exact absurd (hc.symm.trans hc') (by decide)

theorem due_of_kset (h : s.Written) (hg : BinlogQueue.get s.ldb seq = some log)
    (hk : log.key = encodeKvKey key) (hc : log.cmd = BinlogCommand.kset) (hn : s.kv key = none) :
    Due s.ldb seq (encodeKvKey key) := by
  by_contra hd
  have hl : BinlogQueue.Latest s.ldb (encodeKvKey key) seq log :=
    ⟨hg, hk, fun seq' log' hg' hk' => not_lt.mp fun hlt => hd ⟨seq', log', hlt, hg', hk'⟩⟩
  have hs := h.logged.data key |>.mpr ⟨seq, log, hl, hc⟩
  rw [kv] at hn
  simp [hn] at hs

theorem not_due (h : s.Written) : ¬Due s.ldb s.binlogs.lastSeq k :=
  fun ⟨_, _, hs, hg, _⟩ => hs.not_ge <| h.logged.get_seq hg |>.right.right

end Written

theorem get_eq_iff : s.get true = s'.get true ↔ ∀ key, s.kv key = s'.kv key := by
  refine funext_iff.trans <| forall_congr' fun key => ?_
  simp only [get, ldbGet, kv, if_true]
  cases s.ldb.get (encodeKvKey key) <;> cases s'.ldb.get (encodeKvKey key) <;> simp

theorem Extends.refl : s.Extends s :=
  ⟨le_refl _, fun _ _ hg => hg, fun _ => .inl rfl⟩

theorem Extends.trans (h : s.Extends s') (h' : s'.Extends s'') : s.Extends s'' where
  lastSeq       := h.lastSeq.trans h'.lastSeq
  logs _ _ hg   := h'.logs _ _ <| h.logs _ _ hg
  kv key        := by
    rcases h'.kv key with hk | hd
    case inl => exact hk ▸ h.kv key |>.imp_right h'.due
    case inr => exact .inr <| hd.mono h.lastSeq

-- A log that is new is at the end.
theorem Extends.due_new (h : s.Extends s') (hl : s.Logged) (hd : Due s'.ldb p k) :
    Due s.ldb p k ∨ Due s'.ldb s.binlogs.lastSeq k := by
  have ⟨seq, log, hp, hg, hk⟩ := hd
  rcases lt_or_ge s.binlogs.lastSeq seq with hlt | hle
  case inl => exact .inr ⟨seq, log, hlt, hg, hk⟩
  case inr =>
    have ⟨log', hg', _⟩ := hl.exists_log (UInt64.one_le_iff.mpr fun hz => UInt64.not_lt_zero (hz ▸ hp)) hle
    cases hg.symm.trans <| h.logs _ _ hg'
    exact .inl ⟨seq, log, hp, hg', hk⟩

theorem Keeps.extends (h : s.Keeps s') : s.Extends s' where
  lastSeq       := h.lastSeq ▸ le_refl _
  logs _ _ hg   := h.ldb ▸ hg
  kv key        := .inl <| by rw [kv, h.ldb, kv]

theorem Keeps.written (h : s.Keeps s') (hw : s.Written) : s'.Written where
  logged := hw.logged.keep h
  bound  := h.lastSeq ▸ hw.bound
  keys   := h.ldb ▸ hw.keys
  logs   := h.ldb ▸ hw.logs

-- A key is written together with its log.
theorem Appends.written (h : s.Appends [w] BinlogType.sync c (encodeKvKey key) s') (hw : s.Written)
    (hm : s'.binlogs.lastSeq ≠ maxSeq) (hd : s.Data [w] c (encodeKvKey key)) (hk : w.key = encodeKvKey key)
    (hc : c = BinlogCommand.kset ∧ key ≠ [] ∨ c = BinlogCommand.kdel) : s'.Written ∧ s.Extends s' := by
  have hlt := h.lt_lastSeq hw.bound
  have get := h.get_log hd
  have other {k : Bytes} (hne : k ≠ encodeKvKey key) (hs : k.head? ≠ some DataType.synclog) :
      s'.ldb.get k = s.ldb.get k := by
    rw [h.ldb, Map.get_insert_ne, Map.get_write_of_ne]
    · exact fun w' hm => List.mem_singleton.mp hm ▸ hk ▸ hne
    · rintro rfl
      exact hs rfl
  refine ⟨⟨hw.logged.append hw.bound hd h, hm, fun k hg => ?_, fun seq log hg => ?_⟩,
    ⟨le_of_lt hlt, fun seq log hg => ?_, fun key' => ?_⟩⟩
  case refine_1 =>
    refine or_iff_not_imp_left.mpr fun hs => ?_
    by_cases he : k = encodeKvKey key
    case pos =>
      subst he
      rw [h.get_of_head? head?_encodeKvKey (by decide), hd.data, if_pos rfl] at hg
      refine ⟨key, hc.elim (·.right) fun hc => ?_, rfl⟩
      exact absurd (hg.symm.trans hc) (by decide)
    case neg => exact hw.keys k (other he hs ▸ hg) |>.resolve_left hs
  case refine_2 =>
    rw [get] at hg
    split at hg
    case isTrue =>
      cases hg
      exact ⟨key, Binlog.type_of, Binlog.key_of, by rwa [Binlog.cmd_of]⟩
    case isFalse => exact hw.logs seq log hg
  case refine_3 =>
    rw [get, if_neg, hg]
    rintro rfl
    exact hlt.not_ge <| hw.logged.get_seq hg |>.right.right
  case refine_4 =>
    by_cases he : key' = key
    case pos =>
      subst he
      exact .inr ⟨_, _, hlt, (get _).trans <| if_pos rfl, Binlog.key_of⟩
    case neg => exact .inl <| other (mt encodeKvKey_inj.mp he) (by simpa using (by decide : DataType.kv ≠ DataType.synclog))

theorem Written.set (h : s.Written) (hm : (s.set ok key val).1.binlogs.lastSeq ≠ maxSeq) :
    (s.set ok key val).1.Written ∧ s.Extends (s.set ok key val).1 := by
  have hs : Step s (.set ok key val) (s.set ok key val).1 := set_step
  generalize (s.set ok key val).1 = s' at hs hm
  cases hs
  case setKeep hk => exact ⟨hk.written h, hk.extends⟩
  case set hn ha  => exact ha.written h hm data_set rfl <| .inl ⟨rfl, hn⟩

theorem Written.del (h : s.Written) (hm : (s.del ok key).1.binlogs.lastSeq ≠ maxSeq) :
    (s.del ok key).1.Written ∧ s.Extends (s.del ok key).1 := by
  have hs : Step s (.del ok key) (s.del ok key).1 := del_step
  generalize (s.del ok key).1 = s' at hs hm
  cases hs
  case delKeep hk => exact ⟨hk.written h, hk.extends⟩
  case del ha     => exact ha.written h hm data_del rfl <| .inr rfl

end SSDBImpl

end

end Ssdb
