import LabSystems.Ssdb.Theorems.Position
import LabSystems.Ssdb.Theorems.Written

namespace Ssdb

namespace SSDBImpl

variable {s : SSDBImpl}

theorem kv_set (h : key ≠ []) (key' : Bytes) :
    (s.set true key val).1.kv key' = if key' = key then some val else s.kv key' := by
  have hr : s.Refines s.maps := ⟨fun _ => rfl, fun _ _ => rfl⟩
  have hs : Step s (.set true key val) _ := set_step
  refine hs.refines hr rfl |>.kv key' |>.trans ?_
  rw [Maps.call, if_neg h]
  exact Function.update_apply ..

theorem kv_del (key' : Bytes) : (s.del true key).1.kv key' = if key' = key then none else s.kv key' := by
  have hr : s.Refines s.maps := ⟨fun _ => rfl, fun _ _ => rfl⟩
  have hs : Step s (.del true key) _ := del_step
  refine hs.refines hr rfl |>.kv key' |>.trans ?_
  rw [Maps.call]
  exact Function.update_apply ..

end SSDBImpl

namespace Slave

def kv (s : Slave) (key : Bytes) : Option Bytes :=
  s.ssdb.kv key

-- All calls to the store succeed.
def receive (s : Slave) (ms : List (List Bytes)) : Slave :=
  ms.foldl (fun s m => (s.proc true m).1) s

-- A restart finds the position where it was.
structure Stored (s : Slave) : Prop where
  lastSeq : s.restart.lastSeq = s.lastSeq
  lastKey : s.restart.lastKey = s.lastKey

variable {s s' : Slave} {log : Binlog} {ms ms' : List (List Bytes)}

@[simp]
theorem receive_nil : s.receive [] = s :=
  rfl

@[simp]
theorem receive_cons : s.receive (m :: ms) = (s.proc true m).1.receive ms :=
  rfl

@[simp]
theorem receive_append : s.receive (ms ++ ms') = (s.receive ms).receive ms' :=
  List.foldl_append

theorem lastSeq_restart : s.restart.lastSeq =
    let seq := s.meta.hget true s.statusKey lastSeqField |>.val
    if seq ≠ [] then strToUint64 seq else 0 :=
  rfl

theorem lastKey_restart : s.restart.lastKey = (s.meta.hget true s.statusKey lastKeyField).val := by
  refine ite_eq_left_iff.mpr fun hn => ?_
  exact (not_not.mp hn).symm

theorem stored_saveStatus : s.saveStatus.Stored where
  lastSeq := by
    have hg : s.saveStatus.meta.hget true s.saveStatus.statusKey lastSeqField = .found (str s.lastSeq) :=
      hget_saveStatus.trans <| if_pos rfl
    have he : strToUint64 (str s.lastSeq) = s.lastSeq := strToUint64_str
    rw [lastSeq_restart, hg]
    exact (if_pos str_ne_nil).trans he
  lastKey := by
    have hg : s.saveStatus.meta.hget true s.saveStatus.statusKey lastKeyField = .found s.lastKey :=
      hget_saveStatus.trans <| (if_neg <| by decide).trans <| if_pos rfl
    rw [lastKey_restart, hg]
    rfl

theorem Stored.step (h : s.Stored) (hs : Step s a s' o) : s'.Stored := by
  cases hs
  case ignored            => exact h
  case ended              => exact stored_saveStatus
  case skipped | applied  => exact stored_saveStatus
  case failed             => exact ⟨h.lastSeq, h.lastKey⟩
  case restart            => exact ⟨rfl, by rw [lastKey_restart, lastKey_restart]; rfl⟩

theorem proc_begin : s.proc true [(Binlog.of seq BinlogType.copy BinlogCommand.begin key).buf, val] =
    (s, none) := by
  simp [proc, procCopy]

theorem proc_end : s.proc true [(Binlog.of seq BinlogType.copy BinlogCommand.end key).buf, val] =
    ({ s with lastKey := [] }.saveStatus, none) := by
  have hn : BinlogCommand.end ≠ BinlogCommand.begin := by decide
  simp [proc, procCopy, hn]

-- What a message about a key does, which has been sent for a log or for a copy.
structure Receives (s : Slave) (log : Binlog) (key : Bytes) (val : Option Bytes) (s' : Slave) : Prop where
  kv      : ∀ key', s'.kv key' = if key' = key then val else s.kv key'
  lastSeq : s'.lastSeq = log.seq
  lastKey : s'.lastKey = if log.type = BinlogType.copy then log.key else s.lastKey

theorem Receives.kv_of_ne (hr : s.Receives log key' v s') (hl : log.key = encodeKvKey key')
    (hk : log.key ≠ encodeKvKey key) : s'.kv key = s.kv key := by
  refine (hr.kv key).trans <| if_neg ?_
  rintro rfl
  exact hk hl

theorem proc_replicated {log : Binlog} (hl : Binlog.load (req.headD []) = some log)
    (ht : log.type = BinlogType.copy ∨ log.type = BinlogType.sync)
    (hc : log.cmd = BinlogCommand.kset ∨ log.cmd = BinlogCommand.kdel) :
    s.proc true req = s.procSync true log req := by
  have hb : log.cmd ≠ BinlogCommand.begin ∧ log.cmd ≠ BinlogCommand.end := by
    rcases hc with hc | hc <;> rw [hc] <;> decide
  simp only [proc, hl]
  split
  case isTrue       => simp [procCopy, hb]
  case isFalse hn   => rw [if_pos <| .inl <| ht.resolve_left hn]

theorem receives_kset (ht : log.type = BinlogType.copy ∨ log.type = BinlogType.sync)
    (hc : log.cmd = BinlogCommand.kset) (hk : log.key = encodeKvKey key) (hn : key ≠ []) :
    s.Receives log key (some val) (s.proc true [log.buf, val]).1 := by
  rw [proc_replicated (by simp) ht (.inl hc)]
  have hr : (s.ssdb.set true key val).2 ≠ -1 := by simp [SSDBImpl.ret_set]
  simp only [procSync, redo, hc, if_true, hk, decodeKvKey, encodeKvKey, Option.map_some, hr, if_false]
  exact ⟨SSDBImpl.kv_set hn, rfl, rfl⟩

theorem receives_copy (seq : UInt64) (hn : key ≠ []) :
    let log := Binlog.of seq BinlogType.copy BinlogCommand.kset (encodeKvKey key)
    s.Receives log key (some val) (s.proc true [log.buf, val]).1 :=
  receives_kset (.inl Binlog.type_of) Binlog.cmd_of Binlog.key_of hn

theorem receives_kdel (ht : log.type = BinlogType.copy ∨ log.type = BinlogType.sync)
    (hc : log.cmd = BinlogCommand.kdel) (hk : log.key = encodeKvKey key) :
    s.Receives log key none (s.proc true [log.buf]).1 := by
  have hn : BinlogCommand.kdel ≠ BinlogCommand.kset := by decide
  rw [proc_replicated (by simp) ht (.inr hc)]
  have hr : (s.ssdb.del true key).2 ≠ -1 := by simp [SSDBImpl.ret_del]
  simp only [procSync, redo, hc, hn, if_true, hk, decodeKvKey, encodeKvKey, Option.map_some, hr, if_false]
  exact ⟨SSDBImpl.kv_del, rfl, rfl⟩

end Slave

end Ssdb
