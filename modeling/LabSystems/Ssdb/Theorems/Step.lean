import LabSystems.Ssdb.Theorems.Keys

namespace Ssdb

open Ordered (Map Write)

-- The names and keys that `hset` does not refuse.
structure Accepted (name key : Bytes) : Prop where
  name_ne : name ≠ []
  key_ne  : key ≠ []
  name_le : name.length ≤ keyLenMax
  key_le  : key.length ≤ keyLenMax

instance : Decidable (Accepted name key) :=
  decidable_of_iff (name ≠ [] ∧ key ≠ [] ∧ name.length ≤ keyLenMax ∧ key.length ≤ keyLenMax)
    ⟨fun ⟨h₁, h₂, h₃, h₄⟩ => ⟨h₁, h₂, h₃, h₄⟩, fun ⟨h₁, h₂, h₃, h₄⟩ => ⟨h₁, h₂, h₃, h₄⟩⟩

namespace SSDBImpl

structure Keeps (s s' : SSDBImpl) : Prop where
  ldb     : s'.ldb = s.ldb
  lastSeq : s'.binlogs.lastSeq = s.binlogs.lastSeq

-- A log is appended, together with some writes of data.
structure Appends (s : SSDBImpl) (writes : List (Write Bytes Bytes)) (type cmd : UInt8) (key : Bytes)
    (s' : SSDBImpl) : Prop where
  lastSeq : s'.binlogs.lastSeq = s.binlogs.lastSeq + 1
  ldb     : s'.ldb = (s.ldb.write writes).insert (encodeSeqKey (s.binlogs.lastSeq + 1))
    (Binlog.of (s.binlogs.lastSeq + 1) type cmd key).buf

-- The write of `incrHsize`.
def sizeWrite (s : SSDBImpl) (ok : Bool) (name : Bytes) : Write Bytes Bytes :=
  if s.hsize ok name + 1 = 0 then
    .delete (encodeHsizeKey name)
  else
    .put (encodeHsizeKey name) (memory (s.hsize ok name + 1).toUInt64)

theorem sizeWrite_key {s : SSDBImpl} : (s.sizeWrite ok name).key = encodeHsizeKey name := by
  unfold sizeWrite
  split <;> rfl

end SSDBImpl

-- What a call can do, with the guards under which it does it.
inductive Step (s : SSDBImpl) : Action → SSDBImpl → Prop
  | setKeep (refused : key = [] ∨ ok = false) (keeps : s.Keeps s') : Step s (.set ok key val) s'
  | set (named : key ≠ []) (appends : s.Appends [.put (encodeKvKey key) val] BinlogType.sync
      BinlogCommand.kset (encodeKvKey key) s') : Step s (.set true key val) s'
  | delKeep (keeps : s.Keeps s') : Step s (.del false key) s'
  | del (appends : s.Appends [.delete (encodeKvKey key)] BinlogType.sync BinlogCommand.kdel
      (encodeKvKey key) s') : Step s (.del true key) s'
  | hsetRefused (refused : ¬Accepted name key) (keeps : s.Keeps s') :
    Step s (.hset calls name key val logType) s'
  | hsetFailed (failed : calls.write = false) (keeps : s.Keeps s') :
    Step s (.hset calls name key val logType) s'
  | hsetSame (accepted : Accepted name key) (there : (s.hget calls.hget name key).ret ≠ 0)
    (same : (s.hget calls.hget name key).val = val) (keeps : s.Keeps s') :
    Step s (.hset calls name key val logType) s'
  | hsetOver (accepted : Accepted name key) (write : calls.write = true)
    (there : (s.hget calls.hget name key).ret ≠ 0) (differ : (s.hget calls.hget name key).val ≠ val)
    (appends : s.Appends [.put (encodeHashKey name key) val] logType BinlogCommand.hset
      (encodeHashKey name key) s') : Step s (.hset calls name key val logType) s'
  | hsetNew (accepted : Accepted name key) (write : calls.write = true)
    (new : (s.hget calls.hget name key).ret = 0)
    (appends : s.Appends [.put (encodeHashKey name key) val, s.sizeWrite calls.hsize name] logType
      BinlogCommand.hset (encodeHashKey name key) s') : Step s (.hset calls name key val logType) s'
  | reopen : Step s .reopen (.open s.ldb)

namespace SSDBImpl

variable {s s' : SSDBImpl} {writes : List (Write Bytes Bytes)}

theorem Appends.get_of_head? (h : s.Appends writes type cmd k s') (hk : key.head? = some t)
    (ht : t ≠ DataType.synclog) : s'.ldb.get key = (s.ldb.write writes).get key := by
  rw [h.ldb, Map.get_insert_ne <| ne_of_head? hk rfl ht]

-- Writes to other types of data, and logs.
theorem Appends.get_other (h : s.Appends writes type cmd k s') (hk : key.head? = some t)
    (ht : t ≠ DataType.synclog) (hw : ∀ w ∈ writes, key ≠ w.key) : s'.ldb.get key = s.ldb.get key :=
  (h.get_of_head? hk ht).trans <| Map.get_write_of_ne hw

-- A field is put, together with a size.
theorem Appends.get_hash (h : s.Appends (.put (encodeHashKey name key) val :: writes) type cmd k s')
    (hf : field.head? = some DataType.hash)
    (hw : ∀ w ∈ writes, w.key.head? = some DataType.hsize) : s'.ldb.get field =
      if field = encodeHashKey name key then some val else s.ldb.get field := by
  rw [h.get_of_head? hf (by decide), Map.write, List.foldl_cons, ← Map.write,
    Map.get_write_of_ne fun w hm => ne_of_head? hf (hw w hm) (by decide), Write.apply, Map.get_insert]

theorem set_step : Step s (.set ok key val) (s.set ok key val).1 := by
  unfold set
  split
  case isTrue h => exact .setKeep (.inl h) ⟨rfl, rfl⟩
  case isFalse h =>
    cases ok
    case false => exact .setKeep (.inr rfl) ⟨rfl, rfl⟩
    case true  => exact .set h ⟨rfl, rfl⟩

theorem del_step : Step s (.del ok key) (s.del ok key).1 := by
  cases ok
  case false => exact .delKeep ⟨rfl, rfl⟩
  case true  => exact .del ⟨rfl, rfl⟩

theorem hsetOne_refused (h : ¬Accepted name key) : s.hsetOne ok name key val logType = (s, -1) := by
  unfold hsetOne
  split
  case isTrue => rfl
  case isFalse hne =>
    split
    case isTrue => rfl
    case isFalse hn =>
      have ⟨hn', hk'⟩ := not_or.mp hne
      exact if_pos <| not_le.mp fun hk => h ⟨hn', hk', not_lt.mp hn, hk⟩

theorem hsetOne_accepted (h : Accepted name key) : s.hsetOne ok name key val logType =
    let hkey := encodeHashKey name key
    let put := { s with binlogs := s.binlogs.put hkey val |>.addLog logType BinlogCommand.hset hkey }
    if (s.hget ok name key).ret = 0 then (put, 1)
    else if (s.hget ok name key).val ≠ val then (put, 0) else (s, 0) := by
  have hn := not_lt_of_ge h.name_le
  have hk := not_lt_of_ge h.key_le
  simp [hsetOne, h.name_ne, h.key_ne, hn, hk]

theorem incrHsize_one : s.incrHsize ok name 1 =
    { s with binlogs := { s.binlogs with batch := s.binlogs.batch ++ [s.sizeWrite ok name] } } := by
  simp only [incrHsize, sizeWrite]
  split <;> rfl

theorem hset_step : Step s (.hset calls name key val logType) (s.hset calls name key val logType).1 := by
  have ⟨okGet, okSize, okWrite⟩ := calls
  by_cases ha : Accepted name key
  case neg =>
    refine .hsetRefused ha ?_
    simp only [hset, transaction, hsetOne_refused ha]
    exact ⟨rfl, rfl⟩
  case pos =>
    simp only [hset, transaction, hsetOne_accepted ha]
    split
    case isTrue hr =>
      simp only [Int.reduceLT, Int.reduceLE, if_true, gt_iff_lt, ge_iff_le, Int64.reduceOfInt,
        incrHsize_one]
      cases okWrite
      case false => exact .hsetFailed rfl ⟨rfl, rfl⟩
      case true  =>
        refine .hsetNew ha rfl hr ⟨rfl, Write.apply_insert ?_⟩
        rw [sizeWrite_key]
        exact ne_of_head? head?_encodeHsizeKey head?_encodeSeqKey (by decide)
    case isFalse hr =>
      split
      case isTrue hv =>
        cases okWrite
        case false => exact .hsetFailed rfl ⟨rfl, rfl⟩
        case true  => exact .hsetOver ha rfl hr hv ⟨rfl, rfl⟩
      case isFalse hv =>
        refine .hsetSame ha hr (not_not.mp hv) ?_
        cases okWrite <;> exact ⟨rfl, rfl⟩

theorem call_step (a : Action) : Step s a (s.call a).1 := by
  cases a
  case set    => exact set_step
  case del    => exact del_step
  case hset   => exact hset_step
  case reopen => exact .reopen

end SSDBImpl

theorem Step.of (t : Transition) : Step t.pre t.act t.post := by
  have h : (t.pre.call t.act).1 = t.post := congrArg Prod.fst <| Option.some.inj t.valid
  exact h ▸ SSDBImpl.call_step t.act

end Ssdb
