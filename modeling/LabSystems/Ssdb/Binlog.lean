import LabSystems.Ordered.Map
import LabSystems.Ssdb.Strings

namespace Ssdb

open Ordered (Write Cursor)

namespace DataType

def synclog   : UInt8 := 1
def kv        : UInt8 := 'k'.toUInt8
def hash      : UInt8 := 'h'.toUInt8
def hsize     : UInt8 := 'H'.toUInt8
def zset      : UInt8 := 's'.toUInt8
def minPrefix : UInt8 := hash
def maxPrefix : UInt8 := zset

end DataType

namespace BinlogType

def noop   : UInt8 := 0
def sync   : UInt8 := 1
def mirror : UInt8 := 2
def copy   : UInt8 := 3
def ctrl   : UInt8 := 4

end BinlogType

namespace BinlogCommand

def none  : UInt8 := 0
def kset  : UInt8 := 1
def kdel  : UInt8 := 2
def hset  : UInt8 := 3
def begin : UInt8 := 7
def «end» : UInt8 := 8

end BinlogCommand

-- The greatest sequence number, of which `findLast` assumes that it is not used.
abbrev maxSeq : UInt64 :=
  0xffffffffffffffff

def encodeSeqKey (seq : UInt64) : Bytes :=
  DataType.synclog :: memory (bigEndian seq)

def decodeSeqKey (key : Bytes) : UInt64 :=
  match key with
  | []      => 0
  | t :: bs => if bs.length = 8 ∧ t = DataType.synclog then bigEndian (ofMemory bs) else 0

-- The header consists of the sequence number, the type and the command.
@[ext]
structure Binlog where
  buf    : Bytes
  header : 10 ≤ buf.length
  deriving DecidableEq

namespace Binlog

def of (seq : UInt64) (type cmd : UInt8) (key : Bytes) : Binlog where
  buf    := memory seq ++ type :: cmd :: key
  header := by simp; omega

def load (s : Bytes) : Option Binlog :=
  if h : 10 ≤ s.length then some ⟨s, h⟩ else none

def seq (log : Binlog) : UInt64 :=
  ofMemory log.buf

def type (log : Binlog) : UInt8 :=
  log.buf.get ⟨8, Nat.lt_of_lt_of_le (by omega) log.header⟩

def cmd (log : Binlog) : UInt8 :=
  log.buf.get ⟨9, Nat.lt_of_lt_of_le (by omega) log.header⟩

def key (log : Binlog) : Bytes :=
  log.buf.drop 10

variable {seq : UInt64} {type cmd : UInt8} {key : Bytes}

@[simp]
theorem load_buf (log : Binlog) : load log.buf = some log :=
  dif_pos log.header

theorem load_eq_some {log : Binlog} : load s = some log ↔ log.buf = s := by
  unfold load
  split
  case isTrue => simp [Binlog.ext_iff, eq_comm]
  case isFalse h =>
    simp only [reduceCtorEq, false_iff]
    exact fun he => h <| he ▸ log.header

@[simp]
theorem seq_of : (of seq type cmd key).seq = seq :=
  ofMemory_append

@[simp]
theorem type_of : (of seq type cmd key).type = type := by
  simp [Binlog.type, of, List.getElem_append_right]

@[simp]
theorem cmd_of : (of seq type cmd key).cmd = cmd := by
  simp [Binlog.cmd, of, List.getElem_append_right]

@[simp]
theorem key_of : (of seq type cmd key).key = key := by
  simp [Binlog.key, of, List.drop_append]

end Binlog

-- LevelDB is an ordered map with atomic batches and iterators over snapshots.
abbrev DB :=
  Ordered.Map Bytes Bytes

-- The result of a search for a log: there is none, it is invalid, or it has been loaded.
inductive Find
  | missing
  | invalid
  | found (log : Binlog)
  deriving DecidableEq

def Find.load (val : Bytes) : Find :=
  match Binlog.load val with
  | none     => invalid
  | some log => found log

structure BinlogQueue where
  lastSeq : UInt64
  tranSeq : UInt64
  batch   : List (Write Bytes Bytes)
  deriving DecidableEq

namespace BinlogQueue

def begin (q : BinlogQueue) : BinlogQueue :=
  { q with tranSeq := q.lastSeq, batch := [] }

def put (q : BinlogQueue) (key val : Bytes) : BinlogQueue :=
  { q with batch := q.batch ++ [.put key val] }

def delete (q : BinlogQueue) (key : Bytes) : BinlogQueue :=
  { q with batch := q.batch ++ [.delete key] }

def addLog (q : BinlogQueue) (type cmd : UInt8) (key : Bytes) : BinlogQueue :=
  let seq := q.tranSeq + 1
  { q with tranSeq := seq }.put (encodeSeqKey seq) (Binlog.of seq type cmd key).buf

-- A write that fails leaves the database unchanged.
def commit (q : BinlogQueue) (db : DB) (ok : Bool) : DB × BinlogQueue :=
  if ok then (db.write q.batch, { q with lastSeq := q.tranSeq, tranSeq := 0 }) else (db, q)

def rollback (q : BinlogQueue) : BinlogQueue :=
  { q with tranSeq := 0 }

def findLast (db : DB) : Find :=
  let it := Cursor.seek ⟨db, none⟩ <| encodeSeqKey maxSeq
  let it := if it.entry.isNone then it.seekToLast else it.prev
  match it.entry with
  | none            => .missing
  | some (key, val) => if decodeSeqKey key ≠ 0 then .load val else .missing

def get (db : DB) (seq : UInt64) : Option Binlog :=
  db.get (encodeSeqKey seq) |>.bind Binlog.load

def findNext (db : DB) (seq : UInt64) : Find :=
  match get db seq with
  | some log => .found log
  | none     =>
    match (Cursor.seek ⟨db, none⟩ <| encodeSeqKey seq).entry with
    | none            => .missing
    | some (key, val) => if decodeSeqKey key ≠ 0 then .load val else .missing

def new (db : DB) : BinlogQueue where
  lastSeq := match findLast db with
    | .found log => log.seq
    | _          => 0
  tranSeq := 0
  batch   := []

end BinlogQueue

end Ssdb
