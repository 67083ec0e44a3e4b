import LabSystems.Machine.Basic
import LabSystems.Ssdb.Binlog

namespace Ssdb

def keyLenMax : Nat := 255

def encodeKvKey (key : Bytes) : Bytes :=
  DataType.kv :: key

def encodeHsizeKey (name : Bytes) : Bytes :=
  DataType.hsize :: name

-- The length of the name is truncated to a byte.
def encodeHashKey (name key : Bytes) : Bytes :=
  DataType.hash :: name.length.toUInt8 :: name ++ '='.toUInt8 :: key

-- What a call returns that reads a value: -1 for an error, 0 if there is none, and 1 with the value.
inductive GetResult
  | error
  | notFound
  | found (val : Bytes)
  deriving DecidableEq, Repr

namespace GetResult

def ret : GetResult → Int
  | error    => -1
  | notFound => 0
  | found _  => 1

-- The string that holds the value stays empty if none is found.
def val : GetResult → Bytes
  | found val => val
  | _         => []

end GetResult

-- Which of the calls to LevelDB succeed that `hset` makes.
structure Calls where
  hget  : Bool
  hsize : Bool
  write : Bool
  deriving DecidableEq, Repr

structure SSDBImpl where
  ldb     : DB
  binlogs : BinlogQueue
  deriving DecidableEq

namespace SSDBImpl

-- The database is opened with the data that it has had before.
def «open» (ldb : DB) : SSDBImpl :=
  ⟨ldb, .new ldb⟩

def commit (s : SSDBImpl) (ok : Bool) : SSDBImpl :=
  let r := s.binlogs.commit s.ldb ok
  ⟨r.1, r.2⟩

-- A `Transaction` begins when it is constructed, and is rolled back when it is destructed.
def transaction (s : SSDBImpl) (f : SSDBImpl → SSDBImpl × Int) : SSDBImpl × Int :=
  let r := f { s with binlogs := s.binlogs.begin }
  ({ r.1 with binlogs := r.1.binlogs.rollback }, r.2)

def set (s : SSDBImpl) (ok : Bool) (key val : Bytes) : SSDBImpl × Int :=
  if key = [] then
    (s, 0)
  else
    s.transaction fun s =>
      let buf := encodeKvKey key
      let binlogs := s.binlogs.put buf val |>.addLog BinlogType.sync BinlogCommand.kset buf
      ({ s with binlogs := binlogs }.commit ok, if ok then 1 else -1)

def del (s : SSDBImpl) (ok : Bool) (key : Bytes) : SSDBImpl × Int :=
  s.transaction fun s =>
    let buf := encodeKvKey key
    let binlogs := s.binlogs.delete buf |>.addLog BinlogType.sync BinlogCommand.kdel buf
    ({ s with binlogs := binlogs }.commit ok, if ok then 1 else -1)

def ldbGet (s : SSDBImpl) (ok : Bool) (key : Bytes) : GetResult :=
  if ok then
    match s.ldb.get key with
    | none     => .notFound
    | some val => .found val
  else
    .error

def get (s : SSDBImpl) (ok : Bool) (key : Bytes) : GetResult :=
  s.ldbGet ok (encodeKvKey key)

def rawGet (s : SSDBImpl) (ok : Bool) (key : Bytes) : GetResult :=
  s.ldbGet ok key

def hget (s : SSDBImpl) (ok : Bool) (name key : Bytes) : GetResult :=
  s.ldbGet ok (encodeHashKey name key)

-- A size is stored as the memory of a signed integer.
def hsize (s : SSDBImpl) (ok : Bool) (name : Bytes) : Int64 :=
  match s.ldbGet ok (encodeHsizeKey name) with
  | .error     => -1
  | .notFound  => 0
  | .found val =>
    if val.length ≠ 8 then
      0
    else
      let ret := (ofMemory val).toInt64
      if ret < 0 then 0 else ret

def incrHsize (s : SSDBImpl) (ok : Bool) (name : Bytes) (incr : Int64) : SSDBImpl :=
  let size := s.hsize ok name + incr
  let sizeKey := encodeHsizeKey name
  if size = 0 then
    { s with binlogs := s.binlogs.delete sizeKey }
  else
    { s with binlogs := s.binlogs.put sizeKey (memory size.toUInt64) }

def hsetOne (s : SSDBImpl) (ok : Bool) (name key val : Bytes) (logType : UInt8) : SSDBImpl × Int :=
  let put :=
    let hkey := encodeHashKey name key
    { s with binlogs := s.binlogs.put hkey val |>.addLog logType BinlogCommand.hset hkey }
  if name = [] ∨ key = [] then
    (s, -1)
  else if name.length > keyLenMax then
    (s, -1)
  else if key.length > keyLenMax then
    (s, -1)
  else
    let r := s.hget ok name key
    if r.ret = 0 then
      (put, 1)
    else if r.val ≠ val then
      (put, 0)
    else
      (s, 0)

def hset (s : SSDBImpl) (calls : Calls) (name key val : Bytes) (logType : UInt8) : SSDBImpl × Int :=
  s.transaction fun s =>
    let r := s.hsetOne calls.hget name key val logType
    if r.2 ≥ 0 then
      let s := if r.2 > 0 then r.1.incrHsize calls.hsize name (Int64.ofInt r.2) else r.1
      (s.commit calls.write, if calls.write then r.2 else -1)
    else
      r

end SSDBImpl

-- The calls that change the data, with the calls to LevelDB that succeed in them, and a restart of
-- the process.
inductive Action
  | set (ok : Bool) (key val : Bytes)
  | del (ok : Bool) (key : Bytes)
  | hset (calls : Calls) (name key val : Bytes) (logType : UInt8)
  | reopen
  deriving DecidableEq, Repr

-- What a call returns.
def SSDBImpl.call (s : SSDBImpl) : Action → SSDBImpl × Option Int
  | .set ok key val                   => s.set ok key val |>.map id some
  | .del ok key                       => s.del ok key |>.map id some
  | .hset calls name key val logType  => s.hset calls name key val logType |>.map id some
  | .reopen                           => (.open s.ldb, none)

def ssdb : Machine SSDBImpl Action Int where
  init     := .open .empty
  step s a := some <| s.call a |>.map id Option.toList

abbrev Transition :=
  ssdb.Transition

end Ssdb
