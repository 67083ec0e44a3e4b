import LabSystems.Ssdb.SSDBImpl

namespace Ssdb

def decodeKvKey : Bytes → Option Bytes
  | []       => none
  | _ :: key => some key

-- The id is printed into a buffer of 128 bytes.
structure Slave where
  id      : Bytes
  idLen   : id.length < 128
  lastSeq : UInt64
  lastKey : Bytes
  ssdb    : SSDBImpl
  «meta»  : SSDBImpl
  deriving DecidableEq

namespace Slave

def statusKey (s : Slave) : Bytes :=
  .ofString "slave.status." ++ s.id

def lastKeyField : Bytes := .ofString "last_key"
def lastSeqField : Bytes := .ofString "last_seq"

def loadStatus (s : Slave) : Slave :=
  let key := s.meta.hget true s.statusKey lastKeyField |>.val
  let seq := s.meta.hget true s.statusKey lastSeqField |>.val
  { s with
    lastKey := if key ≠ [] then key else s.lastKey
    lastSeq := if seq ≠ [] then strToUint64 seq else s.lastSeq }

def hsetMeta (s : Slave) (key val : Bytes) : Slave :=
  { s with «meta» := s.meta.hset ⟨true, true, true⟩ s.statusKey key val BinlogType.sync |>.1 }

def saveStatus (s : Slave) : Slave :=
  let seq := str s.lastSeq
  s.hsetMeta lastKeyField s.lastKey |>.hsetMeta lastSeqField seq

-- The call to the store that a log asks for, if there is one.
def redo (s : Slave) (ok : Bool) (log : Binlog) (req : List Bytes) : Option (SSDBImpl × Int) :=
  if log.cmd = BinlogCommand.kset then
    match req with
    | [_, val] => decodeKvKey log.key |>.map (s.ssdb.set ok · val)
    | _        => none
  else if log.cmd = BinlogCommand.kdel then
    decodeKvKey log.key |>.map (s.ssdb.del ok)
  else
    none

-- The position moves on to a log.
def advance (s : Slave) (log : Binlog) : Slave :=
  let lastKey := if log.type = BinlogType.copy then log.key else s.lastKey
  { s with lastSeq := log.seq, lastKey := lastKey }.saveStatus

-- Here and below, the second component is what the call to the store has returned.
def procSync (s : Slave) (ok : Bool) (log : Binlog) (req : List Bytes) : Slave × Option Int :=
  match s.redo ok log req with
  | none             => (s.advance log, none)
  | some (ssdb, ret) =>
    let s := { s with ssdb := ssdb }
    (if ret = -1 then s else s.advance log, some ret)

def procCopy (s : Slave) (ok : Bool) (log : Binlog) (req : List Bytes) : Slave × Option Int :=
  if log.cmd = BinlogCommand.begin then
    (s, none)
  else if log.cmd = BinlogCommand.end then
    ({ s with lastKey := [] }.saveStatus, none)
  else
    s.procSync ok log req

def proc (s : Slave) (ok : Bool) (req : List Bytes) : Slave × Option Int :=
  match Binlog.load (req.headD []) with
  | none     => (s, none)
  | some log =>
    if log.type = BinlogType.copy then
      s.procCopy ok log req
    else if log.type = BinlogType.sync ∨ log.type = BinlogType.mirror then
      s.procSync ok log req
    else
      (s, none)

-- The process is restarted, with the data that its databases have had before.
def restart (s : Slave) : Slave :=
  { s with lastSeq := 0, lastKey := [], ssdb := .open s.ssdb.ldb, «meta» := .open s.meta.ldb }.loadStatus

-- A message is received, for which the call to the store succeeds or fails, or the process is
-- restarted.
inductive Action
  | proc (ok : Bool) (req : List Bytes)
  | restart
  deriving DecidableEq, Repr

def call (s : Slave) : Action → Slave × Option Int
  | .proc ok req => s.proc ok req
  | .restart     => (s.restart, none)

end Slave

def slave (s : Slave) : Machine Slave Slave.Action Int where
  init     := s.restart
  step s a := some <| s.call a |>.map id Option.toList

end Ssdb
