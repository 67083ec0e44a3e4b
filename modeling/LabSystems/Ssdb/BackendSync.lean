import LabSystems.Ssdb.Slave

namespace Ssdb

open Ordered (Cursor)

-- An iterator moves forward over a snapshot, and stays where it is on the first move.
structure Iterator where
  cursor  : Cursor Bytes Bytes
  isFirst : Bool
  deriving DecidableEq

def Iterator.next (it : Iterator) : Iterator :=
  if it.isFirst then { it with isFirst := false } else { it with cursor := it.cursor.next }

-- There is no limit to how far it moves.
def SSDBImpl.iterator (s : SSDBImpl) (start : Bytes) : Iterator :=
  let cursor := Cursor.seek ⟨s.ldb, none⟩ start
  let cursor := if cursor.entry.map (·.1) = some start then cursor.next else cursor
  ⟨cursor, true⟩

namespace Client

inductive Status
  | init
  | outOfSync
  | copy
  | sync
  deriving DecidableEq

-- Where a thread is: it is about to look for a log, to read the value for a log, to enter `copy`, or
-- to go on in the loop of `copy`.
inductive Position
  | sync
  | rawGet (log : Binlog)
  | copy
  | iterate (count : Nat)
  deriving DecidableEq

end Client

structure Client where
  status      : Client.Status
  lastSeq     : UInt64
  lastNoopSeq : UInt64
  lastKey     : Bytes
  isMirror    : Bool
  iter        : Option Iterator
  position    : Client.Position
  deriving DecidableEq

namespace Client

def new : Client where
  status      := .init
  lastSeq     := 0
  lastNoopSeq := 0
  lastKey     := []
  isMirror    := false
  iter        := none
  position    := .sync

-- Here and below, the second component is what is sent.
def reset (c : Client) : Client × List (List Bytes) :=
  let c := { c with status := .copy, lastSeq := 0, lastKey := [] }
  let log := Binlog.of c.lastSeq BinlogType.copy BinlogCommand.begin []
  (c, [[log.buf, .ofString "copy_begin"]])

def init (c : Client) (req : List Bytes) : Client × List (List Bytes) :=
  let c := { c with
    lastSeq  := req[1]?.elim 0 strToUint64
    lastKey  := req[2]?.getD c.lastKey
    isMirror := c.isMirror || req[3]? == some (.ofString "mirror") }
  if c.lastKey = [] ∧ c.lastSeq = 0 then c.reset else (c, [])

def noop (c : Client) : Client × List (List Bytes) :=
  let message (seq : UInt64) :=
    [(Binlog.of seq BinlogType.noop BinlogCommand.none []).buf, .ofString "noop"]
  if c.status = .copy ∧ c.lastKey = [] then
    (c, [message 0])
  else
    ({ c with lastNoopSeq := c.lastSeq }, [message c.lastSeq])

def outOfSync (c : Client) : Client × List (List Bytes) :=
  let log := Binlog.of c.lastSeq BinlogType.ctrl BinlogCommand.none (.ofString "OUT_OF_SYNC")
  ({ c with status := .outOfSync }, [[log.buf]])

-- The loop calls `copy` after `sync` has returned, if its status tells it to.
def returned (c : Client) : Client :=
  { c with position := if c.status = .copy then .copy else .sync }

def find (c : Client) (db : DB) : Find :=
  if c.status = .copy ∧ c.lastSeq = 0 then
    BinlogQueue.findLast db
  else
    BinlogQueue.findNext db (c.lastSeq + 1)

def sync (c : Client) (log : Binlog) : Client × List (List Bytes) :=
  if c.status = .copy ∧ c.lastKey < log.key then
    ({ c with lastSeq := log.seq, iter := none }, [])
  else if c.lastSeq ≠ 0 ∧ log.seq ≠ c.lastSeq + 1 then
    c.outOfSync
  else
    let c := { c with lastSeq := log.seq }
    if log.type = BinlogType.mirror ∧ c.isMirror then
      if c.lastSeq - c.lastNoopSeq ≥ 1000 then
        c.noop.map returned id
      else
        (c, [])
    else if log.cmd = BinlogCommand.kset then
      ({ c with position := .rawGet log }, [])
    else if log.cmd = BinlogCommand.kdel then
      (c.returned, [[log.buf]])
    else
      (c.returned, [])

def rawGet (c : Client) (ssdb : SSDBImpl) (log : Binlog) : Client × List (List Bytes) :=
  match ssdb.rawGet true log.key with
  | .found val => (c.returned, [[log.buf, val]])
  | _          => (c.returned, [])

def copyStart (c : Client) : Bytes :=
  if c.lastKey = [] then c.lastKey ++ [DataType.minPrefix] else c.lastKey

def copyEnd (c : Client) : Client × List (List Bytes) :=
  let log := Binlog.of c.lastSeq BinlogType.copy BinlogCommand.end []
  ({ c with status := .sync, iter := none, position := .sync }, [[log.buf, .ofString "copy_end"]])

-- One pass of the loop of `copy`. The type of a key is a signed character.
def iterate (c : Client) (it : Iterator) (count : Nat) : Client × List (List Bytes) :=
  if count + 1 > 1000 then
    ({ c with position := .sync }, [])
  else
    let it := it.next
    let c := { c with iter := some it, position := .iterate (count + 1) }
    match it.cursor.entry with
    | none                => c.copyEnd
    | some ([], _)        => (c, [])
    | some (t :: key, val) =>
      if t.toInt8 > DataType.maxPrefix.toInt8 then
        c.copyEnd
      else
        let c := { c with lastKey := t :: key }
        if t = DataType.kv then
          (c, [[(Binlog.of c.lastSeq BinlogType.copy BinlogCommand.kset (t :: key)).buf, val]])
        else
          (c, [])

-- What the thread does next. It has no defined behaviour for a log that cannot be loaded.
def step (c : Client) (ssdb : SSDBImpl) : Option (Client × List (List Bytes)) :=
  match c.position with
  | .sync =>
    if c.status = .outOfSync then
      some (c, [])
    else
      match c.find ssdb.ldb with
      | .missing   => some (c.returned, [])
      | .invalid   => none
      | .found log => some <| c.sync log
  | .rawGet log    => some <| c.rawGet ssdb log
  | .copy          =>
    some ({ c with iter := c.iter <|> some (ssdb.iterator c.copyStart), position := .iterate 0 }, [])
  | .iterate count => c.iter.map (c.iterate · count)

end Client

def Slave.request (s : Slave) : List Bytes :=
  [.ofString "sync140", str s.lastSeq, s.lastKey, .ofString "sync"]

-- A master, the thread that serves the slave, the messages which it has sent and the slave has not
-- received, and the slave.
structure Replication where
  master  : SSDBImpl
  client  : Option Client
  channel : List (List Bytes)
  slave   : Slave

namespace Replication

inductive Action
  | set (ok : Bool) (key val : Bytes)
  | del (ok : Bool) (key : Bytes)
  | connect
  | work
  | receive
  | restart
  deriving DecidableEq, Repr

-- Messages are received in the order in which they are sent. A restart of the slave loses those that
-- have not been received, and the thread that has sent them.
def step (s : Replication) : Action → Option Replication
  | .set ok key val => some { s with master := s.master.set ok key val |>.1 }
  | .del ok key     => some { s with master := s.master.del ok key |>.1 }
  | .connect        =>
    match s.client with
    | some _ => none
    | none   =>
      let r := Client.new.init s.slave.request
      some { s with client := r.1, channel := r.2 }
  | .work           => do
    let c ← s.client
    let r ← c.step s.master
    return { s with client := r.1, channel := s.channel ++ r.2 }
  | .receive        =>
    match s.channel with
    | []       => none
    | m :: ms  => some { s with slave := s.slave.proc true m |>.1, channel := ms }
  | .restart        => some { s with client := none, channel := [], slave := s.slave.restart }

end Replication

theorem length_nil_lt : ([] : Bytes).length < 128 :=
  by decide

-- Both stores are empty at first.
def replication (id : Bytes) (h : id.length < 128) : Machine Replication Replication.Action Unit where
  init     := ⟨.open .empty, none, [], ⟨id, h, 0, [], .open .empty, .open .empty⟩⟩
  step s a := s.step a |>.map (·, [])

end Ssdb
