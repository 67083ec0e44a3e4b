import LabSystems.Machine.Basic
import LabSystems.Bytes.Hex
import LabSystems.Nsqd.Message

namespace Nsqd

abbrev Guid := Int64

def nodeIDBits     : Int64 := 10
def sequenceBits   : Int64 := 12
def nodeIDShift    : Int64 := sequenceBits
def timestampShift : Int64 := sequenceBits + nodeIDBits
def sequenceMask   : Int64 := (-1 : Int64) ^^^ (-1 : Int64) <<< sequenceBits
def twepoch        : Int64 := 1288834974288

-- The node number of every topic.
def nodeID : Int64 := 123456

def errTimeBackwards   : String := "time has gone backwards"
def errSequenceExpired : String := "sequence expired"
def errIDBackwards     : String := "ID went backward"

structure GuidFactory where
  nodeID        : Int64
  sequence      : Int64 := 0
  lastTimestamp : Int64 := 0
  lastID        : Guid  := 0
  deriving DecidableEq, Repr

namespace GuidFactory

def id (nodeID ts sequence : Int64) : Guid :=
  (ts - twepoch) <<< timestampShift ||| nodeID <<< nodeIDShift ||| sequence

-- The clock is read in pseudo-milliseconds.
def newGUID (f : GuidFactory) (ts : Int64) : Except String Guid × GuidFactory :=
  if ts < f.lastTimestamp then
    (.error errTimeBackwards, f)
  else
    let sequence := if f.lastTimestamp = ts then (f.sequence + 1) &&& sequenceMask else 0
    if f.lastTimestamp = ts ∧ sequence = 0 then
      (.error errSequenceExpired, { f with sequence })
    else
      let id := id f.nodeID ts sequence
      if id ≤ f.lastID then
        (.error errIDBackwards, { f with sequence, lastTimestamp := ts })
      else
        (.ok id, { f with sequence, lastTimestamp := ts, lastID := id })

end GuidFactory

def Guid.byte (g : Guid) : UInt8 :=
  g.toUInt64.toUInt8

def Guid.hex (g : Guid) : MessageID where
  bytes  := Bytes.hex <| ([56, 48, 40, 32, 24, 16, 8, 0] : List Int64).map fun k => Guid.byte (g >>> k)
  length := by simp [msgIDLength]

-- The calls of `NewGUID`, which a lock puts in an order.
def newGUIDFactory (nodeID : Int64) : Machine GuidFactory Int64 (Except String Guid) where
  init      := { nodeID }
  step f ts := some ((f.newGUID ts).2, [(f.newGUID ts).1])

end Nsqd
