import Mathlib.Algebra.Ring.Int.Defs
import LabSystems.Machine.Basic

namespace Ae

-- Both fields have 64 bits. A sum that leaves the type wraps.
structure TimeVal where
  sec  : Int64
  usec : Int64
  deriving DecidableEq

namespace TimeVal

-- `timercmp` with `<`
def Before (a b : TimeVal) : Prop :=
  if a.sec = b.sec then a.usec < b.usec else a.sec < b.sec

instance : DecidableRel Before :=
  fun a b => inferInstanceAs <| Decidable (if a.sec = b.sec then a.usec < b.usec else a.sec < b.sec)

-- `timeradd`
def add (a b : TimeVal) : TimeVal :=
  if a.usec + b.usec ≥ 1000000 then
    ⟨a.sec + b.sec + 1, a.usec + b.usec - 1000000⟩
  else
    ⟨a.sec + b.sec, a.usec + b.usec⟩

-- What `gettimeofday` returns: seconds since the Epoch and the microseconds of the next one.
structure IsClock (t : TimeVal) : Prop where
  sec     : 0 ≤ t.sec
  usec    : 0 ≤ t.usec
  usec_lt : t.usec < 1000000

instance (t : TimeVal) : Decidable t.IsClock :=
  decidable_of_iff (0 ≤ t.sec ∧ 0 ≤ t.usec ∧ t.usec < 1000000)
    ⟨fun ⟨h₁, h₂, h₃⟩ => ⟨h₁, h₂, h₃⟩, fun h => ⟨h.sec, h.usec, h.usec_lt⟩⟩

end TimeVal

def AE_OK : Int := 0

def AE_ERR : Int := -1

def AE_NOMORE : Int := -1

-- A time event at its address. Callbacks and pointers to client data are values of arbitrary types.
structure TimeEvent (P D : Type) where
  addr       : Nat
  timeout    : TimeVal
  tv         : TimeVal
  timeProc   : P
  mask       : Int
  clientData : D
  deriving DecidableEq

def compare (a b : TimeEvent P D) : Int :=
  if a.timeout.Before b.timeout then -1
  else if b.timeout.Before a.timeout then 1
  else if a.addr < b.addr then -1
  else if a.addr > b.addr then 1
  else 0

-- What `malloc` returns, and what the field `clientData` has there.
structure Block (D : Type) where
  addr       : Nat
  clientData : D

-- What happens to a callback: its result and, if it is to be called again, the time and the memory for its new event.
-- A null pointer is `none`.
structure Outcome (D : Type) where
  retval : Int
  now    : TimeVal
  mem    : Option (Block D)

inductive Event (P D : Type)
  -- the application registers client data for an event, the memory of which holds other data before
  | create (addr : Nat) (clientData held : D)
  | call (addr : Nat) (timeProc : P) (clientData : D)
  -- an event is registered again, as another one
  | rearm (addr new : Nat) (held : D)
  deriving DecidableEq

-- The tree as an ordered set. No event is freed, so that `malloc` never returns the address of an earlier one.
structure EventLoop (P D : Type) where
  timetree  : List (TimeEvent P D)
  allocated : List Nat
  clock     : TimeVal

namespace EventLoop

variable {P D : Type}

def init (clock : TimeVal) : EventLoop P D where
  timetree  := []
  allocated := []
  clock     := clock

-- An element that is equal to one in the tree is not inserted.
def insertSorted (te : TimeEvent P D) : List (TimeEvent P D) → List (TimeEvent P D)
  | []     => [te]
  | x :: l =>
    if compare te x < 0 then te :: x :: l
    else if compare te x > 0 then x :: insertSorted te l
    else x :: l

def insert (s : EventLoop P D) (te : TimeEvent P D) : EventLoop P D :=
  { s with timetree := insertSorted te s.timetree }

def remove (s : EventLoop P D) (te : TimeEvent P D) : EventLoop P D :=
  { s with timetree := s.timetree.filter (·.addr ≠ te.addr) }

def min (s : EventLoop P D) : Option (TimeEvent P D) :=
  s.timetree.head?

-- The first element that is greater.
def next (s : EventLoop P D) (te : TimeEvent P D) : Option (TimeEvent P D) :=
  s.timetree.find? (compare te · < 0)

-- The clock does not go back.
def gettimeofday (s : EventLoop P D) (now : TimeVal) : Option (EventLoop P D) :=
  if now.Before s.clock ∨ ¬now.IsClock then none else some { s with clock := now }

def malloc (s : EventLoop P D) (b : Block D) : Option (EventLoop P D) :=
  if b.addr ∈ s.allocated then none else some { s with allocated := b.addr :: s.allocated }

-- The client data is not stored.
def createTimeEvent (s : EventLoop P D) (tv : Option TimeVal) (proc : P) (_clientData : D) (mask : Int)
    (now : TimeVal) (mem : Option (Block D)) : Option (EventLoop P D × Int) :=
  match tv, mem with
  | none, _         => some (s, AE_ERR)
  | some _, none    => some (s, AE_ERR)
  | some tv, some b => do
    let s ← s.malloc b
    let s ← s.gettimeofday now
    return (s.insert ⟨b.addr, now.add tv, tv, proc, mask, b.clientData⟩, AE_OK)

-- The re-registration of an event whose callback does not return `AE_NOMORE`.
def rearm (s : EventLoop P D) (te : TimeEvent P D) (o : Outcome D) : Option (EventLoop P D × List (Event P D)) :=
  if o.retval = AE_NOMORE then
    some (s, [])
  else do
    let (s, _) ← s.createTimeEvent (some te.tv) te.timeProc te.clientData 0 o.now o.mem
    return (s, o.mem.toList.map fun b => .rearm te.addr b.addr b.clientData)

-- The loop of `aeProcessTimeEvents` from event `te` on. There is an outcome for each callback.
def process (now : TimeVal) (te : Option (TimeEvent P D)) (outs : List (Outcome D)) (s : EventLoop P D) :
    Option (EventLoop P D × List (Event P D)) :=
  match te, outs with
  | none, _ => some (s, [])
  | some te, [] => if now.Before te.timeout then some (s, []) else none
  | some te, o :: outs =>
    if now.Before te.timeout then
      some (s, [])
    else do
      let next := s.next te
      let (s, es) ← s.rearm te o
      let (s, es') ← process now next outs (s.remove te)
      return (s, .call te.addr te.timeProc te.clientData :: es ++ es')

def processTimeEvents (s : EventLoop P D) (now : TimeVal) (outs : List (Outcome D)) :
    Option (EventLoop P D × List (Event P D)) := do
  let s ← s.gettimeofday now
  process now s.min outs s

end EventLoop

inductive Action (P D : Type)
  | create (tv : Option TimeVal) (proc : P) (clientData : D) (mask : Int) (now : TimeVal) (mem : Option (Block D))
  | process (now : TimeVal) (outs : List (Outcome D))

def EventLoop.step (s : EventLoop P D) : Action P D → Option (EventLoop P D × List (Event P D))
  | .create tv proc clientData mask now mem => do
    let (s, ret) ← s.createTimeEvent tv proc clientData mask now mem
    return (s, if ret = AE_OK then mem.toList.map fun b => .create b.addr clientData b.clientData else [])
  | .process now outs => s.processTimeEvents now outs

def loop (P D : Type) (clock : TimeVal) : Machine (EventLoop P D) (Action P D) (Event P D) where
  init := .init clock
  step := EventLoop.step

abbrev Transition (P D : Type) (clock : TimeVal) :=
  (loop P D clock).Transition

end Ae
