import LabSystems.Ae.TimeEvents
import LabSystems.RbTree.Basic

namespace Ae

open Algorithm (Addr)

-- The event loop with the tree that its time events are in. The data of an element are the event.
structure TreeLoop (P D : Type) where
  timetree  : RbTree.Head (TimeEvent P D)
  allocated : List Nat
  clock     : TimeVal

namespace TreeLoop

variable {P D : Type}

def init (clock : TimeVal) : TreeLoop P D where
  timetree  := ⟨∅, none⟩
  allocated := []
  clock     := clock

-- `RB_INSERT` writes the links of the new event before they are read.
def insert (s : TreeLoop P D) (te : TimeEvent P D) : Option (TreeLoop P D) := do
  let mem := s.timetree.mem.insert te.addr ⟨te, none, none, none, .black⟩
  let (timetree, _) ← RbTree.Head.insert compare { s.timetree with mem := mem } te.addr
  return { s with timetree := timetree }

def remove (s : TreeLoop P D) (x : Addr) : Option (TreeLoop P D) := do
  return { s with timetree := ← s.timetree.remove x }

-- The clock does not go back.
def gettimeofday (s : TreeLoop P D) (now : TimeVal) : Option (TreeLoop P D) :=
  if now.Before s.clock ∨ ¬now.IsClock then none else some { s with clock := now }

def malloc (s : TreeLoop P D) (b : Block D) : Option (TreeLoop P D) :=
  if b.addr ∈ s.allocated then none else some { s with allocated := b.addr :: s.allocated }

def createTimeEvent (s : TreeLoop P D) (tv : Option TimeVal) (proc : P) (_clientData : D) (mask : Int)
    (now : TimeVal) (mem : Option (Block D)) : Option (TreeLoop P D × Int) :=
  match tv, mem with
  | none, _         => some (s, AE_ERR)
  | some _, none    => some (s, AE_ERR)
  | some tv, some b => do
    let s ← s.malloc b
    let s ← s.gettimeofday now
    return (← s.insert ⟨b.addr, now.add tv, tv, proc, mask, b.clientData⟩, AE_OK)

def rearm (s : TreeLoop P D) (te : TimeEvent P D) (o : Outcome D) : Option (TreeLoop P D × List (Event P D)) :=
  if o.retval = AE_NOMORE then
    some (s, [])
  else do
    let (s, _) ← s.createTimeEvent (some te.tv) te.timeProc te.clientData 0 o.now o.mem
    return (s, o.mem.toList.map fun b => .rearm te.addr b.addr b.clientData)

-- The loop of `aeProcessTimeEvents` from the event at `te` on. There is an outcome for each callback.
def process (now : TimeVal) (te : Option Addr) (outs : List (Outcome D)) (s : TreeLoop P D) :
    Option (TreeLoop P D × List (Event P D)) :=
  match te, outs with
  | none, _ => some (s, [])
  | some x, [] => do
    let te := (← s.timetree.element x).data
    if now.Before te.timeout then some (s, []) else none
  | some x, o :: outs => do
    let te := (← s.timetree.element x).data
    if now.Before te.timeout then
      some (s, [])
    else do
      let next ← s.timetree.next x
      let (s, es) ← s.rearm te o
      let (s, es') ← process now next outs (← s.remove x)
      return (s, .call te.addr te.timeProc te.clientData :: es ++ es')

def processTimeEvents (s : TreeLoop P D) (now : TimeVal) (outs : List (Outcome D)) :
    Option (TreeLoop P D × List (Event P D)) := do
  let s ← s.gettimeofday now
  process now (← s.timetree.min) outs s

def step (s : TreeLoop P D) : Action P D → Option (TreeLoop P D × List (Event P D))
  | .create tv proc clientData mask now mem => do
    let (s, ret) ← s.createTimeEvent tv proc clientData mask now mem
    return (s, if ret = AE_OK then mem.toList.map fun b => .create b.addr clientData b.clientData else [])
  | .process now outs => s.processTimeEvents now outs

end TreeLoop

def treeLoop (P D : Type) (clock : TimeVal) : Machine (TreeLoop P D) (Action P D) (Event P D) where
  init := .init clock
  step := TreeLoop.step

end Ae
