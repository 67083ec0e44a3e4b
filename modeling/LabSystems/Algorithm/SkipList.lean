import LabSystems.Machine.Basic
import Mathlib.Data.List.AList

namespace Algorithm

abbrev Addr := Nat

def MAX_LEVEL : Nat :=
  32

-- A pointer in newly allocated memory has no value yet.
structure SkipListNode where
  key     : Int32
  forward : List (Option Addr)
  deriving DecidableEq

structure SkipList where
  mem   : AList fun _ : Addr => SkipListNode
  head  : Addr
  level : Nat

namespace SkipList

def key (s : SkipList) (x : Addr) : Option Int32 :=
  (s.mem.lookup x).map (·.key)

-- Reading outside an array or from a pointer without a value is undefined.
def forward (s : SkipList) (x : Addr) (i : Nat) : Option Addr := do
  (← (← s.mem.lookup x).forward[i]?)

def setForward (s : SkipList) (x : Addr) (i : Nat) (y : Addr) : Option SkipList := do
  let node ← s.mem.lookup x
  if i < node.forward.length then
    return { s with mem := s.mem.insert x { node with forward := node.forward.set i (some y) } }
  else
    none

-- There is memory for nodes instead of pointers, and a node has the size of two pointers.
def nodeAlloc (s : SkipList) (x : Addr) (key : Int32) (level : Nat) : SkipList :=
  { s with mem := s.mem.insert x ⟨key, List.replicate (2 * level) none⟩ }

def nodeFree (s : SkipList) (x : Addr) : SkipList :=
  { s with mem := s.mem.erase x }

def skipListInit : SkipList where
  mem   := (∅ : AList fun _ : Addr => SkipListNode).insert 0
    ⟨Int32.maxValue, List.replicate (MAX_LEVEL + 1) (some 0) ++ List.replicate (MAX_LEVEL + 1) none⟩
  head  := 0
  level := 0

-- `rand i` is the lowest bit of the `i`-th number.
def randLevel (rand : Nat → Bool) : Nat :=
  ((List.range MAX_LEVEL).takeWhile rand).length

-- The loop in a list, of which each iteration goes to another node.
def advance (s : SkipList) (key : Int32) (i : Nat) : Nat → Addr → Option Addr
  | 0, _ => none
  | fuel + 1, x => do
    let y ← s.forward x i
    if (← s.key y) < key then s.advance key i fuel y else return x

-- The loop over all lists, from level `i` to level 0, and what it writes to `update`.
def descend (s : SkipList) (key : Int32) : Nat → Addr → Option (List Addr)
  | 0, x => do return [← s.advance key 0 s.mem.keys.length x]
  | i + 1, x => do
    let x ← s.advance key (i + 1) s.mem.keys.length x
    return (← s.descend key i x) ++ [x]

def link (update : List Addr) (x : Addr) (s : SkipList) (i : Nat) : Option SkipList := do
  let s ← s.setForward x i (← s.forward (← update[i]?) i)
  s.setForward (← update[i]?) i x

-- `malloc` returns `x`.
def insert (s : SkipList) (key : Int32) (rand : Nat → Bool) (x : Addr) : Option SkipList := do
  let update ← s.descend key s.level s.head
  if key = (← s.key (← s.forward (← update[0]?) 0)) then
    return s
  else
    let level := randLevel rand
    let new := { s with level := max s.level level }.nodeAlloc x key (level + 1)
    -- the loop begins with `root->level`
    let update := if level > s.level then
      update.take s.level ++ List.replicate (level + 1 - s.level) s.head
    else
      update
    (List.range (level + 1)).foldlM (link update x) new

-- A null pointer is `none`.
def find (s : SkipList) (key : Int32) : Option (Option Addr) := do
  let update ← s.descend key s.level s.head
  let p ← update[0]?
  if (← s.key (← s.forward p 0)) = key then return some p else return none

def unlink (update : List Addr) (p : Addr) (s : SkipList) : List Nat → Option SkipList
  | [] => some s
  | i :: is => do
    if (← s.forward (← update[i]?) i) ≠ p then
      return s
    else
      (← s.setForward (← update[i]?) i (← s.forward p i)).unlink update p is

def lower (s : SkipList) : Nat → Option Nat
  | 0 => some 0
  | i + 1 => do if (← s.forward s.head (i + 1)) = s.head then s.lower i else return i + 1

def remove (s : SkipList) (key : Int32) : Option SkipList := do
  let update ← s.descend key s.level s.head
  let p ← s.forward (← update[0]?) 0
  if (← s.key p) = key then
    let s := (← s.unlink update p (List.range (s.level + 1))).nodeFree p
    return { s with level := ← s.lower s.level }
  else
    return s

-- `head` has the greatest key.
abbrev Key :=
  { key : Int32 // key < Int32.maxValue }

inductive Action
  | insert (key : Key) (rand : Nat → Bool) (x : Addr)
  | remove (key : Key)

-- `malloc` does not return memory that is in use.
def step (s : SkipList) : Action → Option SkipList
  | .insert key rand x => if x ∈ s.mem then none else s.insert key rand x
  | .remove key        => s.remove key

end SkipList

-- All calls on one list.
def skipList : Machine SkipList SkipList.Action Empty where
  init     := .skipListInit
  step s a := (s.step a).map (·, [])

end Algorithm
