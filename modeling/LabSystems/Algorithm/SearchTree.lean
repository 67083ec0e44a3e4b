import LabSystems.Algorithm.SkipList

namespace Algorithm

-- A null pointer is `none`.
structure TreeNode where
  key    : Int32
  left   : Option Addr
  right  : Option Addr
  parent : Option Addr
  deriving DecidableEq

structure SearchTree where
  mem  : AList fun _ : Addr => TreeNode
  root : Option Addr

namespace SearchTree

def node (s : SearchTree) (p : Addr) : Option TreeNode :=
  s.mem.lookup p

-- Writing to a node that is not in memory is undefined.
def update (s : SearchTree) (p : Addr) (f : TreeNode → TreeNode) : Option SearchTree := do
  return { s with mem := s.mem.insert p <| f <| ← s.node p }

-- A loop goes to another node each time, and then it ends.
def size (s : SearchTree) : Nat :=
  s.mem.keys.length + 1

def newNode (s : SearchTree) (x : Addr) (key : Int32) : SearchTree :=
  { s with mem := s.mem.insert x ⟨key, none, none, none⟩ }

def treeSearch (s : SearchTree) (key : Int32) : Nat → Option Addr → Option (Option Addr)
  | 0, _ => none
  | _ + 1, none => some none
  | fuel + 1, some p => do
    let n ← s.node p
    if n.key = key then
      return some p
    else if key < n.key then
      s.treeSearch key fuel n.left
    else
      s.treeSearch key fuel n.right

-- The loops of `tree_minimum` and `tree_maximum`, which follow the pointers of one side.
def extremum (s : SearchTree) (side : TreeNode → Option Addr) : Nat → Option Addr → Option (Option Addr)
  | 0, _ => none
  | _ + 1, none => some none
  | fuel + 1, some p => do
    let n ← s.node p
    if side n = none then return some p else s.extremum side fuel (side n)

def treeMinimum (s : SearchTree) (p : Option Addr) : Option (Option Addr) :=
  s.extremum (·.left) s.size p

def treeMaximum (s : SearchTree) (p : Option Addr) : Option (Option Addr) :=
  s.extremum (·.right) s.size p

-- The loops of `tree_successor` and `tree_precursor`, which go up from one side.
def ascend (s : SearchTree) (side : TreeNode → Option Addr) : Nat → Addr → Option Addr → Option (Option Addr)
  | 0, _, _ => none
  | _ + 1, _, none => some none
  | fuel + 1, p, some y => do
    let n ← s.node y
    if side n = some p then s.ascend side fuel y n.parent else return some y

def treeSuccessor (s : SearchTree) (p : Addr) : Option (Option Addr) := do
  let n ← s.node p
  if n.right ≠ none then s.treeMinimum n.right else s.ascend (·.right) s.size p n.parent

def treePrecursor (s : SearchTree) (p : Addr) : Option (Option Addr) := do
  let n ← s.node p
  if n.left ≠ none then s.treeMaximum n.left else s.ascend (·.left) s.size p n.parent

-- The loop of `insert`, with `y` behind `x`.
def descend (s : SearchTree) (key : Int32) : Nat → Option Addr → Option Addr → Option (Option Addr)
  | 0, _, _ => none
  | _ + 1, y, none => some y
  | fuel + 1, _, some x => do
    let n ← s.node x
    if key < n.key then s.descend key fuel (some x) n.left else s.descend key fuel (some x) n.right

-- `malloc` returns `x`.
def insert (s : SearchTree) (key : Int32) : Option Addr → Option (SearchTree × Int)
  | none => some (s, -1)
  | some x => do
    let s := s.newNode x key
    match ← s.descend key s.size none s.root with
    | none   => return ({ s with root := some x }, 0)
    | some y =>
      if key < (← s.node y).key then
        let s ← s.update y ({ · with left := some x })
        return (← s.update x ({ · with parent := some y }), 0)
      else
        let s ← s.update y ({ · with right := some x })
        return (← s.update x ({ · with parent := some y }), 0)

def transplant (s : SearchTree) (u : Addr) (v : Option Addr) : Option SearchTree := do
  let s ← match (← s.node u).parent with
    | none   => some { s with root := v }
    | some q => do
      if (← s.node q).left = some u then
        s.update q ({ · with left := v })
      else
        s.update q ({ · with right := v })
  match v with
  | none   => return s
  | some v => do
    let q := (← s.node u).parent
    s.update v ({ · with parent := q })

-- The part of `tree_delete` for a minimum that is not the right child of `p`.
def detach (s : SearchTree) (p y : Addr) : Option SearchTree := do
  if (← s.node y).parent = some p then
    return s
  else
    let s ← s.transplant y (← s.node y).right
    let right := (← s.node p).right
    let s ← s.update y ({ · with right := right })
    s.update (← (← s.node y).right) ({ · with parent := some y })

def treeDelete (s : SearchTree) (key : Int32) : Option (SearchTree × Int) := do
  match ← s.treeSearch key s.size s.root with
  | none   => return (s, -1)
  | some p => do
    let n ← s.node p
    if n.left = none then
      return (← s.transplant p n.right, 0)
    else if n.right = none then
      return (← s.transplant p n.left, 0)
    else
      let y ← ← s.treeMinimum n.right
      let s ← s.detach p y
      let s ← s.transplant p (some y)
      let left := (← s.node p).left
      let s ← s.update y ({ · with left := left })
      return (← s.update (← (← s.node y).left) ({ · with parent := some y }), 0)

-- The nodes that are visited, with the keys that are printed.
def treeInorderWalk (s : SearchTree) : Nat → Option Addr → Option (List (Addr × Int32))
  | 0, _ => none
  | _ + 1, none => some []
  | fuel + 1, some p => do
    let n ← s.node p
    let before ← s.treeInorderWalk fuel n.left
    let after ← s.treeInorderWalk fuel n.right
    return before ++ (p, n.key) :: after

def treeFree : Nat → Option Addr → SearchTree → Option SearchTree
  | 0, _, _ => none
  | _ + 1, none, s => some s
  | fuel + 1, some p, s => do
    let s ← treeFree fuel (← s.node p).left s
    let s ← treeFree fuel (← s.node p).right s
    let _ ← s.node p
    return { s with mem := s.mem.erase p }

inductive Action
  | insert (key : Int32) (x : Option Addr)
  | delete (key : Int32)

-- `malloc` does not return memory that is in use.
def step (s : SearchTree) : Action → Option (SearchTree × Int)
  | .insert key x => if ∃ p ∈ x, p ∈ s.mem then none else s.insert key x
  | .delete key   => s.treeDelete key

end SearchTree

-- All calls on one tree, and what they return.
def searchTree : Machine SearchTree SearchTree.Action Int where
  init     := ⟨∅, none⟩
  step s a := s.step a |>.map fun (s, n) => (s, [n])

end Algorithm
