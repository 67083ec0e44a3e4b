import LabSystems.Algorithm.SkipList

namespace Algorithm

def MAX_NODE_KEY : Nat :=
  2

-- An array of a node.
abbrev Slots (α : Type) :=
  Vector α (MAX_NODE_KEY * 2 + 1)

namespace Slots

-- Writing outside an array is undefined.
def write (a : Slots α) (i : Nat) (v : α) : Option (Slots α) :=
  if h : i < MAX_NODE_KEY * 2 + 1 then some (a.set i v h) else none

-- The loops that move `k` values, the first of which is in slot `i`, by one slot.
def shift (a : Slots α) (i : Nat) : Nat → Option (Slots α)
  | 0 => some a
  | k + 1 => do shift (← write a (i + k + 1) (← a[i + k]?)) i k

-- The loops that write `k` values to `b`, each of which is `d` slots further in `a`.
def copy (a b : Slots α) (d : Nat) : Nat → Option (Slots α)
  | 0 => some b
  | k + 1 => do write (← copy a b d k) (k + 1) (← a[k + 1 + d]?)

-- The loops of `btree_insert_nonfull`, with and without moving keys.
def shiftGreater (a : Slots Int32) (key : Int32) : Nat → Option (Slots Int32 × Nat)
  | 0 => some (a, 0)
  | i + 1 => do
    let k ← a[i + 1]?
    if key < k then shiftGreater (← write a (i + 2) k) key i else return (a, i + 1)

def lastNotGreater (a : Slots Int32) (key : Int32) : Nat → Option Nat
  | 0 => some 0
  | i + 1 => do
    if key < (← a[i + 1]?) then lastNotGreater a key i else return i + 1

-- The loop of `btree_search`, which begins with slot 0. There are `k` slots left.
def firstNotLess (a : Slots Int32) (key : Int32) (i : Nat) : Nat → Option Nat
  | 0 => some i
  | k + 1 => do
    if (← a[i]?) < key then firstNotLess a key (i + 1) k else return i

end Slots

structure BTreeNode where
  leaf   : Bool
  n      : Nat
  keys   : Slots Int32
  childs : Slots (Option Addr)

-- The loop of `print_btree`, which goes to the child before each key and to the last child.
def BTreeNode.print (n : BTreeNode) (child : Nat → Option (List Int32)) : Option (List Int32) := do
  let keys ← (List.range n.n).mapM fun i => do return (← child (i + 1)) ++ [← n.keys[i + 1]?]
  return keys.flatten ++ (← child (n.n + 1))

-- Nodes are never freed, so that the address of a node is the number of nodes before it.
structure BTree where
  mem  : List BTreeNode
  root : Addr

namespace BTree

def node (s : BTree) (x : Addr) : Option BTreeNode :=
  s.mem[x]?

def update (s : BTree) (x : Addr) (f : BTreeNode → Option BTreeNode) : Option BTree := do
  return { s with mem := s.mem.set x <| ← f <| ← s.node x }

-- A recursion goes down the tree.
def size (s : BTree) : Nat :=
  s.mem.length + 1

-- What newly allocated memory contains, which always exists.
variable (malloc : Addr → BTreeNode)

def allocNode (s : BTree) : BTree × Addr :=
  ({ s with mem := s.mem ++ [{ malloc s.mem.length with leaf := true, n := 0 }] }, s.mem.length)

def create : BTree :=
  let (s, x) := allocNode malloc ⟨[], 0⟩
  { s with root := x }

def search (s : BTree) (key : Int32) : Nat → Option Addr → Option (Option Addr)
  | 0, _ => none
  | _ + 1, none => some none
  | fuel + 1, some p => do
    let n ← s.node p
    let i ← Slots.firstNotLess n.keys key 0 (n.n + 1)
    let found ← if i ≤ n.n then n.keys[i]?.map (· == key) else some false
    if found then
      return some p
    else if n.leaf then
      return none
    else
      s.search key fuel (← n.childs[i]?)

def splitChild (s : BTree) (x : Addr) (i : Nat) : Option BTree := do
  let (s, z) := s.allocNode malloc
  let y ← (← (← s.node x).childs[i]?)
  let old ← s.node y
  let s ← s.update z fun n => some { n with leaf := old.leaf, n := MAX_NODE_KEY - 1 }
  let s ← s.update z fun n => do
    return { n with keys := ← Slots.copy old.keys n.keys MAX_NODE_KEY (MAX_NODE_KEY - 1) }
  let s ← if old.leaf then some s else s.update z fun n => do
    return { n with childs := ← Slots.copy old.childs n.childs MAX_NODE_KEY MAX_NODE_KEY }
  let s ← s.update y fun n => some { n with n := MAX_NODE_KEY - 1 }
  let s ← s.update x fun n => do return { n with childs := ← Slots.shift n.childs (i + 1) (n.n + 1 - i) }
  let s ← s.update x fun n => do return { n with childs := ← Slots.write n.childs (i + 1) (some z) }
  let s ← s.update x fun n => do return { n with keys := ← Slots.shift n.keys i (n.n + 1 - i) }
  let key ← (← s.node y).keys[MAX_NODE_KEY]?
  s.update x fun n => do return { n with keys := ← Slots.write n.keys i key, n := n.n + 1 }

def insertNonfull (key : Int32) : Nat → BTree → Addr → Option BTree
  | 0, _, _ => none
  | fuel + 1, s, p => do
    let n ← s.node p
    if n.leaf then
      let (keys, i) ← Slots.shiftGreater n.keys key n.n
      let keys ← Slots.write keys (i + 1) key
      s.update p fun n => some { n with keys := keys, n := n.n + 1 }
    else
      let i := (← Slots.lastNotGreater n.keys key n.n) + 1
      let c ← (← n.childs[i]?)
      if (← s.node c).n = 2 * MAX_NODE_KEY - 1 then
        let s ← s.splitChild malloc p i
        let n ← s.node p
        let i := if (← n.keys[i]?) < key then i + 1 else i
        insertNonfull key fuel s (← (← n.childs[i]?))
      else
        insertNonfull key fuel s c

def copyNode (s : BTree) (p : Addr) : Option (BTree × Addr) := do
  let (s, x) := s.allocNode malloc
  let p ← s.node p
  let s ← s.update x fun n => do
    return {
      leaf   := p.leaf,
      n      := p.n,
      keys   := ← Slots.copy p.keys n.keys 0 p.n,
      childs := ← Slots.copy p.childs n.childs 0 (p.n + 1)
    }
  return (s, x)

def insert (s : BTree) (key : Int32) : Option BTree := do
  if (← s.node s.root).n = 2 * MAX_NODE_KEY - 1 then
    let (s, oldRoot) ← s.copyNode malloc s.root
    let (s, x) := s.allocNode malloc
    let s ← s.update x fun n => do
      return { n with leaf := false, n := 0, childs := ← Slots.write n.childs 1 (some oldRoot) }
    let s ← { s with root := x }.splitChild malloc x 1
    insertNonfull malloc key s.size s x
  else
    insertNonfull malloc key s.size s s.root

-- The keys that are printed.
def print (s : BTree) : Nat → Addr → Option (List Int32)
  | 0, _ => none
  | fuel + 1, p => do
    let n ← s.node p
    n.print fun i => if n.leaf then some [] else do s.print fuel (← (← n.childs[i]?))

-- A tree in which keys are inserted one after the other.
def inserts (keys : List Int32) : Option BTree :=
  keys.foldlM (insert malloc) (create malloc)

end BTree

end Algorithm
