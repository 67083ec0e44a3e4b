import LabSystems.Algorithm.SkipList
import LabSystems.Linked.RedBlack
import LabSystems.Machine.Basic

-- The red-black trees that the macros of `tree.h` generate.
namespace RbTree

open Algorithm (Addr)
open Linked (Side Color)

-- An element: what the comparison reads, and the fields of `RB_ENTRY`. A null pointer is `none`.
structure Element (E : Type) where
  data   : E
  left   : Option Addr
  right  : Option Addr
  parent : Option Addr
  color  : Color

structure Head (E : Type) where
  mem  : AList fun _ : Addr => Element E
  root : Option Addr

variable {E : Type}

namespace Element

def child (d : Side) (n : Element E) : Option Addr :=
  match d with
  | .left  => n.left
  | .right => n.right

def setChild (d : Side) (p : Option Addr) (n : Element E) : Element E :=
  match d with
  | .left  => { n with left := p }
  | .right => { n with right := p }

end Element

namespace Head

def element (s : Head E) (x : Addr) : Option (Element E) :=
  s.mem.lookup x

-- Writing to an element that is not in memory is undefined.
def update (s : Head E) (x : Addr) (f : Element E → Element E) : Option (Head E) := do
  return { s with mem := s.mem.insert x <| f <| ← s.element x }

-- A loop goes to another element each time, and then it ends.
def size (s : Head E) : Nat :=
  s.mem.keys.length + 1

def setColor (s : Head E) (x : Addr) (c : Color) : Option (Head E) :=
  s.update x ({ · with color := c })

-- The colour of an element if there is one.
def paint (s : Head E) (p : Option Addr) (c : Color) : Option (Head E) :=
  match p with
  | none   => some s
  | some x => s.setColor x c

-- `RB_SET_BLACKRED`
def setBlackRed (s : Head E) (black red : Addr) : Option (Head E) := do
  let s ← s.setColor black .black
  s.setColor red .red

-- A missing element counts as a black one.
def isBlack (s : Head E) (p : Option Addr) : Option Bool :=
  match p with
  | none   => some true
  | some x => do return (← s.element x).color = .black

-- The parent of an element if there is one.
def adopt (s : Head E) (p parent : Option Addr) : Option (Head E) :=
  match p with
  | none   => some s
  | some x => s.update x ({ · with parent := parent })

-- The pointer to `old` in its parent, or at the root.
def redirect (s : Head E) (parent : Option Addr) (old : Addr) (new : Option Addr) : Option (Head E) :=
  match parent with
  | none   => some { s with root := new }
  | some p => do
    if (← s.element p).left = some old then
      s.update p (·.setChild .left new)
    else
      s.update p (·.setChild .right new)

-- `RB_ROTATE_LEFT` and `RB_ROTATE_RIGHT`: the child on the other side goes up, and `elm` goes down on side `d`.
def rotate (d : Side) (s : Head E) (elm : Addr) : Option (Head E) := do
  let tmp ← (← s.element elm).child d.other
  let inner := (← s.element tmp).child d
  let s ← s.update elm (·.setChild d.other inner)
  let s ← s.adopt inner (some elm)
  let parent := (← s.element elm).parent
  let s ← s.update tmp ({ · with parent := parent })
  let s ← s.redirect parent elm (some tmp)
  let s ← s.update tmp (·.setChild d (some elm))
  s.update elm ({ · with parent := some tmp })

def rotateLeft (s : Head E) (elm : Addr) : Option (Head E) :=
  s.rotate .left elm

def rotateRight (s : Head E) (elm : Addr) : Option (Head E) :=
  s.rotate .right elm

-- Which child of its parent `p` is. The source tests for the left one.
def sideOf (s : Head E) (parent : Addr) (p : Option Addr) : Option Side := do
  return if (← s.element parent).left = p then .left else .right

-- The last part of a pass of `RB_INSERT_COLOR`, with the element that the next one is about.
def restructure (d : Side) (s : Head E) (gparent parent elm : Addr) : Option (Head E × Addr) := do
  if (← s.element parent).child d.other = some elm then
    let s ← s.rotate d parent
    let s ← s.setBlackRed elm gparent
    return (← s.rotate d.other gparent, parent)
  else
    let s ← s.setBlackRed parent gparent
    return (← s.rotate d.other gparent, elm)

-- `RB_INSERT_COLOR`. Its two branches differ in the side on which the parent is.
def insertColor : Nat → Addr → Head E → Option (Head E)
  | 0, _, _ => none
  | fuel + 1, elm, s => do
    match (← s.element elm).parent with
    | none        => s.setColor (← s.root) .black
    | some parent =>
      if (← s.element parent).color = .black then
        s.setColor (← s.root) .black
      else
        let gparent ← (← s.element parent).parent
        let d ← s.sideOf gparent (some parent)
        let tmp := (← s.element gparent).child d.other
        if ← s.isBlack tmp then
          let (s, elm) ← s.restructure d gparent parent elm
          insertColor fuel elm s
        else
          let s ← s.paint tmp .black
          let s ← s.setBlackRed parent gparent
          insertColor fuel gparent s

-- A red sibling goes up, and the new sibling is black.
def liftSibling (d : Side) (s : Head E) (parent : Addr) : Option (Head E) := do
  let tmp ← (← s.element parent).child d.other
  if (← s.element tmp).color = .red then
    let s ← s.setBlackRed tmp parent
    s.rotate d parent
  else
    return s

def blackChildren (s : Head E) (x : Addr) : Option Bool := do
  let n ← s.element x
  if ← s.isBlack n.left then s.isBlack n.right else return false

-- The sibling's child on the far side is red afterwards.
def bendSibling (d : Side) (s : Head E) (tmp : Addr) : Option (Head E) := do
  let n ← s.element tmp
  if ← s.isBlack (n.child d.other) then
    let s ← s.paint (n.child d) .black
    let s ← s.setColor tmp .red
    s.rotate d.other tmp
  else
    return s

-- The last pass of `RB_REMOVE_COLOR`.
def settle (d : Side) (s : Head E) (parent tmp : Addr) : Option (Head E) := do
  let s ← s.bendSibling d tmp
  let tmp ← (← s.element parent).child d.other
  let s ← s.setColor tmp (← s.element parent).color
  let s ← s.setColor parent .black
  let s ← s.paint ((← s.element tmp).child d.other) .black
  let s ← s.rotate d parent
  s.paint s.root .black

-- `RB_REMOVE_COLOR`. Its two branches differ in the side on which `elm` is.
def removeColor : Nat → Option Addr → Option Addr → Head E → Option (Head E)
  | 0, _, _, _ => none
  | fuel + 1, parent, elm, s => do
    if (← s.isBlack elm) ∧ elm ≠ s.root then
      let parent ← parent
      let d ← s.sideOf parent elm
      let s ← s.liftSibling d parent
      let tmp ← (← s.element parent).child d.other
      if ← s.blackChildren tmp then
        let s ← s.setColor tmp .red
        removeColor fuel (← s.element parent).parent (some parent) s
      else
        s.settle d parent tmp
    else
      s.paint elm .black

-- An element is taken out of its place, which its child takes. Its parent and its colour are what comes with it.
def cut (s : Head E) (elm : Addr) (child : Option Addr) : Option (Head E × Option Addr × Color) := do
  let n ← s.element elm
  let s ← s.adopt child n.parent
  return (← s.redirect n.parent elm child, n.parent, n.color)

-- The loop to the leftmost element.
def leftmost (s : Head E) : Nat → Addr → Option Addr
  | 0, _ => none
  | fuel + 1, x => do
    match (← s.element x).left with
    | none   => return x
    | some y => s.leftmost fuel y

-- `elm` takes the place of `old`, which has two children.
def supplant (s : Head E) (old elm : Addr) : Option (Head E) := do
  let o ← s.element old
  let s ← s.update elm fun n => { o with data := n.data }
  let s ← s.redirect o.parent old (some elm)
  let s ← s.update (← o.left) ({ · with parent := some elm })
  s.adopt o.right (some elm)

-- `RB_REMOVE`
def remove (s : Head E) (old : Addr) : Option (Head E) := do
  let o ← s.element old
  let (s, parent, child, color) ←
    if o.left = none then
      let (s, parent, color) ← s.cut old o.right
      pure (s, parent, o.right, color)
    else if o.right = none then
      let (s, parent, color) ← s.cut old o.left
      pure (s, parent, o.left, color)
    else do
      let elm ← s.leftmost s.size (← o.right)
      let child := (← s.element elm).right
      let (s, parent, color) ← s.cut elm child
      let parent := if parent = some old then some elm else parent
      pure (← s.supplant old elm, parent, child, color)
  if color = .black then s.removeColor s.size parent child else return s

-- The loops of `RB_INSERT` and `RB_FIND`: an equal element, or the last one and how it compares.
def search (cmp : E → E → Int) (s : Head E) (elm : E) :
    Nat → Option Addr → Int → Option Addr → Option (Option Addr × Int × Option Addr)
  | 0, _, _, _ => none
  | _ + 1, parent, comp, none => some (parent, comp, none)
  | fuel + 1, _, _, some x => do
    let n ← s.element x
    if cmp elm n.data < 0 then
      s.search cmp elm fuel (some x) (cmp elm n.data) n.left
    else if cmp elm n.data > 0 then
      s.search cmp elm fuel (some x) (cmp elm n.data) n.right
    else
      return (some x, cmp elm n.data, some x)

-- The pointer to a new element, which compares with its parent as `comp` says.
def attach (s : Head E) (parent : Option Addr) (comp : Int) (elm : Addr) : Option (Head E) :=
  match parent with
  | none   => some { s with root := some elm }
  | some p => s.update p (·.setChild (if comp < 0 then .left else .right) (some elm))

-- `RB_INSERT`, with the element that is equal to `elm` if there is one.
def insert (cmp : E → E → Int) (s : Head E) (elm : Addr) : Option (Head E × Option Addr) := do
  match ← s.search cmp (← s.element elm).data s.size none 0 s.root with
  | (_, _, some x)         => return (s, some x)
  | (parent, comp, none) => do
    let s ← s.update elm fun n => ⟨n.data, none, none, parent, .red⟩
    let s ← s.attach parent comp elm
    return (← insertColor s.size elm s, none)

-- `RB_FIND`
def find (cmp : E → E → Int) (s : Head E) (elm : E) : Option (Option Addr) := do
  return (← s.search cmp elm s.size none 0 s.root).snd.snd

-- The loop of `RB_NEXT` that goes up from the right.
def ascend (s : Head E) : Nat → Addr → Option Addr → Option (Option Addr)
  | 0, _, _ => none
  | _ + 1, _, none => some none
  | fuel + 1, x, some y => do
    let n ← s.element y
    if n.right = some x then s.ascend fuel y n.parent else return some y

-- `RB_NEXT`
def next (s : Head E) (elm : Addr) : Option (Option Addr) := do
  let n ← s.element elm
  match n.right with
  | some r => return some (← s.leftmost s.size r)
  | none   =>
    match n.parent with
    | none   => return none
    | some p => if (← s.element p).left = some elm then return some p else s.ascend s.size elm (some p)

-- The loop of `RB_MINMAX`, with `parent` behind `tmp`.
def minMaxFrom (s : Head E) (d : Side) : Nat → Option Addr → Option Addr → Option (Option Addr)
  | 0, _, _ => none
  | _ + 1, parent, none => some parent
  | fuel + 1, _, some x => do s.minMaxFrom d fuel (some x) ((← s.element x).child d)

-- `RB_MINMAX`
def minMax (s : Head E) (val : Int) : Option (Option Addr) :=
  s.minMaxFrom (if val < 0 then .left else .right) s.size none s.root

-- `RB_MIN` and `RB_MAX`
def min (s : Head E) : Option (Option Addr) :=
  s.minMax (-1)

def max (s : Head E) : Option (Option Addr) :=
  s.minMax 1

-- The elements that the loop of `RB_FOREACH` visits from one on.
def visit (s : Head E) : Nat → Option Addr → Option (List Addr)
  | 0, _ => none
  | _ + 1, none => some []
  | fuel + 1, some x => do return x :: (← s.visit fuel (← s.next x))

-- `RB_FOREACH`
def foreach (s : Head E) : Option (List Addr) := do
  s.visit s.size (← s.min)

-- A program writes what the comparison reads before it inserts an element, and does not change it while the element is
-- in the tree. The other fields of the element are what the memory holds.
inductive Action (E : Type)
  | insert (x : Addr) (n : Element E)
  | remove (x : Addr)

def step (cmp : E → E → Int) (s : Head E) : Action E → Option (Head E × Option Addr)
  | .insert x n => do
    if x ∈ (← s.foreach) then none else insert cmp { s with mem := s.mem.insert x n } x
  | .remove x   => do
    if x ∈ (← s.foreach) then return (← s.remove x, some x) else none

end Head

-- All calls for one tree, and what they return.
def tree (cmp : E → E → Int) : Machine (Head E) (Head.Action E) (Option Addr) where
  init     := ⟨∅, none⟩
  step s a := s.step cmp a |>.map fun (s, p) => (s, [p])

-- What the tree is for: an ordered list without equal elements.
def insertSorted (cmp : E → E → Int) (e : Addr × E) : List (Addr × E) → List (Addr × E)
  | []      => [e]
  | a :: es =>
    if cmp e.snd a.snd < 0 then e :: a :: es
    else if cmp e.snd a.snd > 0 then a :: insertSorted cmp e es
    else a :: es

-- The element that is equal to another one.
def findEqual (cmp : E → E → Int) (elm : E) (es : List (Addr × E)) : Option Addr :=
  es.find? (cmp elm ·.snd = 0) |>.map Prod.fst

def sortedList (cmp : E → E → Int) : Machine (List (Addr × E)) (Head.Action E) (Option Addr) where
  init := []
  step
    | es, .insert x n =>
      if x ∈ es.map Prod.fst then none else some (insertSorted cmp (x, n.data) es, [findEqual cmp n.data es])
    | es, .remove x   => if x ∈ es.map Prod.fst then some (es.filter (·.fst ≠ x), [some x]) else none

end RbTree
