import Mathlib.Logic.Function.Basic
import LabSystems.Machine.Basic
import LabSystems.Nsqd.Message

namespace Nsqd

-- A message, and what is kept with it while it is in flight. Times are in nanoseconds.
structure InFlight extends Message where
  deliveryTS : Int
  clientID   : Int64
  pri        : Int64
  index      : Int
  deriving DecidableEq

-- A pointer to a message.
abbrev Ref := Nat

-- The queue is a slice of pointers, and shares the messages with the rest of the program.
structure InFlightPqueue where
  messages : Ref → InFlight
  refs     : List Ref
  cap      : Nat
  le       : refs.length ≤ cap

-- Operations on the queue panic when an index or the bounds of a slice are out of range.
namespace InFlightPqueue

def new (messages : Ref → InFlight) (capacity : Nat) : InFlightPqueue where
  messages := messages
  refs     := []
  cap      := capacity
  le       := Nat.zero_le _

def setIndex (pq : InFlightPqueue) (x : Ref) (i : Int) : InFlightPqueue :=
  { pq with messages := Function.update pq.messages x { pq.messages x with index := i } }

-- A slice of another capacity, with the same pointers.
def make (pq : InFlightPqueue) (capacity : Nat) : Option InFlightPqueue :=
  if h : pq.refs.length ≤ capacity then some { pq with cap := capacity, le := h } else none

-- The slice that has one element more.
def extend (pq : InFlightPqueue) (x : Ref) : Option InFlightPqueue :=
  if h : pq.refs.length + 1 ≤ pq.cap then
    some { pq with
      refs := pq.refs ++ [x]
      le   := by simpa using h }
  else
    none

-- The slice without the last element, which is the one that is taken.
def shorten (pq : InFlightPqueue) : Option (InFlightPqueue × Ref) :=
  pq.refs.getLast?.map fun x =>
    let pq := pq.setIndex x (-1)
    ({ pq with
      refs := pq.refs.dropLast
      le   := by
        have hl := pq.le
        simp only [List.length_dropLast]
        omega }, x)

def pri (pq : InFlightPqueue) (k : Nat) : Option Int64 :=
  pq.refs[k]?.map (pq.messages · |>.pri)

def swap (pq : InFlightPqueue) (i j : Nat) : Option InFlightPqueue := do
  let x ← pq.refs[i]?
  let y ← pq.refs[j]?
  let pq := { pq with
    refs := (pq.refs.set i y).set j x
    le   := by simpa using pq.le }
  pq.setIndex y i |>.setIndex x j

def up (pq : InFlightPqueue) (j : Nat) : Option InFlightPqueue :=
  let i := (j - 1) / 2
  if _h : i = j then
    pq
  else do
    if (← pq.pri j) ≥ (← pq.pri i) then
      return pq
    up (← pq.swap i j) i
termination_by j
decreasing_by omega

-- The child that is compared, which is the right one if it is not larger.
def child (pq : InFlightPqueue) (i n : Nat) : Option Nat := do
  let j₁ := 2 * i + 1
  let j₂ := j₁ + 1
  if j₂ < n then
    if (← pq.pri j₁) ≥ (← pq.pri j₂) then
      return j₂
  return j₁

theorem lt_child {pq : InFlightPqueue} (h : pq.child i n = some j) : i < j := by
  simp only [child, Option.bind_eq_bind, Option.pure_def] at h
  split at h
  case isFalse =>
    cases h
    omega
  case isTrue =>
    have ⟨_, _, h⟩ := Option.bind_eq_some_iff.mp h
    have ⟨_, _, h⟩ := Option.bind_eq_some_iff.mp h
    split at h
    all_goals
      cases h
      omega

def down (pq : InFlightPqueue) (i n : Nat) : Option InFlightPqueue :=
  if 2 * i + 1 ≥ n then
    pq
  else
    match _h : pq.child i n with
    | none   => none
    | some j => do
      if (← pq.pri j) ≥ (← pq.pri i) then
        return pq
      down (← pq.swap i j) j n
termination_by n - i
decreasing_by
  have hl := lt_child ‹_›
  omega

def push (pq : InFlightPqueue) (x : Ref) : Option InFlightPqueue := do
  let n := pq.refs.length
  let pq ← if n + 1 > pq.cap then pq.make (pq.cap * 2) else pq
  let pq := pq.setIndex x n
  let pq ← pq.extend x
  pq.up n

def pop (pq : InFlightPqueue) : Option (InFlightPqueue × Ref) := do
  let n := pq.refs.length
  let pq ← pq.swap 0 (n - 1)
  let pq ← pq.down 0 (n - 1)
  let pq ← if n < pq.cap / 2 ∧ pq.cap > 25 then pq.make (pq.cap / 2) else pq
  pq.shorten

def remove (pq : InFlightPqueue) (i : Nat) : Option (InFlightPqueue × Ref) := do
  let n := pq.refs.length
  let pq ←
    if n - 1 ≠ i then do
      let pq ← pq.swap i (n - 1)
      let pq ← pq.down i (n - 1)
      pq.up i
    else
      pq
  pq.shorten

-- There may be no message, and then the other value is the time that is left.
def peekAndShift (pq : InFlightPqueue) (max : Int64) : Option (InFlightPqueue × Option Ref × Int64) :=
  match pq.refs with
  | []     => some (pq, none, 0)
  | x :: _ => do
    let pri := (pq.messages x).pri
    if pri > max then
      return (pq, none, pri - max)
    let (pq, _) ← pq.pop
    return (pq, x, 0)

inductive Operation
  | push (x : Ref)
  | pop
  | remove (i : Nat)
  | peekAndShift (max : Int64)
  -- The rest of the program writes to a message that is not in the queue.
  | write (x : Ref) (message : InFlight)
  deriving DecidableEq

-- A message has been pushed, or an operation has returned.
inductive Event
  | pushed (x : Ref)
  | popped (x : Ref)
  | removed (i : Nat) (x : Ref)
  | shifted (max : Int64) (x : Option Ref) (left : Int64)
  deriving DecidableEq, Repr

def Allowed (pq : InFlightPqueue) : Operation → Prop
  | .push x | .write x _ => x ∉ pq.refs
  | .pop                 => pq.refs ≠ []
  | .remove i            => i < pq.refs.length
  | .peekAndShift _      => True

instance : Decidable (Allowed pq op) := by
  cases op
  all_goals
    unfold Allowed
    infer_instance

def write (pq : InFlightPqueue) (x : Ref) (message : InFlight) : InFlightPqueue :=
  { pq with messages := Function.update pq.messages x { message with index := (pq.messages x).index } }

def run (pq : InFlightPqueue) : Operation → Option (InFlightPqueue × List Event)
  | .push x           => pq.push x |>.map (·, [.pushed x])
  | .pop              => pq.pop |>.map fun (pq, x) => (pq, [.popped x])
  | .remove i         => pq.remove i |>.map fun (pq, x) => (pq, [.removed i x])
  | .peekAndShift max => pq.peekAndShift max |>.map fun (pq, x, left) => (pq, [.shifted max x left])
  | .write x message  => some (pq.write x message, [])

end InFlightPqueue

open InFlightPqueue in
-- There is no queue any more after a panic.
def pqueue (messages : Ref → InFlight) (capacity : Nat) : Machine (Option InFlightPqueue) Operation Event where
  init      := some <| .new messages capacity
  step s op := s.bind fun pq =>
    if pq.Allowed op then
      match pq.run op with
      | none          => some (none, [])
      | some (pq, es) => some (some pq, es)
    else
      none

end Nsqd
