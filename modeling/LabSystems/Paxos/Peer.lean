import Mathlib.Algebra.Ring.Int.Defs
import Mathlib.Data.List.AList
import Mathlib.Data.List.FinRange
import Mathlib.Data.String.Basic
import Mathlib.Logic.Function.Basic
import Mathlib.Order.BoundedOrder.Basic

-- Instance numbers are of type `int`. They are integers here, since they are compared and passed on only. The one sum,
-- in `Min`, wraps as it does on 64 bits.

namespace Paxos

-- Proposal numbers are compared as strings. The empty string means "no number".
instance instOrderBotString : OrderBot String where
  bot        := ""
  bot_le s := by
    rw [String.le_iff_toList_le]
    exact not_lt.mp <| List.not_lt_nil _

inductive Fate
  | decided
  | pending
  | forgotten
  deriving DecidableEq, Repr

-- The value `unset` is the zero value of the error field of a reply.
inductive Err
  | unset
  | ok
  | reject
  deriving DecidableEq, Repr

-- Values of type `interface{}` are optional values of an arbitrary type.
structure Instance (V : Type) where
  state : Fate
  nP    : String
  nA    : String
  vA    : Option V
  deriving DecidableEq, Repr

structure PrepareArgs where
  seq  : Int
  pNum : String
  deriving DecidableEq, Repr

structure PrepareReply (V : Type) where
  err         : Err
  acceptPNum  : String
  acceptValue : Option V
  deriving DecidableEq, Repr

structure AcceptArgs (V : Type) where
  seq   : Int
  pNum  : String
  value : Option V
  deriving DecidableEq, Repr

structure AcceptReply where
  err : Err
  deriving DecidableEq, Repr

structure DecideArgs (n : Nat) (V : Type) where
  seq   : Int
  value : Option V
  pNum  : String
  me    : Fin n
  done  : Int
  deriving DecidableEq, Repr

abbrev Instances (V : Type) :=
  AList fun _ : Int => Instance V

-- The state of one of `n` peers. Numbers of type `int` are integers here: they stay in its range, but for one that is
-- added to the largest one.
structure Peer (n : Nat) (V : Type) where
  dones     : Fin n → Int
  instances : Instances V

def newInstance {V : Type} : Instance V where
  state := .pending
  nP    := ""
  nA    := ""
  vA    := none

def majority (n : Nat) : Nat :=
  n / 2 + 1

namespace Peer

variable {n : Nat} {V : Type}

def make : Peer n V where
  dones _   := -1
  instances := ∅

def setInstance (px : Peer n V) (seq : Int) (inst : Instance V) : Peer n V :=
  { px with instances := px.instances.insert seq inst }

def prepare (px : Peer n V) (args : PrepareArgs) : Peer n V × PrepareReply V :=
  match px.instances.lookup args.seq with
  | none      => promise newInstance
  | some inst => if inst.nP < args.pNum then promise inst else (px, ⟨.reject, "", none⟩)
where
  promise (inst : Instance V) : Peer n V × PrepareReply V :=
    (px.setInstance args.seq { inst with nP := args.pNum }, ⟨.ok, inst.nA, inst.vA⟩)

def accept (px : Peer n V) (args : AcceptArgs V) : Peer n V × AcceptReply :=
  match px.instances.lookup args.seq with
  | none      => vote newInstance
  | some inst => if inst.nP ≤ args.pNum then vote inst else (px, ⟨.reject⟩)
where
  vote (inst : Instance V) : Peer n V × AcceptReply :=
    (px.setInstance args.seq { inst with nA := args.pNum, nP := args.pNum, vA := args.value }, ⟨.ok⟩)

def decide (px : Peer n V) (args : DecideArgs n V) : Peer n V :=
  { px.setInstance args.seq ⟨.decided, args.pNum, args.pNum, args.value⟩ with
    dones := Function.update px.dones args.me args.done }

-- The section of `sendDecide` that holds the lock. The instance has to exist.
def learn (px : Peer n V) (seq : Int) (pnum : String) (v : Option V) : Option (Peer n V) :=
  match px.instances.lookup seq with
  | none   => none
  | some _ => px.setInstance seq ⟨.decided, pnum, pnum, v⟩

def done (px : Peer n V) (me : Fin n) (seq : Int) : Peer n V :=
  if px.dones me < seq then { px with dones := Function.update px.dones me seq } else px

def max (px : Peer n V) : Int :=
  px.instances.keys.foldl (fun max k => if max < k then k else max) 0

-- The loop of `Min` over `px.dones`.
def minDone (px : Peer n V) (me : Fin n) : Int :=
  (List.finRange n).foldl (fun min i => if px.dones i < min then px.dones i else min) (px.dones me)

-- The loop of `Min` over `px.instances`.
def forget (instances : Instances V) (min : Int) : Instances V :=
  instances.entries.foldl (fun insts e =>
    if min < e.1 then insts else if e.2.state ≠ .decided then insts else insts.erase e.1) instances

-- Adding one to an `int` of 64 bits, which wraps.
def increment (k : Int) : Int :=
  if k = 2 ^ 63 - 1 then -2 ^ 63 else k + 1

def min (px : Peer n V) (me : Fin n) : Peer n V × Int :=
  ({ px with instances := forget px.instances (px.minDone me) }, increment <| px.minDone me)

-- The part of `Status` that follows the call of `Min`.
def lookup (px : Peer n V) (seq : Int) : Fate × Option V :=
  match px.instances.lookup seq with
  | none      => (.pending, none)
  | some inst => (inst.state, inst.vA)

end Peer

end Paxos
