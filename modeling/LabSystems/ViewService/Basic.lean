import LabSystems.Machine.Basic
import Mathlib.Algebra.Group.Nat.Defs

namespace ViewService

-- Counters of type `uint` are natural numbers. A subtraction that leaves the type wraps. The counters
-- only ever grow by one in a step, and are assumed to stay below 2^64.
def uintSub (a b : Nat) : Nat :=
  if b ≤ a then a - b else a + 2 ^ 64 - b

@[ext]
structure View where
  viewnum : Nat
  primary : String
  backup  : String
  deriving DecidableEq, Repr

def deadPings : Nat := 5

@[ext]
structure PingArgs where
  me      : String
  viewnum : Nat
  deriving DecidableEq, Repr

structure PingReply where
  view : View
  deriving DecidableEq, Repr

structure GetReply where
  view : View
  deriving DecidableEq, Repr

@[ext]
structure ViewServer where
  view         : View
  primaryAcked : Nat
  primaryTick  : Nat
  currentTick  : Nat
  backupTick   : Nat
  deriving DecidableEq, Repr

namespace ViewServer

def startServer : ViewServer where
  view         := ⟨0, "", ""⟩
  primaryAcked := 0
  primaryTick  := 0
  currentTick  := 0
  backupTick   := 0

@[simp]
theorem startServer_view : startServer.view = ⟨0, "", ""⟩ :=
  rfl

abbrev HasPrimary (vs : ViewServer) : Prop :=
  vs.view.primary ≠ ""

abbrev HasBackup (vs : ViewServer) : Prop :=
  vs.view.backup ≠ ""

abbrev Acked (vs : ViewServer) : Prop :=
  vs.primaryAcked = vs.view.viewnum

abbrev IsPrimary (vs : ViewServer) (me : String) : Prop :=
  vs.view.primary = me

abbrev IsBackup (vs : ViewServer) (me : String) : Prop :=
  vs.view.backup = me

-- The block by which both `Ping` and `tick` make the backup the primary of the next view.
def promote (vs : ViewServer) : ViewServer :=
  { vs with
    view         := ⟨vs.view.viewnum + 1, vs.view.backup, ""⟩
    primaryAcked := 0
    primaryTick  := vs.backupTick }

-- The state which the RPC handler `Ping` leaves behind.
def pinged (vs : ViewServer) (args : PingArgs) : ViewServer :=
  if vs.view.viewnum = 0 ∧ ¬vs.HasPrimary then
    { vs with
      view         := { vs.view with viewnum := vs.view.viewnum + 1, primary := args.me }
      primaryAcked := 0
      primaryTick  := vs.currentTick }
  else if vs.IsPrimary args.me then
    if args.viewnum = 0 then
      -- The primary has restarted.
      if vs.view.backup ≠ "" then vs.promote else vs
    else
      { vs with primaryAcked := args.viewnum, primaryTick := vs.currentTick }
  else if ¬vs.HasBackup ∧ vs.Acked then
    { vs with
      view       := { vs.view with viewnum := vs.view.viewnum + 1, backup := args.me }
      backupTick := vs.currentTick }
  else if vs.IsBackup args.me then
    if args.viewnum = 0 ∧ vs.Acked then
      { vs with
        view       := { vs.view with viewnum := vs.view.viewnum + 1 }
        backupTick := vs.currentTick }
    else
      { vs with backupTick := vs.currentTick }
  else
    vs

def ping (vs : ViewServer) (args : PingArgs) : ViewServer × PingReply :=
  (vs.pinged args, ⟨(vs.pinged args).view⟩)

def get (vs : ViewServer) : ViewServer × GetReply :=
  (vs, ⟨vs.view⟩)

-- The two tests of `tick` run one after the other on the same state.
def checkPrimary (vs : ViewServer) : ViewServer :=
  if deadPings ≤ uintSub vs.currentTick vs.primaryTick ∧ vs.Acked then vs.promote else vs

def checkBackup (vs : ViewServer) : ViewServer :=
  if vs.HasBackup ∧ deadPings ≤ uintSub vs.currentTick vs.backupTick ∧ vs.Acked then
    { vs with view := { vs.view with viewnum := vs.view.viewnum + 1, backup := "" } }
  else
    vs

def tick (vs : ViewServer) : ViewServer :=
  { vs with currentTick := vs.currentTick + 1 }.checkPrimary.checkBackup

end ViewServer

inductive Action
  | ping (args : PingArgs)
  | get
  | tick
  deriving DecidableEq, Repr

-- A ping of a server, as opposed to one of a client with an empty name.
def Action.Named : Action → Prop
  | ping args => args.me ≠ ""
  | _         => True

instance : DecidablePred Action.Named
  | .ping args => inferInstanceAs (Decidable (args.me ≠ ""))
  | .get       => isTrue trivial
  | .tick      => isTrue trivial

-- The events are the views carried by the replies.
def server : Machine ViewServer Action View where
  init := .startServer
  step vs
    | .ping args => some ((vs.ping args).1, [(vs.ping args).2.view])
    | .get       => some (vs.get.1, [vs.get.2.view])
    | .tick      => some (vs.tick, [])

@[simp]
theorem server_init : server.init = .startServer :=
  rfl

abbrev Transition := server.Transition

-- All views the server has held along a run.
def views (ts : List Transition) : List View :=
  ViewServer.startServer.view :: ts.map (·.post.view)

end ViewService
