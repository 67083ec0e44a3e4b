import LabSystems.Machine.Basic
import LabSystems.Network.Call
import LabSystems.PBService.Server

namespace PBService

open ViewService (View PingArgs ViewServer)

-- All requests but those to the view server carry the name of the server they are sent to.
inductive Request
  | ping (args : PingArgs)
  | get (srv : String) (args : GetArgs)
  | putAppend (srv : String) (args : PutAppendArgs)
  | forward (srv : String) (args : ForwardArgs)
  deriving DecidableEq

inductive Reply
  | ping (view : View)
  | get (reply : GetReply)
  | putAppend (reply : PutAppendReply)
  | forward
  deriving DecidableEq, Repr

-- The view that a ping returns, where the result of a failed call is `none`.
def Reply.view (default : View) : Option Reply → View
  | some (ping view) => view
  | _                => default

-- What the goroutine waits for that holds the lock of a server.
inductive Lock
  | free
  -- `tick`, for the reply of the view server
  | ping (call : Nat)
  -- `tick`, for the backup
  | tick (call : Nat)
  -- `PutAppend`, for the backup, before it replies to its client
  | putAppend (call client : Nat) (args : PutAppendArgs) (reply : PutAppendReply)
  deriving DecidableEq, Repr

def Lock.call : Lock → Option Nat
  | free => none
  | ping call | tick call | putAppend call _ _ _ => some call

structure Server where
  pb   : PBServer
  lock : Lock
  deriving DecidableEq

-- A clerk knows its name at the view server and an identifier, which both `nrand` and the test
-- harness make up.
structure Clerk where
  name : String
  me   : String
  view : View
  deriving DecidableEq, Repr

inductive Op
  | get (args : GetArgs)
  | putAppend (args : PutAppendArgs)
  deriving DecidableEq, Repr

-- What a goroutine waits for that has called `Get` or `PutAppend` of a clerk.
inductive Wait
  | updateView (call : Nat)
  | server (call : Nat)
  | returned
  deriving DecidableEq, Repr

def Wait.call : Wait → Option Nat
  | updateView call | server call => some call
  | returned => none

structure Thread where
  clerk : Nat
  op    : Op
  wait  : Wait
  deriving DecidableEq, Repr

def Op.request (srv : String) : Op → Request
  | get args       => .get srv args
  | putAppend args => .putAppend srv args

-- A call whose reply is `none` is being handled. Servers are identified by their names, under which
-- they can be started again after a crash.
structure State where
  vs      : ViewServer
  servers : String → Option Server
  clerks  : List Clerk
  threads : List Thread
  calls   : Calls Request (Option Reply)

inductive Action
  | vsTick
  | startServer (p : String)
  | crash (p : String)
  | tick (p : String)
  | makeClerk (name : String) (rand : Nat)
  | get (ck : Nat) (key : String)
  | putAppend (ck : Nat) (key value op : String) (rand : Nat)
  -- the request of a call is handled
  | handle (c : Nat)
  -- the call for which a server or a goroutine of a clerk waits returns with its reply, or fails
  | receive (p : String)
  | fail (p : String)
  | clerkReceive (t : Nat)
  | clerkFail (t : Nat)
  deriving DecidableEq, Repr

inductive Event
  | start (p : String)
  -- a server has sent a ping, and gone on to a view
  | ping (p : String) (viewnum : Nat)
  | view (p : String) (view : View)
  -- the handling of requests by a server in some view
  | get (c : Nat) (p : String) (view : View) (args : GetArgs) (reply : GetReply)
  | execute (p : String) (view : View) (args : PutAppendArgs)
  | putAppend (c : Nat) (p : String) (view : View) (args : PutAppendArgs) (reply : PutAppendReply)
  | forward (c : Nat) (p : String)
  | merge (c : Nat) (p : String) (args : ForwardArgs)
  -- the beginning of an update and the end of all operations of a clerk
  | begin (args : PutAppendArgs)
  | gotten (c : Nat) (args : GetArgs) (value : String)
  | done (c : Nat) (args : PutAppendArgs)
  deriving DecidableEq

namespace State

def init : State where
  vs        := .startServer
  servers _ := none
  clerks    := []
  threads   := []
  calls     := []

def setServer (s : State) (p : String) (sv : Option Server) : State :=
  { s with servers := Function.update s.servers p sv }

def send (s : State) (req : Request) : State :=
  { s with calls := s.calls.send req }

def answer (s : State) (c : Nat) (reply : Option Reply) : State :=
  { s with calls := s.calls.answer c reply }

def setThread (s : State) (t : Nat) (th : Thread) (wait : Wait) : State :=
  { s with threads := s.threads.set t { th with wait := wait } }

def setView (s : State) (ck : Nat) (view : View) : State :=
  { s with clerks := s.clerks.modify ck ({ · with view := view }) }

def spawn (s : State) (th : Thread) : State :=
  { s with threads := s.threads ++ [th] }

-- A server that runs and whose lock is free.
def idle (s : State) (p : String) : Option PBServer :=
  match s.servers p with
  | some ⟨pb, .free⟩ => some pb
  | _                => none

-- The call that `Forward` makes, for whose reply the server waits.
def forward (s : State) (p : String) (pb : PBServer) (lock : Nat → Lock) : State :=
  s.setServer p (some ⟨pb, lock s.calls.length⟩) |>.send (.forward pb.view.backup ⟨pb.db⟩)

def putAppend (s : State) (c : Nat) (p : String) (pb : PBServer) (args : PutAppendArgs) :
    State × List Event :=
  match pb.refuse args with
  | some reply =>
    (s.answer c (some (.putAppend reply)), [.putAppend c p pb.view args reply])
  | none =>
    let r := pb.execute args
    if pb.HasBackup then
      ((s.answer c none).forward p r.1 (.putAppend · c args r.2),
        [.execute p pb.view args, .forward s.calls.length p])
    else
      ((s.setServer p (some ⟨r.1, .free⟩)).answer c (some (.putAppend r.2)),
        [.execute p pb.view args, .putAppend c p pb.view args r.2])

def handle (s : State) (c : Nat) : Option (State × List Event) :=
  match s.calls.pending c with
  | none => none
  | some (.ping args) =>
    let r := s.vs.ping args
    some ({ s with vs := r.1 }.answer c (some (.ping r.2.view)), [])
  | some (.get p args) =>
    (s.idle p).map fun pb =>
      (s.answer c (some (.get (pb.get args))), [.get c p pb.view args (pb.get args)])
  | some (.putAppend p args) => (s.idle p).map fun pb => s.putAppend c p pb args
  | some (.forward p args) =>
    (s.idle p).map fun pb =>
      ((s.setServer p (some ⟨pb.processForward args, .free⟩)).answer c (some .forward),
        [.merge c p args])

-- The second part of `tick`. A failed ping leaves an empty view behind.
def changeView (s : State) (p : String) (pb : PBServer) (view : View) : State × List Event :=
  if pb.NeedForward view then
    (s.forward p { pb with view := view } .tick, [.view p view, .forward s.calls.length p])
  else
    (s.setServer p (some ⟨{ pb with view := view }, .free⟩), [.view p view])

-- A call of a server returns, where the result of a failed call is `none`.
def resume (s : State) (p : String) (sv : Server) (result : Option Reply) :
    Option (State × List Event) :=
  match sv.lock with
  | .free   => none
  | .ping _ => some (s.changeView p sv.pb (Reply.view ⟨0, "", ""⟩ result))
  | .tick _ => some (s.setServer p (some ⟨sv.pb, .free⟩), [])
  | .putAppend _ c args reply =>
    some ((s.setServer p (some ⟨sv.pb, .free⟩)).answer c (some (.putAppend reply)),
      [.putAppend c p sv.pb.view args reply])

-- The beginning of `Get` and `PutAppend` of a clerk.
def beginOp (s : State) (i : Nat) (ck : Clerk) (op : Op) : State :=
  if ck.view.viewnum = 0 then
    s.spawn ⟨i, op, .updateView s.calls.length⟩ |>.send (.ping ⟨ck.name, ck.view.viewnum⟩)
  else
    s.spawn ⟨i, op, .server s.calls.length⟩ |>.send (op.request ck.view.primary)

-- A call of a clerk returns. Any reply of a server ends the operation.
def clerkResume (s : State) (t : Nat) (th : Thread) (ck : Clerk) (result : Option Reply) :
    Option (State × List Event) :=
  match th.wait with
  | .updateView _ =>
    let view := Reply.view ck.view result
    some ((s.setView th.clerk view).setThread t th (.server s.calls.length) |>.send
      (th.op.request view.primary), [])
  | .server c =>
    match th.op, result with
    | .get args, some (.get reply) => some (s.setThread t th .returned, [.gotten c args reply.value])
    | .putAppend args, some (.putAppend _) => some (s.setThread t th .returned, [.done c args])
    | _, _ =>
      some (s.setThread t th (.updateView s.calls.length) |>.send
        (.ping ⟨ck.name, ck.view.viewnum⟩), [])
  | .returned => none

def step (s : State) : Action → Option (State × List Event)
  | .vsTick => some ({ s with vs := s.vs.tick }, [])
  | .startServer p =>
    if p = "" ∨ (s.servers p).isSome then none else
      some (s.setServer p (some ⟨.startServer p, .free⟩), [.start p])
  | .crash p => (s.servers p).map fun _ => (s.setServer p none, [])
  | .tick p =>
    (s.idle p).map fun pb =>
      ((s.setServer p (some ⟨pb, .ping s.calls.length⟩)).send (.ping pb.pingArgs),
        [.ping p pb.view.viewnum])
  | .makeClerk name rand =>
    some ({ s with clerks := s.clerks ++ [⟨name, toString rand, ⟨0, "", ""⟩⟩] }, [])
  | .get i key => s.clerks[i]?.map fun ck => (s.beginOp i ck (.get ⟨key⟩), [])
  | .putAppend i key value op rand =>
    s.clerks[i]?.map fun ck =>
      let args := ⟨key, value, op, toString rand, ck.me⟩
      (s.beginOp i ck (.putAppend args), [.begin args])
  | .handle c => s.handle c
  | .receive p =>
    (s.servers p).bind fun sv =>
      sv.lock.call.bind fun c => (s.calls.reply c).join.bind fun r => s.resume p sv (some r)
  | .fail p =>
    (s.servers p).bind fun sv => sv.lock.call.bind fun _ => s.resume p sv none
  | .clerkReceive t =>
    s.threads[t]?.bind fun th => s.clerks[th.clerk]?.bind fun ck =>
      th.wait.call.bind fun c => (s.calls.reply c).join.bind fun r => s.clerkResume t th ck (some r)
  | .clerkFail t =>
    s.threads[t]?.bind fun th => s.clerks[th.clerk]?.bind fun ck =>
      th.wait.call.bind fun _ => s.clerkResume t th ck none

end State

def cluster : Machine State Action Event where
  init := .init
  step := State.step

@[simp]
theorem cluster_init : cluster.init = .init :=
  rfl

abbrev Transition :=
  cluster.Transition

end PBService
