import LabSystems.Machine.Basic
import LabSystems.Network.Call
import LabSystems.Paxos.Peer

namespace Paxos

inductive Request (n : Nat) (V : Type)
  | prepare (args : PrepareArgs)
  | accept (args : AcceptArgs V)
  | decide (args : DecideArgs n V)
  deriving DecidableEq, Repr

inductive Reply (V : Type)
  | prepare (reply : PrepareReply V)
  | accept (reply : AcceptReply)
  | decide
  deriving DecidableEq, Repr

def Request.seq : Request n V → Int
  | prepare args => args.seq
  | accept args  => args.seq
  | decide args  => args.seq

def Peer.handle (px : Peer n V) : Request n V → Peer n V × Reply V
  | .prepare args => ((px.prepare args).1, .prepare (px.prepare args).2)
  | .accept args  => ((px.accept args).1, .accept (px.accept args).2)
  | .decide args  => (px.decide args, .decide)

-- The three functions which loop over all peers, with the local variables of the loop.
inductive Phase (n : Nat) (V : Type)
  | sendPrepare (pnum : String) (num : Nat) (replyPnum : String) (replyValue : Option V)
  | sendAccept (pnum : String) (value : Option V) (num : Nat)
  | sendDecide (args : DecideArgs n V)
  deriving DecidableEq, Repr

-- The positions at which a goroutine can be interrupted: before each section that holds the lock,
-- before and during each remote call.
inductive Pc (n : Nat) (V : Type)
  -- `Start`, before its call of `Min`
  | start
  -- the head of the loop of `proposer`
  | propose
  -- the iteration for peer `i`, in which a remote call may be outstanding
  | loop (phase : Phase n V) (i : Nat) (call : Option Nat)
  -- `sendDecide`, before it takes the lock, and after it has released the lock
  | decide (pnum : String) (value : Option V)
  | announce (pnum : String) (value : Option V)
  -- the call of `Status` by `proposer`, before and after its call of `Min`
  | status
  | lookup
  -- a call of `Status` by the application, after its call of `Min`
  | query
  | finished
  deriving DecidableEq, Repr

namespace Phase

def request (seq : Int) : Phase n V → Request n V
  | sendPrepare pnum _ _ _  => .prepare ⟨seq, pnum⟩
  | sendAccept pnum value _ => .accept ⟨seq, pnum, value⟩
  | sendDecide args         => .decide args

-- The reply as it is initialized before a call, which is also what a failed call leaves behind.
def noReply : Phase n V → Reply V
  | sendPrepare _ _ _ _ => .prepare ⟨.reject, "", none⟩
  | sendAccept _ _ _    => .accept ⟨.unset⟩
  | sendDecide _        => .decide

def receive : Phase n V → Reply V → Phase n V
  | sendPrepare pnum num replyPnum replyValue, .prepare reply =>
    if reply.err = .ok then
      if replyPnum < reply.acceptPNum then
        sendPrepare pnum (num + 1) reply.acceptPNum reply.acceptValue
      else
        sendPrepare pnum (num + 1) replyPnum replyValue
    else
      sendPrepare pnum num replyPnum replyValue
  | sendAccept pnum value num, .accept reply =>
    if reply.err = .ok then sendAccept pnum value (num + 1) else sendAccept pnum value num
  | phase, _ => phase

-- Where `proposer` goes on after the loop.
def exit : Phase n V → Pc n V
  | sendPrepare pnum num _ replyValue =>
    if majority n ≤ num then .loop (sendAccept pnum replyValue 0) 0 none else .status
  | sendAccept pnum value num =>
    if majority n ≤ num then .decide pnum value else .status
  | sendDecide _ => .finished

end Phase

structure Thread (n : Nat) (V : Type) where
  peer : Fin n
  seq  : Int
  v    : Option V
  pc   : Pc n V

-- A peer crashes when `sendDecide` dereferences an instance that does not exist.
structure State (n : Nat) (V : Type) where
  peers   : Fin n → Peer n V
  crashed : Fin n → Bool
  threads : List (Thread n V)
  calls   : Calls (Fin n × Request n V) (Reply V)

inductive Action (n : Nat) (V : Type)
  -- calls by the application
  | start (p : Fin n) (seq : Int64) (v : Option V)
  | done (p : Fin n) (seq : Int64)
  | min (p : Fin n)
  | max (p : Fin n)
  | status (p : Fin n) (seq : Int64)
  -- a goroutine proceeds, where `pnum` is what `generatePNum` returns if it is called
  | run (t : Nat) (pnum : String)
  -- the request of a call is handled
  | deliver (c : Nat)
  -- the call for which a goroutine waits returns with its reply, or fails
  | receive (t : Nat)
  | fail (t : Nat)
  deriving DecidableEq, Repr

inductive Event (n : Nat) (V : Type)
  | start (p : Fin n) (seq : Int) (v : Option V)
  | done (p : Fin n) (seq : Int)
  | min (p : Fin n) (m : Int)
  | max (p : Fin n) (m : Int)
  | status (p : Fin n) (seq : Int) (fate : Fate) (v : Option V)
  | handle (p : Fin n) (req : Request n V) (reply : Reply V)
  | learn (p : Fin n) (seq : Int) (pnum : String) (v : Option V)
  deriving DecidableEq, Repr

namespace State

variable {n : Nat} {V : Type}

def init : State n V where
  peers _   := .make
  crashed _ := false
  threads   := []
  calls     := []

def setPeer (s : State n V) (p : Fin n) (px : Peer n V) : State n V :=
  { s with peers := Function.update s.peers p px }

def spawn (s : State n V) (th : Thread n V) : State n V :=
  { s with threads := s.threads ++ [th] }

def setThread (s : State n V) (t : Nat) (th : Thread n V) (pc : Pc n V) : State n V :=
  { s with threads := s.threads.set t { th with pc := pc } }

def setCalls (s : State n V) (calls : Calls (Fin n × Request n V) (Reply V)) : State n V :=
  { s with calls := calls }

def crash (s : State n V) (p : Fin n) : State n V :=
  { s with crashed := Function.update s.crashed p true }

def minAt (s : State n V) (p : Fin n) : Int :=
  ((s.peers p).min p).2

-- The state after a call of `Min` at a peer.
def forgetAt (s : State n V) (p : Fin n) : State n V :=
  s.setPeer p ((s.peers p).min p).1

-- The iteration of a loop for peer `i`.
def visit (s : State n V) (t : Nat) (th : Thread n V) (phase : Phase n V) (i : Fin n) :
    State n V × List (Event n V) :=
  if i = th.peer then
    match phase with
    | .sendDecide args => (s.setThread t th (.loop (.sendDecide args) (i + 1) none), [])
    | _ =>
      let r := (s.peers th.peer).handle (phase.request th.seq)
      ((s.setPeer th.peer r.1).setThread t th (.loop (phase.receive r.2) (i + 1) none),
        [.handle th.peer (phase.request th.seq) r.2])
  else
    ((s.setCalls <| s.calls.send (i, phase.request th.seq)).setThread t th
      (.loop phase i (some s.calls.length)), [])

def runThread (s : State n V) (t : Nat) (th : Thread n V) (pnum : String) :
    Option (State n V × List (Event n V)) :=
  match th.pc with
  | .start =>
    some ((s.forgetAt th.peer).setThread t th
      (if th.seq < s.minAt th.peer then .finished else .propose), [.min th.peer (s.minAt th.peer)])
  | .propose =>
    if pnum = "" then none else
      some (s.setThread t th (.loop (.sendPrepare pnum 0 "" th.v) 0 none), [])
  | .loop phase i none =>
    if h : i < n then some (s.visit t th phase ⟨i, h⟩) else some (s.setThread t th phase.exit, [])
  | .loop _ _ (some _) => none
  | .decide pnum value =>
    match (s.peers th.peer).learn th.seq pnum value with
    | none    => some (s.crash th.peer, [])
    | some px =>
      some ((s.setPeer th.peer px).setThread t th (.announce pnum value),
        [.learn th.peer th.seq pnum value])
  | .announce pnum value =>
    let done := (s.peers th.peer).dones th.peer
    some (s.setThread t th (.loop (.sendDecide ⟨th.seq, value, pnum, th.peer, done⟩) 0 none), [])
  | .status =>
    if th.seq < s.minAt th.peer then
      some ((s.forgetAt th.peer).setThread t th .propose,
        [.min th.peer (s.minAt th.peer), .status th.peer th.seq .forgotten none])
    else
      some ((s.forgetAt th.peer).setThread t th .lookup, [.min th.peer (s.minAt th.peer)])
  | .lookup =>
    let r := (s.peers th.peer).lookup th.seq
    some (s.setThread t th (if r.1 = .decided then .finished else .propose),
      [.status th.peer th.seq r.1 r.2])
  | .query =>
    let r := (s.peers th.peer).lookup th.seq
    some (s.setThread t th .finished, [.status th.peer th.seq r.1 r.2])
  | .finished => none

-- The call for which a goroutine waits returns, and leaves the given reply behind.
def returned (s : State n V) (t : Nat) (reply : Phase n V → Nat → Option (Reply V)) :
    Option (State n V × List (Event n V)) :=
  match s.threads[t]? with
  | none    => none
  | some th =>
    if s.crashed th.peer then none else
      match th.pc with
      | .loop phase i (some c) =>
        (reply phase c).map fun r => (s.setThread t th (.loop (phase.receive r) (i + 1) none), [])
      | _ => none

def step (s : State n V) : Action n V → Option (State n V × List (Event n V))
  | .start p seq v =>
    if s.crashed p then none else some (s.spawn ⟨p, seq.toInt, v, .start⟩, [.start p seq.toInt v])
  | .done p seq =>
    if s.crashed p then none else some (s.setPeer p ((s.peers p).done p seq.toInt), [.done p seq.toInt])
  | .min p =>
    if s.crashed p then none else some (s.forgetAt p, [.min p (s.minAt p)])
  | .max p =>
    if s.crashed p then none else some (s, [.max p (s.peers p).max])
  | .status p seq =>
    if s.crashed p then none else
      if seq.toInt < s.minAt p then
        some (s.forgetAt p, [.min p (s.minAt p), .status p seq.toInt .forgotten none])
      else
        some ((s.forgetAt p).spawn ⟨p, seq.toInt, none, .query⟩, [.min p (s.minAt p)])
  | .run t pnum =>
    match s.threads[t]? with
    | none    => none
    | some th => if s.crashed th.peer then none else s.runThread t th pnum
  | .deliver c =>
    match s.calls.pending c with
    | none          => none
    | some (p, req) =>
      if s.crashed p then none else
        let r := (s.peers p).handle req
        some ((s.setPeer p r.1).setCalls (s.calls.answer c r.2), [.handle p req r.2])
  | .receive t => s.returned t fun _ c => s.calls.reply c
  | .fail t    => s.returned t fun phase _ => phase.noReply

end State

def peers (n : Nat) (V : Type) : Machine (State n V) (Action n V) (Event n V) where
  init := .init
  step := State.step

@[simp]
theorem peers_init : (peers n V).init = .init :=
  rfl

abbrev Transition (n : Nat) (V : Type) :=
  (peers n V).Transition

end Paxos
