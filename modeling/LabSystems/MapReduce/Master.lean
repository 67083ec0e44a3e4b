import LabSystems.Machine.Basic
import Mathlib.Logic.Function.Basic

structure MapReduce where
  nMap    : Nat
  nReduce : Nat
  file    : String

namespace MapReduce

inductive JobType
  | map
  | reduce
  deriving DecidableEq, Repr

structure DoJobArgs where
  file          : String
  operation     : JobType
  jobNumber     : Nat
  numOtherPhase : Nat
  deriving DecidableEq, Repr

def numJobs (mr : MapReduce) : JobType → Nat
  | .map    => mr.nMap
  | .reduce => mr.nReduce

def numOtherPhase (mr : MapReduce) : JobType → Nat
  | .map    => mr.nReduce
  | .reduce => mr.nMap

-- The arguments that `doTask` sends.
def job (mr : MapReduce) (t : JobType) (index : Nat) : DoJobArgs :=
  ⟨mr.file, t, index, mr.numOtherPhase t⟩

-- A goroutine of `RunMaster` for one job.
inductive Task
  -- blocked until it receives a worker from `registerChannel`
  | waiting
  -- in `doTask`
  | calling (worker : String)
  -- about to send its index on `mapChan` or `reduceChan`
  | succeeded (worker : String)
  -- blocked until it has handed the worker back to `registerChannel`
  | returning (worker : String)
  | returned
  deriving DecidableEq, Repr

-- The goroutine that executes `RunMaster`: starting the goroutine for job `i`, receiving the `i`-th
-- index, calling `KillWorkers`.
inductive Main
  | spawn (t : JobType) (i : Nat)
  | collect (t : JobType) (i : Nat)
  | killWorkers
  | panicked
  deriving DecidableEq, Repr

-- The channel of a phase is closed when all indices have been received.
def Main.Closed : Main → JobType → Prop
  | spawn .reduce _, .map | collect .reduce _, .map | killWorkers, _ => True
  | _, _ => False

instance (m : Main) : DecidablePred m.Closed :=
  fun t => by unfold Main.Closed; split <;> infer_instance

-- A call of `Register`, which is blocked until `registerChannel` has taken the worker.
structure Handler where
  worker  : String
  blocked : Bool
  deriving DecidableEq, Repr

-- The goroutines that send on `registerChannel`, which has no buffer.
inductive Sender
  | handler (k : Nat)
  | task (t : JobType) (i : Nat)
  deriving DecidableEq, Repr

structure State where
  main     : Main
  handlers : List Handler
  tasks    : JobType → List Task
  chan     : JobType → List Nat

inductive Action
  -- the call of `Register` of a worker arrives
  | register (worker : String)
  | main
  -- a goroutine receives a worker from a sender
  | receive (t : JobType) (i : Nat) (src : Sender)
  -- the call of a goroutine returns or fails
  | reply (t : JobType) (i : Nat) (ok : Bool)
  -- a goroutine sends its index
  | send (t : JobType) (i : Nat)
  deriving DecidableEq, Repr

inductive Event
  | register (worker : String)
  | sent (worker : String) (job : DoJobArgs)
  | succeeded (worker : String) (job : DoJobArgs)
  | failed (worker : String) (job : DoJobArgs)
  | killWorkers
  deriving DecidableEq, Repr

namespace State

def init : State where
  main     := .spawn .map 0
  handlers := []
  tasks _  := []
  chan _   := []

def setTask (s : State) (t : JobType) (i : Nat) (task : Task) : State :=
  { s with tasks := Function.update s.tasks t <| (s.tasks t).set i task }

-- The worker that a blocked goroutine sends on `registerChannel`.
def offer (s : State) : Sender → Option String
  | .handler k =>
    match s.handlers[k]? with
    | some ⟨w, true⟩ => some w
    | _              => none
  | .task t i =>
    match (s.tasks t)[i]? with
    | some (.returning w) => some w
    | _                   => none

-- A sender goes on when its worker has been received.
def release (s : State) : Sender → State
  | .handler k => { s with handlers := s.handlers.modify k ({ · with blocked := false }) }
  | .task t i  => s.setTask t i .returned

def runMain (mr : MapReduce) (s : State) : Option (State × List Event) :=
  match s.main with
  | .spawn t i =>
    if i < mr.numJobs t then
      some ({ s with tasks := Function.update s.tasks t (s.tasks t ++ [.waiting]), main := .spawn t (i + 1) }, [])
    else
      some ({ s with main := .collect t 0 }, [])
  | .collect t i =>
    if i < mr.numJobs t then
      match s.chan t with
      | []     => none
      | _ :: c => some ({ s with chan := Function.update s.chan t c, main := .collect t (i + 1) }, [])
    else
      match t with
      | .map    => some ({ s with main := .spawn .reduce 0 }, [])
      | .reduce => some ({ s with main := .killWorkers }, [.killWorkers])
  | .killWorkers | .panicked => none

def step (mr : MapReduce) (s : State) : Action → Option (State × List Event)
  | .register w => some ({ s with handlers := s.handlers ++ [⟨w, true⟩] }, [.register w])
  | .main       => s.runMain mr
  | .receive t i src =>
    match (s.tasks t)[i]?, s.offer src with
    | some .waiting, some w => some ((s.release src).setTask t i (.calling w), [.sent w (mr.job t i)])
    | _, _                  => none
  | .reply t i ok =>
    match (s.tasks t)[i]? with
    | some (.calling w) =>
      if ok then
        some (s.setTask t i (.succeeded w), [.succeeded w (mr.job t i)])
      else
        some (s.setTask t i .waiting, [.failed w (mr.job t i)])
    | _ => none
  | .send t i =>
    match (s.tasks t)[i]? with
    | some (.succeeded w) =>
      if s.main.Closed t then
        some ({ s with main := .panicked }, [])
      else if (s.chan t).length < mr.numJobs t then
        some ({ s.setTask t i (.returning w) with chan := Function.update s.chan t (s.chan t ++ [i]) }, [])
      else
        none
    | _ => none

end State

def master (mr : MapReduce) : Machine State Action Event where
  init := .init
  step := State.step mr

abbrev Transition (mr : MapReduce) :=
  (master mr).Transition

end MapReduce
