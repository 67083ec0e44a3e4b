import LabSystems.MapReduce.Master

namespace MapReduce

-- Where `KillWorkers` is: not yet called, before it calls the next of some workers, returned.
inductive KillWorkers
  | idle
  | range (workers : List String) (l : List Nat)
  | returned (l : List Nat)
  deriving DecidableEq, Repr

-- The names and the addresses in `mr.Workers`. `InitMapReduce` leaves it nil, and nothing assigns to it.
structure RunMaster where
  master  : State
  workers : List (String × String)
  kill    : KillWorkers

namespace RunMaster

inductive Action
  | master (a : MapReduce.Action)
  -- `KillWorkers` iterates over the workers in any order
  | range (workers : List String)
  | next
  deriving DecidableEq, Repr

inductive Event
  | master (e : MapReduce.Event)
  | shutdown (worker : String)
  deriving DecidableEq, Repr

def init : RunMaster where
  master  := .init
  workers := []
  kill    := .idle

-- `njobs` is what a worker that still answers replies to `Shutdown`.
def step (mr : MapReduce) (njobs : String → Option Nat) (s : RunMaster) : Action → Option (RunMaster × List Event)
  | .master a =>
    match s.master.step mr a with
    | some (master, es) => some ({ s with master }, es.map .master)
    | none              => none
  | .range ws =>
    if s.kill = .idle ∧ s.master.main = .killWorkers ∧ ws.Perm (s.workers.map (·.2)) then
      some ({ s with kill := .range ws [] }, [])
    else
      none
  | .next =>
    match s.kill with
    | .range [] l        => some ({ s with kill := .returned l }, [])
    | .range (w :: ws) l => some ({ s with kill := .range ws <| l ++ (njobs w).toList }, [.shutdown w])
    | _                  => none

end RunMaster

-- `RunMaster` with the call of `KillWorkers` at its end.
def runMaster (mr : MapReduce) (njobs : String → Option Nat) : Machine RunMaster RunMaster.Action RunMaster.Event where
  init := .init
  step := RunMaster.step mr njobs

end MapReduce
