import LabSystems.Machine.Basic
import LabSystems.ThreadPool.Queue

namespace ThreadPool

-- `offsetof(ae_work_t, queue)`, behind three pointers.
def offset : Nat :=
  24

-- The field `queue` of a work item, and the work item of such a field.
def link (w : Addr) : Addr :=
  w + offset

def data (q : Addr) : Addr :=
  q - offset

-- `ARRAY_SIZE(default_threads)`
abbrev nthreads : Nat :=
  4

-- `sizeof(pthread_mutex_t)`
def sizeofMutex : Nat :=
  40

-- Where the variables are in memory. Each of them comes with its size.
structure Layout where
  mutex          : Addr
  cond           : Addr
  idleThreads    : Addr
  nthreads       : Addr
  threads        : Addr
  defaultThreads : Addr
  wq             : Addr
  disjoint       : [(mutex, sizeofMutex), (cond, 48), (idleThreads, 4), (nthreads, 4), (threads, 8),
    (defaultThreads, 32), (wq, 16)].Pairwise fun x y => x.1 + x.2 ≤ y.1 ∨ y.1 + y.2 ≤ x.1
  aligned        : 4 ∣ idleThreads ∧ 8 ∣ defaultThreads ∧ 8 ∣ wq

abbrev Worker :=
  Fin nthreads

-- `threads + i`, where the ids of the threads are taken for mutexes.
def Layout.thread (l : Layout) (i : Worker) : Addr :=
  l.defaultThreads + sizeofMutex * i

-- A worker that has not been created, and the positions at which one can be interrupted: before it locks the
-- mutex, in `pthread_cond_wait` while it is blocked and after it has been unblocked, before it calls the function of
-- an item, and in that function.
inductive Pc
  | new
  | start
  | waiting
  | woken
  | dequeued (w : Addr)
  | working (w : Addr)
  deriving DecidableEq

-- The functions of a work item are values of an arbitrary type.
structure State (F : Type) where
  links       : Links
  work        : Addr → Option F
  done        : Addr → Option F
  idleThreads : UInt32
  workers     : Worker → Pc

inductive Action (F : Type)
  -- `ae_init_threads` creates worker `i`, which gets an id
  | create (i : Worker) (id : UInt64)
  -- the signal, if there is one, unblocks worker `i`
  | submit (w : Addr) (work done : F) (i : Worker)
  -- worker `i` gets the mutex
  | lock (i : Worker)
  -- worker `i` is unblocked without a signal
  | wake (i : Worker)
  -- worker `i` calls the function of its item, and the function returns
  | call (i : Worker)
  | finish (i : Worker)

inductive Event (F : Type)
  | submit (w : Addr)
  | dequeue (i : Worker) (w : Addr)
  | call (i : Worker) (w : Addr) (work : F)

namespace State

variable {F : Type}

def setWorker (s : State F) (i : Worker) (pc : Pc) : State F :=
  { s with workers := Function.update s.workers i pc }

-- The state before `ae_init_threads` creates the threads.
def init (l : Layout) : State F where
  links       := Links.init ⟨fun _ => 0, fun _ => 0⟩ l.wq
  work _      := none
  done _      := none
  idleThreads := 0
  workers _   := .new

-- The id of a thread is stored at an address. The counter can be one half of it.
def store (l : Layout) (s : State F) (a : Addr) (id : UInt64) : State F :=
  { s with
    links       := s.links.store a id.toNat
    idleThreads :=
      if a = l.idleThreads then id.toUInt32
      else if a + 4 = l.idleThreads then (id >>> 32).toUInt32
      else s.idleThreads }

-- `pthread_create` stores the id and starts the thread. The threads are created one after the other.
def create (l : Layout) (s : State F) (i : Worker) (id : UInt64) : Option (State F) :=
  if s.workers i = .new ∧ ∀ j < i, s.workers j ≠ .new then
    some <| s.store l (l.thread i) id |>.setWorker i .start
  else
    none

-- `pthread_cond_signal` unblocks a blocked thread, if there is one.
def signal (s : State F) (i : Worker) : Option (State F) :=
  if s.workers i = .waiting then
    some <| s.setWorker i .woken
  else if ∃ j, s.workers j = .waiting then
    none
  else
    some s

-- Items are submitted after `ae_init_threads`.
def submit (l : Layout) (s : State F) (w : Addr) (work done : F) (i : Worker) : Option (State F) :=
  if ∃ j, s.workers j = .new then
    none
  else
    let s := { s with
      work  := Function.update s.work w (some work)
      done  := Function.update s.done w (some done)
      links := s.links.insertTail l.wq (link w) }
    if s.idleThreads > 0 then s.signal i else some s

-- What `worker` does from the test of its inner loop until it releases the mutex.
def take (l : Layout) (s : State F) (i : Worker) : State F × List (Event F) :=
  if s.links.empty l.wq then
    ({ s with idleThreads := s.idleThreads + 1 }.setWorker i .waiting, [])
  else
    let w := data (s.links.head l.wq)
    ({ s with links := s.links.remove (link w) }.setWorker i (.dequeued w), [.dequeue i w])

def step (l : Layout) (s : State F) : Action F → Option (State F × List (Event F))
  | .create i id => (s.create l i id).map (·, [])
  | .submit w work done i => (s.submit l w work done i).map (·, [.submit w])
  | .lock i =>
    match s.workers i with
    | .start => some (s.take l i)
    | .woken => some ({ s with idleThreads := s.idleThreads - 1 }.take l i)
    | _      => none
  | .wake i => if s.workers i = .waiting then some (s.setWorker i .woken, []) else none
  | .call i =>
    match s.workers i with
    | .dequeued w => (s.work w).map fun work => (s.setWorker i (.working w), [.call i w work])
    | _           => none
  | .finish i =>
    match s.workers i with
    | .working _ => some (s.setWorker i .start, [])
    | _          => none

end State

def pool (F : Type) (l : Layout) : Machine (State F) (Action F) (Event F) where
  init := .init l
  step := State.step l

abbrev Transition (F : Type) (l : Layout) :=
  (pool F l).Transition

end ThreadPool
