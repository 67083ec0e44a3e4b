namespace Copycat

-- An entry of the log, which stays there until it is released.
structure Commit (α : Type u) where
  index     : Nat
  operation : α
  deriving DecidableEq

-- A value can be null.
structure Put (K : Type u) (V : Type v) where
  key   : K
  value : Option V
  deriving DecidableEq

structure Get (K : Type u) where
  key : K
  deriving DecidableEq

structure Delete (K : Type u) where
  key : K
  deriving DecidableEq

inductive Operation (K : Type u) (V : Type v)
  | put    (op : Put K V)
  | get    (op : Get K)
  | delete (op : Delete K)
  deriving DecidableEq

-- `released` has the indices of the released commits in their order.
structure KVStateMachine (K : Type u) (V : Type v) where
  storage  : K → Option (Commit (Put K V))
  released : List Nat

variable {K : Type u} {V : Type v} [DecidableEq K]

namespace KVStateMachine

def init : KVStateMachine K V where
  storage _ := none
  released  := []

def release (s : KVStateMachine K V) (commit : Commit α) : KVStateMachine K V :=
  { s with released := s.released ++ [commit.index] }

def store (s : KVStateMachine K V) (key : K) (commit : Option (Commit (Put K V))) : KVStateMachine K V :=
  { s with storage := fun k => if k = key then commit else s.storage k }

def valueOf (put : Option (Commit (Put K V))) : Option V :=
  put.bind (·.operation.value)

def put (s : KVStateMachine K V) (commit : Commit (Put K V)) : KVStateMachine K V × Option V :=
  (s.store commit.operation.key (some commit), valueOf <| s.storage commit.operation.key)

def get (s : KVStateMachine K V) (commit : Commit (Get K)) : KVStateMachine K V × Option V :=
  (s.release commit, valueOf <| s.storage commit.operation.key)

def delete (s : KVStateMachine K V) (commit : Commit (Delete K)) : KVStateMachine K V × Option V :=
  let put := s.storage commit.operation.key
  let s' := s.store commit.operation.key none
  ((put.elim s' s'.release).release commit, valueOf put)

-- The state machine calls the method for the type of the operation.
def apply (s : KVStateMachine K V) (c : Commit (Operation K V)) : KVStateMachine K V × Option V :=
  match c.operation with
  | .put op    => s.put ⟨c.index, op⟩
  | .get op    => s.get ⟨c.index, op⟩
  | .delete op => s.delete ⟨c.index, op⟩

def run (cs : List (Commit (Operation K V))) : KVStateMachine K V :=
  cs.foldl (fun s c => (s.apply c).1) init

end KVStateMachine
end Copycat
