import LabSystems.Nsqd.Message

namespace Nsqd

def maxMsgSize : Nat := 2 ^ 10

def memQueueSize : Nat := 100

-- A queue of byte strings on disk, which is a package of its own. It is first in, first out, and
-- takes the strings whose length is between two bounds.
structure DiskQueue (minMsgSize maxMsgSize : Nat) where
  Queue         : Type
  contents      : Queue → List Bytes
  put           : Queue → Bytes → Except String Queue
  read          : Queue → Option (Bytes × Queue)
  put_ok        : put q b = .ok q' → contents q' = contents q ++ [b]
  put_error_iff : (∃ e, put q b = .error e) ↔ ¬(minMsgSize ≤ b.length ∧ b.length ≤ maxMsgSize)
  read_some     : read q = some (b, q') → contents q = b :: contents q'

-- The queue that keeps its contents in a list.
def DiskQueue.list (minMsgSize maxMsgSize : Nat) : DiskQueue minMsgSize maxMsgSize where
  Queue    := List Bytes
  contents := id
  put q b  :=
    if minMsgSize ≤ b.length ∧ b.length ≤ maxMsgSize then .ok (q ++ [b]) else .error "invalid message write size"
  read
    | []     => none
    | b :: q => some (b, q)
  put_ok h := by
    split at h <;> cases h
    rfl
  put_error_iff := by
    intro q b
    constructor
    case mp =>
      intro ⟨_, h⟩
      split at h <;> cases h
      assumption
    case mpr => exact fun h => ⟨_, if_neg h⟩
  read_some {q _ _} h := by
    cases q <;> cases h
    rfl

abbrev BackendQueue :=
  DiskQueue minValidMsgLength maxMsgSize

-- The messages that wait in a topic or in a channel.
structure MessageQueue (dq : BackendQueue) where
  memoryMsgChan : List Message
  backend       : dq.Queue

-- The two channels that a receiver selects from.
inductive Source
  | memory
  | backend
  deriving DecidableEq, Repr

namespace MessageQueue

variable {dq : BackendQueue} {q q' : MessageQueue dq} {m : Message}

-- A message goes to the disk when there is no room for it in memory.
def put (q : MessageQueue dq) (m : Message) : Except String (MessageQueue dq) :=
  if q.memoryMsgChan.length < memQueueSize then
    .ok { q with memoryMsgChan := q.memoryMsgChan ++ [m] }
  else
    match dq.put q.backend m.writeTo with
    | .ok backend => .ok { q with backend }
    | .error e    => .error e

-- A receiver drops what it cannot decode.
def receive (q : MessageQueue dq) : Source → Option (Option Message × MessageQueue dq)
  | .memory =>
    match q.memoryMsgChan with
    | []      => none
    | m :: ms => some (some m, { q with memoryMsgChan := ms })
  | .backend =>
    match dq.read q.backend with
    | none              => none
    | some (b, backend) => some ((decodeMessage b).toOption, { q with backend })

def messages (q : MessageQueue dq) : List Message :=
  q.memoryMsgChan ++ (dq.contents q.backend).filterMap fun b => (decodeMessage b).toOption

theorem put_error_iff : (∃ e, q.put m = .error e) ↔
    memQueueSize ≤ q.memoryMsgChan.length ∧ maxMsgSize < minValidMsgLength + m.body.length := by
  have hd := dq.put_error_iff (q := q.backend) (b := m.writeTo)
  rw [Message.length_writeTo] at hd
  unfold put
  split
  case isTrue h  => simp [Nat.not_le_of_lt h]
  case isFalse h =>
    have hl : ¬(minValidMsgLength ≤ minValidMsgLength + m.body.length ∧
        minValidMsgLength + m.body.length ≤ maxMsgSize) ↔
        memQueueSize ≤ q.memoryMsgChan.length ∧ maxMsgSize < minValidMsgLength + m.body.length := by
      omega
    rw [← hl, ← hd]
    cases dq.put q.backend m.writeTo <;> simp

-- Up to the order and what is not kept on disk, a message that is put is what is added.
theorem put_messages (h : q.put m = .ok q') :
    (q'.messages.map Message.content).Perm (m.content :: q.messages.map Message.content) := by
  unfold put at h
  split at h
  case isTrue =>
    cases h
    simp only [messages, List.map_append, List.map_cons, List.append_assoc, List.singleton_append]
    exact List.perm_middle
  case isFalse =>
    split at h <;> cases h
    case h_1 hp =>
      simp only [messages, dq.put_ok hp, List.filterMap_append, List.map_append, ← List.append_assoc]
      simp only [List.filterMap_cons, Message.decode_writeTo, Except.toOption, List.filterMap_nil]
      exact List.perm_append_singleton ..

theorem receive_messages {src : Source} {r : Option Message} (h : q.receive src = some (r, q')) :
    q.messages.Perm (r.toList ++ q'.messages) := by
  cases src <;> simp only [receive] at h
  case memory =>
    split at h <;> cases h
    case h_2 hm => simp [messages, hm]
  case backend =>
    split at h <;> cases h
    case h_2 b backend hr =>
      simp only [messages, dq.read_some hr, List.filterMap_cons]
      cases decodeMessage b
      case error => exact .refl _
      case ok    => exact List.perm_middle

end MessageQueue

end Nsqd
