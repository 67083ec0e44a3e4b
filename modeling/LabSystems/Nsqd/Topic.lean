import LabSystems.Machine.Basic
import LabSystems.Ordered.Map
import LabSystems.Nsqd.BackendQueue

namespace Nsqd

-- The length of a body, or 0 when the input ends before.
def readLen (input : Bytes) : Int32 × Bytes :=
  if input.length < 4 then
    (0, [])
  else
    ((Bytes.toNat (input.take 4).reverse).toUInt32.toInt32, input.drop 4)

-- The name and the body that `PUB` reads, and the input that it leaves.
def readPUB (params : List Bytes) (input : Bytes) : Except String (Bytes × Bytes × Bytes) :=
  match params with
  | _ :: topicName :: _ =>
    let (bodyLen, input) := readLen input
    if bodyLen ≤ 0 then
      .error "PUB invalid message body size"
    else if input.length < bodyLen.toInt.toNat then
      .error "PUB failed to read message body"
    else
      .ok (topicName, input.take bodyLen.toInt.toNat, input.drop bodyLen.toInt.toNat)
  | _ => .error "PUB insufficient number of params"

abbrev Channel := MessageQueue

-- The queues on disk, which are there before a topic and its channels.
structure Disk (dq : BackendQueue) where
  topic   : dq.Queue
  channel : Bytes → dq.Queue

-- The goroutine that executes `messagePump`: before it reads the channels, before `select`, and
-- before the channel with a given index gets a message.
inductive Pump
  | starting
  | select (chans : List Bytes)
  | deliver (chans : List Bytes) (msg : Message) (i : Nat)
  deriving DecidableEq

structure Topic (dq : BackendQueue) where
  name       : Bytes
  queue      : MessageQueue dq
  channelMap : Ordered.Map Bytes (Channel dq)
  -- the calls of `GetChannel` that are blocked on `channelUpdateChan`
  creating   : Nat
  pump       : Pump

inductive Action
  | pub (params : List Bytes) (input : Bytes) (id : MessageID) (now : Int64)
  | getChannel (name : Bytes)
  -- `messagePump` reads the channels, in any order
  | start (chans : List Bytes)
  | update (chans : List Bytes)
  | take (src : Source)
  | deliver
  -- a consumer receives from a channel
  | consume (channel : Bytes) (src : Source)
  deriving DecidableEq

inductive Event
  -- `PUB` is answered OK
  | published (m : Message)
  | refused (error : String)
  | took (m : Message) (chans : List Bytes)
  | enqueued (channel : Bytes) (m : Message)
  | consumed (channel : Bytes) (m : Message)
  deriving DecidableEq

namespace Topic

variable {dq : BackendQueue}

def newTopic (name : Bytes) (disk : Disk dq) : Topic dq where
  name       := name
  queue      := ⟨[], disk.topic⟩
  channelMap := .empty
  creating   := 0
  pump       := .starting

def putMessage (t : Topic dq) (m : Message) : Except String (Topic dq) :=
  match t.queue.put m with
  | .ok queue => .ok { t with queue }
  | .error e  => .error e

-- A command with the name of another topic does not concern this one.
def pub (t : Topic dq) (params : List Bytes) (input : Bytes) (id : MessageID) (now : Int64) :
    Option (Topic dq × List Event) :=
  match readPUB params input with
  | .error e => some (t, [.refused e])
  | .ok (topicName, body, _) =>
    if topicName = t.name then
      let m := { id, body, timestamp := now }
      match t.putMessage m with
      | .ok t    => some (t, [.published m])
      | .error e => some (t, [.refused <| "PUB failed " ++ e])
    else
      none

def getChannel (disk : Disk dq) (t : Topic dq) (name : Bytes) : Topic dq :=
  match t.channelMap.get name with
  | some _ => t
  | none   =>
    { t with channelMap := t.channelMap.insert name ⟨[], disk.channel name⟩, creating := t.creating + 1 }

def chans (t : Topic dq) : List Bytes :=
  t.channelMap.entries.map (·.1)

-- The first channel gets the message itself, and the others get a copy.
def chanMsg (m : Message) (i : Nat) : Message :=
  if i > 0 then { id := m.id, body := m.body, timestamp := m.timestamp, deferred := m.deferred } else m

-- An error of `PutMessage` is printed.
def deliver (t : Topic dq) : Option (Topic dq × List Event) :=
  match t.pump with
  | .deliver chans m i =>
    match chans[i]? with
    | none   => some ({ t with pump := .select chans }, [])
    | some c =>
      match t.channelMap.get c with
      | none   => none
      | some q =>
        match q.put <| chanMsg m i with
        | .ok q =>
          some ({ t with channelMap := t.channelMap.insert c q, pump := .deliver chans m (i + 1) },
            [.enqueued c <| chanMsg m i])
        | .error _ => some ({ t with pump := .deliver chans m (i + 1) }, [])
  | _ => none

def step (disk : Disk dq) (t : Topic dq) : Action → Option (Topic dq × List Event)
  | .pub params input id now => t.pub params input id now
  | .getChannel name         => some (t.getChannel disk name, [])
  | .start chans =>
    if t.pump = .starting ∧ chans.Perm t.chans then some ({ t with pump := .select chans }, []) else none
  | .update chans =>
    match t.pump with
    | .select _ =>
      if 0 < t.creating ∧ chans.Perm t.chans then
        some ({ t with pump := .select chans, creating := t.creating - 1 }, [])
      else
        none
    | _ => none
  | .take src =>
    match t.pump with
    | .select (c :: chans) =>
      match t.queue.receive src with
      | none                 => none
      | some (none, queue)   => some ({ t with queue }, [])
      | some (some m, queue) => some ({ t with queue, pump := .deliver (c :: chans) m 0 }, [.took m (c :: chans)])
    | _ => none
  | .deliver       => t.deliver
  | .consume c src =>
    match t.channelMap.get c with
    | none   => none
    | some q =>
      match q.receive src with
      | none        => none
      | some (m, q) => some ({ t with channelMap := t.channelMap.insert c q }, m.toList.map (.consumed c))

end Topic

def topic {dq : BackendQueue} (name : Bytes) (disk : Disk dq) : Machine (Topic dq) Action Event where
  init := .newTopic name disk
  step := Topic.step disk

abbrev Transition {dq : BackendQueue} (name : Bytes) (disk : Disk dq) :=
  (topic name disk).Transition

end Nsqd
