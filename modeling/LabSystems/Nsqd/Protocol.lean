import LabSystems.Bytes.Decimal
import LabSystems.Nsqd.Topic

namespace Nsqd

def getBackendName (topicName channelName : Bytes) : Bytes :=
  topicName ++ .ofString ":" ++ channelName

-- What has a queue on disk.
inductive Queue
  | topic (name : Bytes)
  | channel (topicName name : Bytes)
  deriving DecidableEq, Repr

-- The name under which `diskqueue.New` opens it. All of them are in the same directory.
def Queue.backendName : Queue → Bytes
  | .topic name             => name
  | .channel topicName name => getBackendName topicName name

-- The topics in `topicMap`, and the channels in their `channelMap`.
structure NSQD where
  queues : List Queue
  deriving DecidableEq, Repr

namespace NSQD

-- A queue is opened when its topic or channel is created.
def create (n : NSQD) (q : Queue) : NSQD × List (Queue × Bytes) :=
  if q ∈ n.queues then (n, []) else (⟨n.queues ++ [q]⟩, [(q, q.backendName)])

def getTopic (n : NSQD) (topicName : Bytes) : NSQD × List (Queue × Bytes) :=
  n.create <| .topic topicName

def getChannel (n : NSQD) (topicName channelName : Bytes) : NSQD × List (Queue × Bytes) :=
  n.create <| .channel topicName channelName

-- A line ends with LF or with CRLF, and its LF has been taken away.
def params (line : Bytes) : List Bytes :=
  let line := if line.getLast? = some 13 then line.dropLast else line
  line.splitOn 32

-- A topic is created after its first message has been read.
def pub (n : NSQD) (params : List Bytes) (input : Bytes) : NSQD × List (Queue × Bytes) :=
  match readPUB params input with
  | .ok (topicName, _, _) => n.getTopic topicName
  | .error _              => (n, [])

def sub (n : NSQD) (params : List Bytes) : NSQD × List (Queue × Bytes) :=
  match params with
  | _ :: topicName :: channelName :: _ =>
    let (n, opened) := n.getTopic topicName
    let (n, opened') := n.getChannel topicName channelName
    (n, opened ++ opened')
  | _ => (n, [])

-- Only these commands use a topic or a channel by its name.
def exec (n : NSQD) (params : List Bytes) (input : Bytes) : NSQD × List (Queue × Bytes) :=
  if params.head? = some (.ofString "SUB") then
    n.sub params
  else if params.head? = some (.ofString "PUB") then
    n.pub params input
  else
    (n, [])

end NSQD

-- A line that a client sends, with the bytes that follow it.
structure Command where
  line  : Bytes
  input : Bytes

-- The events are the queues that are opened, with the names under which they are opened.
def nsqd : Machine NSQD Command (Queue × Bytes) where
  init   := ⟨[]⟩
  step n := fun ⟨line, input⟩ => some <| n.exec (NSQD.params line) input

end Nsqd
