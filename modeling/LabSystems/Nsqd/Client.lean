import LabSystems.Nsqd.Protocol

namespace Nsqd

-- A channel, by the names of its topic and its own. Topics and channels are never deleted.
abbrev Subscription := Bytes × Bytes

inductive Response
  | error (text : String)
  | response (data : Bytes)
  deriving DecidableEq, Repr

-- Where the goroutine of `IOLoop` is: before it reads a line, in `GetChannel` of a new channel, which
-- waits for the topic's `messagePump`, in `SUB` before it sends to `SubEventChan`, and before it
-- writes a response.
inductive IOLoop
  | reading
  | creating (channel : Subscription)
  | subscribing (channel : Subscription)
  | responding (response : Response)
  | closed
  deriving DecidableEq, Repr

-- The variables of the client's `messagePump`. It waits for `SubEventChan` if its own copy of that
-- channel is not nil.
structure ClientPump where
  subEventChan : Bool
  subChannel   : Option Subscription
  exited       : Bool
  deriving DecidableEq, Repr

structure ClientV2 where
  channel      : Option Subscription
  -- what is in the buffer, which has one place
  subEventChan : List Subscription
  io           : IOLoop
  pump         : ClientPump
  nsqd         : NSQD
  deriving DecidableEq, Repr

inductive Exec
  | sub (channel : Subscription)
  | response (data : Bytes)
  | none
  | error (text : String)
  deriving DecidableEq, Repr

-- What is left to do for a command after its parameters have been read. `put` is what `PutMessage`
-- returns.
def exec (params : List Bytes) (input : Bytes) (put : Except String Unit) : Exec :=
  if params.head? = some (.ofString "SUB") then
    match params with
    | _ :: topicName :: channelName :: _ => .sub (topicName, channelName)
    | _                                  => .error "SUB insufficient number of params"
  else if params.head? = some (.ofString "FIN") then
    match params with
    | _ :: id :: _ => if id.length ≠ msgIDLength then .error "E_INVALID Invalid Message ID" else .none
    | _            => .error "FIN insufficient number of params"
  else if params.head? = some (.ofString "PUB") then
    match readPUB params input with
    | .error e => .error e
    | .ok _    =>
      match put with
      | .error e => .error <| "PUB failed " ++ e
      | .ok _    => .response <| .ofString "OK"
  else
    .error "invalid command"

namespace ClientV2

inductive Action
  -- `IOLoop` reads a line, without its LF, and calls `Exec`
  | command (c : Command) (put : Except String Unit)
  -- `messagePump` of the topic receives from `channelUpdateChan`
  | update
  | subscribe
  | respond (sent : Bool)
  | close
  -- `messagePump` of the client receives from `SubEventChan`
  | receive
  -- it gets a message from the channel, which it writes to the connection
  | message (sent : Bool)
  -- a command of another client
  | other (c : Command)

inductive Event
  -- `IOLoop` enters `SUB` for a channel
  | entered (channel : Subscription)
  -- `SUB` returns OK
  | answered (channel : Subscription)
  deriving DecidableEq, Repr

def newClientV2 : ClientV2 where
  channel      := none
  subEventChan := []
  io           := .reading
  pump         := ⟨true, none, false⟩
  nsqd         := ⟨[]⟩

def command (c : ClientV2) (cmd : Command) (put : Except String Unit) : ClientV2 × List Event :=
  let params := NSQD.params cmd.line
  let nsqd := (c.nsqd.exec params cmd.input).1
  match exec params cmd.input put with
  | .sub (t, ch) =>
    if .channel t ch ∈ c.nsqd.queues then
      ({ c with nsqd, io := .subscribing (t, ch), channel := some (t, ch) }, [.entered (t, ch)])
    else
      ({ c with nsqd, io := .creating (t, ch) }, [.entered (t, ch)])
  | .response data => ({ c with nsqd, io := .responding <| .response data }, [])
  | .none          => (c, [])
  | .error e       => ({ c with nsqd, io := .responding <| .error e }, [])

def step (c : ClientV2) : Action → Option (ClientV2 × List Event)
  | .command cmd put =>
    match c.io with
    | .reading => some <| c.command cmd put
    | _        => none
  | .update =>
    match c.io with
    | .creating ch => some ({ c with io := .subscribing ch, channel := some ch }, [])
    | _            => none
  | .subscribe =>
    match c.io with
    | .subscribing ch =>
      if c.subEventChan.length < 1 then
        some ({ c with subEventChan := c.subEventChan ++ [ch], io := .responding <| .response <| .ofString "OK" },
          [.answered ch])
      else
        none
    | _ => none
  | .respond sent =>
    match c.io with
    | .responding (.error _)    => some ({ c with io := .closed }, [])
    | .responding (.response _) => some ({ c with io := if sent then .reading else .closed }, [])
    | _                         => none
  | .close =>
    match c.io with
    | .reading => some ({ c with io := .closed }, [])
    | _        => none
  | .receive =>
    match c.subEventChan with
    | ch :: chs =>
      if c.pump.subEventChan ∧ ¬c.pump.exited then
        some ({ c with subEventChan := chs, pump := { c.pump with subEventChan := false, subChannel := some ch } }, [])
      else
        none
    | [] => none
  | .message sent =>
    if c.pump.subChannel.isSome ∧ ¬c.pump.exited then
      some ({ c with pump := { c.pump with exited := !sent } }, [])
    else
      none
  | .other cmd => some ({ c with nsqd := (c.nsqd.exec (NSQD.params cmd.line) cmd.input).1 }, [])

end ClientV2

-- One connection, with all other clients of the same daemon.
def client : Machine ClientV2 ClientV2.Action ClientV2.Event where
  init := .newClientV2
  step := ClientV2.step

end Nsqd
