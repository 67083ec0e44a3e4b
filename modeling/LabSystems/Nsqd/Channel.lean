import LabSystems.Nsqd.InFlightPqueue

namespace Nsqd

-- What a channel keeps of the messages that are in flight.
structure InFlightChannel where
  inFlightMessages : MessageID → Option Ref
  inFlightPQ       : InFlightPqueue

-- A call of `StartInFlightTimeout`, and what the clock shows then.
structure Start where
  msg      : Ref
  clientID : Int64
  now      : Int
  deriving DecidableEq, Repr

def unixNano (t : Int) : Int64 :=
  .ofInt t

namespace InFlightChannel

def pqSize : Nat := 1024

def new (messages : Ref → InFlight) : InFlightChannel where
  inFlightMessages _ := none
  inFlightPQ         := .new messages pqSize

def message (c : InFlightChannel) (msg : Ref) : InFlight :=
  c.inFlightPQ.messages msg

def pushInFlightMessage (c : InFlightChannel) (msg : Ref) : Except String InFlightChannel :=
  match c.inFlightMessages (c.message msg).id with
  | some _ => .error "ID already in flight"
  | none   => .ok { c with inFlightMessages := Function.update c.inFlightMessages (c.message msg).id msg }

def addToInFlightPQ (c : InFlightChannel) (msg : Ref) : Option InFlightChannel :=
  c.inFlightPQ.push msg |>.map ({ c with inFlightPQ := · })

-- The fields of the message are set before its ID is looked up.
def startInFlightTimeout (c : InFlightChannel) (s : Start) : Option (InFlightChannel × Option String) :=
  let message := { c.message s.msg with
    clientID   := s.clientID
    deliveryTS := s.now
    pri        := unixNano s.now }
  let c := { c with inFlightPQ := c.inFlightPQ.write s.msg message }
  match c.pushInFlightMessage s.msg with
  | .error err => some (c, some err)
  | .ok c      => c.addToInFlightPQ s.msg |>.map (·, none)

end InFlightChannel

-- There is no channel any more after a panic. A call emits the error that it returns.
def inFlight (messages : Ref → InFlight) : Machine (Option InFlightChannel) Start (Option String) where
  init     := some <| .new messages
  step o s := o.map fun c =>
    match c.startInFlightTimeout s with
    | none          => (none, [])
    | some (c, err) => (some c, [err])

end Nsqd
