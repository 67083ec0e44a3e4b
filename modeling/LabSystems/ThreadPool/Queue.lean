import Mathlib.Logic.Function.Basic

namespace ThreadPool

abbrev Addr := Nat

-- The fields `prev` and `next` of every `ngx_queue_t` in memory.
structure Links where
  prev : Addr → Addr
  next : Addr → Addr

namespace Links

def setPrev (l : Links) (x y : Addr) : Links :=
  { l with prev := Function.update l.prev x y }

def setNext (l : Links) (x y : Addr) : Links :=
  { l with next := Function.update l.next x y }

-- Something is stored at an address, at which the field of a node may be.
def store (l : Links) (a : Addr) (y : Addr) : Links where
  prev x := if x = a then y else l.prev x
  next x := if x + 8 = a then y else l.next x

def init (l : Links) (q : Addr) : Links :=
  (l.setPrev q q).setNext q q

def empty (l : Links) (h : Addr) : Bool :=
  h == l.prev h

def insertTail (l : Links) (h x : Addr) : Links :=
  let l := l.setPrev x (l.prev h)
  let l := l.setNext (l.prev x) x
  let l := l.setNext x h
  l.setPrev h x

def head (l : Links) (h : Addr) : Addr :=
  l.next h

def remove (l : Links) (x : Addr) : Links :=
  let l := l.setPrev (l.next x) (l.prev x)
  l.setNext (l.prev x) (l.next x)

end Links
end ThreadPool
