import LabSystems.Bytes.Basic

namespace Posix

-- A result of read(2). The number of bytes is positive.
inductive Result
  | bytes (ret : Nat)
  | eof
  | eintr
  | error
  deriving DecidableEq

-- The variables of `sys_read`, where `buf` is the distance from its first value. The file descriptor has the position
-- `offset`, and `written` has the positions of the memory that have been written.
structure Reading where
  buf     : Nat
  len     : Nat
  offset  : Nat
  memory  : Nat → UInt8
  written : List Nat

namespace Reading

def start (memory : Nat → UInt8) (len : Nat) : Reading where
  buf     := 0
  len     := len
  offset  := 0
  memory  := memory
  written := []

-- The kernel delivers between one and `len` bytes, which the file has.
def Delivers (file : Bytes) (s : Reading) (ret : Nat) : Prop :=
  0 < ret ∧ ret ≤ s.len ∧ s.offset + ret ≤ file.length

instance : Decidable (Delivers file s ret) :=
  inferInstanceAs <| Decidable (_ ∧ _ ∧ _)

def deliver (file : Bytes) (s : Reading) (ret : Nat) : Reading :=
  { s with
    offset  := s.offset + ret
    memory  := fun i =>
      if s.buf ≤ i ∧ i < s.buf + ret then file.getD (s.offset + (i - s.buf)) 0 else s.memory i
    written := s.written ++ List.range' s.buf ret }

-- The pointer moves on by the length that was asked for.
def advance (s : Reading) (ret : Nat) : Reading :=
  { s with buf := s.buf + s.len, len := s.len - ret }

-- The loop ends without a result if there is no next result of read(2), or if the next one is impossible.
def sysRead (file : Bytes) (s : Reading) : List Result → Option Reading
  | [] => if s.len = 0 then some s else none
  | r :: rs =>
    if s.len = 0 then
      some s
    else match r with
      | .eof       => some s
      | .eintr     => s.sysRead file rs
      | .error     => some s
      | .bytes ret =>
        if s.Delivers file ret then ((s.deliver file ret).advance ret).sysRead file rs else none

end Reading
end Posix
