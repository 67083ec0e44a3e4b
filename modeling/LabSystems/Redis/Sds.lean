import LabSystems.Bytes.Basic
import LabSystems.Words.Basic

namespace Redis

-- The conversions between `int` and `size_t`.
def toSize (n : Int32) : UInt64 :=
  n.toInt64.toUInt64

def ofSize (n : UInt64) : Int32 :=
  n.toUInt32.toInt32

def SDS_MAX_PERALLOC : UInt64 :=
  1024 * 1024

-- The buffer has all bytes that are allocated after the header.
structure Sdshdr where
  len  : Int32
  free : Int32
  buf  : Bytes
  deriving DecidableEq

-- A string that is appended, and what newly allocated memory holds at that time.
structure Call where
  bytes : Bytes
  fresh : Nat → UInt8

-- A write outside the allocated bytes is undefined.
def write (buf : Bytes) (i : UInt64) (bs : Bytes) : Option Bytes :=
  if i.toNat + bs.length ≤ buf.length then
    some <| buf.take i.toNat ++ bs ++ buf.drop (i.toNat + bs.length)
  else
    none

def realloc (buf : Bytes) (size : UInt64) (fresh : Nat → UInt8) : Bytes :=
  List.ofFn fun i : Fin size.toNat => buf.getD i <| fresh i

namespace Sdshdr

def sdslen (sh : Sdshdr) : UInt64 :=
  toSize sh.len

def sdsavail (sh : Sdshdr) : UInt64 :=
  toSize sh.free

def sdsnewlen (initlen : UInt64) (fresh : Nat → UInt8) : Option Sdshdr := do
  let buf ← write (realloc [] (initlen + 1) fresh) initlen [0]
  return ⟨ofSize initlen, 0, buf⟩

def sdsMakeRoomFor (sh : Sdshdr) (addlen : UInt64) (fresh : Nat → UInt8) : Sdshdr :=
  if addlen ≤ sh.sdsavail then
    sh
  else
    let len := sh.sdslen
    let newlen := len + addlen
    let newlen := if newlen < SDS_MAX_PERALLOC then newlen * 2 else SDS_MAX_PERALLOC
    { sh with buf := realloc sh.buf (newlen + 1) fresh, free := ofSize (newlen - len) }

def sdscatlen (sh : Sdshdr) (c : Call) : Option Sdshdr := do
  let curlen := sh.sdslen
  let len := c.bytes.length.toUInt64
  let sh := sh.sdsMakeRoomFor len c.fresh
  let buf ← write sh.buf curlen c.bytes
  let buf ← write buf (curlen + len) [0]
  return ⟨ofSize (curlen + len), ofSize (sh.sdsavail - len), buf⟩

end Sdshdr

-- A new string, to which strings are appended one after another.
def sds (fresh : Nat → UInt8) (cs : List Call) : Option Sdshdr := do
  cs.foldlM Sdshdr.sdscatlen (← Sdshdr.sdsnewlen 0 fresh)

end Redis
