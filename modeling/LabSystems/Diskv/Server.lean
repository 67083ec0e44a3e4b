import LabSystems.Bytes.Base32
import LabSystems.Files.Disk
import LabSystems.Machine.Basic

namespace Diskv

open Crash Files

structure DisKV where
  dir : Bytes

abbrev Shard :=
  AList fun _ : Bytes => Bytes

namespace DisKV

variable (kv : DisKV)

-- The directory is created if needed.
def shardDir (shard : Int) : Program Disk Bytes := do
  let d := kv.dir ++ Bytes.ofString "/shard-" ++ Bytes.signed shard ++ Bytes.ofString "/"
  match ← stat d with
  | .ok _    => return d
  | .error _ =>
    match ← mkdir d with
    | .ok _    => return d
    | .error _ => .halt

-- Keys might contain characters like slashes.
def encodeKey (key : Bytes) : Bytes :=
  Base32.encodeToString key

def decodeKey (filename : Bytes) : Option Bytes :=
  Base32.decodeString filename

def fileGet (shard : Int) (key : Bytes) : Program Disk (Bytes × Option Error) := do
  let fullname := (← kv.shardDir shard) ++ Bytes.ofString "/key-" ++ encodeKey key
  match ← readFile fullname with
  | .ok content => return (content, none)
  | .error e    => return ([], some e)

def filePut (shard : Int) (key content : Bytes) : Program Disk (Option Error) := do
  let fullname := (← kv.shardDir shard) ++ Bytes.ofString "/key-" ++ encodeKey key
  let tempname := (← kv.shardDir shard) ++ Bytes.ofString "/temp-" ++ encodeKey key
  match ← writeFile tempname content with
  | some err => return some err
  | none     =>
    match ← rename tempname fullname with
    | .error err => return some err
    | .ok _      => return none

-- The loop body of `fileReadShard`. A name that is too short cannot be sliced.
def readName (shard : Int) (m : Shard) (n1 : Bytes) : Program Disk Shard := do
  if n1.length < 4 then
    .halt
  else if n1.take 4 = Bytes.ofString "key-" then
    match decodeKey <| n1.drop 4 with
    | none     => .halt
    | some key =>
      match ← kv.fileGet shard key with
      | (_, some _)     => .halt
      | (content, none) => return m.insert key content
  else
    return m

def fileReadShard (shard : Int) : Program Disk Shard := do
  match ← readDir (← kv.shardDir shard) with
  | .error _  => .halt
  | .ok files => files.foldlM (kv.readName shard) ∅

-- What `RemoveAll` and `filePut` return is ignored. The loop goes through the map in the order of its entries.
def fileReplaceShard (shard : Int) (m : Shard) (rank : Bytes → Nat) : Program Disk Unit := do
  let _ ← removeAll rank (← kv.shardDir shard)
  m.entries.foldlM (fun _ kv' => do
    let _ ← kv.filePut shard kv'.fst kv'.snd) ()

end DisKV

inductive Request
  | get (shard : Int) (key : Bytes)
  | put (shard : Int) (key content : Bytes)
  | read (shard : Int)
  | replace (shard : Int) (m : Shard) (rank : Bytes → Nat)

-- A request comes with the fates of the calls that it takes.
structure Action where
  request : Request
  fates   : List Fate

inductive Event
  | got (content : Bytes) (err : Option Error)
  | put (err : Option Error)
  | read (m : Shard)
  | replaced
  | down

namespace DisKV

variable (kv : DisKV)

def serve : Request → Program Disk Event
  | .get shard key         => do
    let (content, err) ← kv.fileGet shard key
    return .got content err
  | .put shard key content => return .put (← kv.filePut shard key content)
  | .read shard            => return .read (← kv.fileReadShard shard)
  | .replace shard m rank  => do
    kv.fileReplaceShard shard m rank
    return .replaced

-- A server that goes down is restarted with the disk as it is.
def step (s : Disk) (a : Action) : Option (Disk × List Event) :=
  match kv.serve a.request ⟨s, a.fates⟩ with
  | (some e, w) => some (w.disk, [e])
  | (none, w)   => some (w.disk, [.down])

-- Each server has a directory of its own, which is there and is empty when it is started for the first time.
def server : Machine Disk Action Event where
  init := ⟨AList.singleton (components kv.dir) ∅⟩
  step := kv.step

end DisKV
end Diskv
