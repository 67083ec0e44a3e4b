import LabSystems.Bytes.Basic
import LabSystems.Grouping.Basic
import LabSystems.MapReduce.Master

namespace MapReduce

structure KeyValue where
  key   : String
  value : String
  deriving DecidableEq, Repr

-- The encoder and the decoder of a package of its own. What has been encoded one after another is
-- decoded one after another.
structure Json where
  encode        : KeyValue → Bytes
  decode        : Bytes → Option (KeyValue × Bytes)
  decode_nil    : decode [] = none
  decode_encode : ∀ kv rest, decode (encode kv ++ rest) = some (kv, rest)

-- The contents of the files that exist.
abbrev Files :=
  String → Option Bytes

def mapName (fileName : String) (mapJob : Nat) : String :=
  "mrtmp." ++ fileName ++ "-" ++ toString mapJob

def reduceName (fileName : String) (mapJob reduceJob : Nat) : String :=
  mapName fileName mapJob ++ "-" ++ toString reduceJob

def mergeName (fileName : String) (reduceJob : Nat) : String :=
  "mrtmp." ++ fileName ++ "-res-" ++ toString reduceJob

def outputName (fileName : String) : String :=
  "mrtmp." ++ fileName

def bytes (s : String) : Bytes :=
  s.toByteArray.data.toList

-- FNV-1a.
def ihash (s : String) : UInt32 :=
  (bytes s).foldl (fun h b => (h ^^^ b.toUInt32) * 16777619) 2166136261

-- `sort.Strings`
def sortStrings (l : List String) : List String :=
  Grouping.sortBy bytes l

-- The loop that calls `Decode` until it reports an error. Every round takes at least one byte.
def decodeAll (json : Json) : Nat → Bytes → List KeyValue
  | 0, _     => []
  | n + 1, b =>
    match json.decode b with
    | none           => []
    | some (kv, rest) => kv :: decodeAll json n rest

def readAll (json : Json) (b : Bytes) : List KeyValue :=
  decodeAll json b.length b

-- A division by zero panics.
def writePartition (json : Json) (nreduce r : Nat) (res : List KeyValue) : Option Bytes :=
  res.foldlM (fun out kv =>
    if nreduce.toUInt32 = 0 then
      none
    else if ihash kv.key % nreduce.toUInt32 = r.toUInt32 then
      some (out ++ json.encode kv)
    else
      some out) []

-- The buffer of a file's size after one call of `file.Read` that transfers `n` bytes. No call follows for the others.
def readOnce (b : Bytes) (n : Nat) : Bytes :=
  b.take n ++ .replicate (b.length - n) 0

section Jobs

variable (json : Json) (Map : Bytes → List KeyValue) (Reduce : String → List String → String)

-- The number of bytes that `file.Read` returns is ignored.
def doMap (jobNumber : Nat) (fileName : String) (nreduce n : Nat) (fs : Files) : Option Files := do
  let b ← fs <| mapName fileName jobNumber
  let res := Map <| readOnce b n
  (List.range nreduce).foldlM (fun fs r => do
    let out ← writePartition json nreduce r res
    return Function.update fs (reduceName fileName jobNumber r) (some out)) fs

def pushBack (kvs : AList fun _ : String => List String) (kv : KeyValue) : AList fun _ : String => List String :=
  kvs.insert kv.key <| (kvs.lookup kv.key).getD [] ++ [kv.value]

def doReduce (job : Nat) (fileName : String) (nmap : Nat) (fs : Files) : Option Files := do
  let kvs ← (List.range nmap).foldlM (fun kvs i => do
    let b ← fs <| reduceName fileName i job
    return (readAll json b).foldl pushBack kvs) ∅
  let keys := sortStrings kvs.keys
  let out := keys.flatMap fun k => json.encode ⟨k, Reduce k <| (kvs.lookup k).getD []⟩
  return Function.update fs (mergeName fileName job) (some out)

-- A line of the output.
def line (kv : KeyValue) : Bytes :=
  bytes (kv.key ++ ": " ++ kv.value ++ "\n")

def merge (mr : MapReduce) (fs : Files) : Option Files := do
  let kvs ← (List.range mr.nReduce).foldlM (fun kvs i => do
    let b ← fs <| mergeName mr.file i
    return (readAll json b).foldl (fun (kvs : AList fun _ : String => String) kv => kvs.insert kv.key kv.value) kvs) ∅
  let keys := sortStrings kvs.keys
  let out := keys.flatMap fun k => line ⟨k, (kvs.lookup k).getD ""⟩
  return Function.update fs (outputName mr.file) (some out)

-- `RunSingle` after the split. Map job `i` reads `counts i` bytes.
def runJobs (mr : MapReduce) (counts : Nat → Nat) (fs : Files) : Option Files := do
  let fs ← (List.range mr.nMap).foldlM (fun fs i => doMap json Map i mr.file mr.nReduce (counts i) fs) fs
  let fs ← (List.range mr.nReduce).foldlM (fun fs i => doReduce json Reduce i mr.file mr.nMap fs) fs
  merge json mr fs

end Jobs

end MapReduce
