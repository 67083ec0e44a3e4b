import LabSystems.MapReduce.Jobs

namespace MapReduce

-- The limit of `bufio.Scanner`.
def maxScanTokenSize : Nat :=
  64 * 1024

-- What is between line feeds. The last line may have none.
def rawLines : Bytes → List Bytes
  | []     => []
  | c :: b =>
    if c = 10 then
      [] :: rawLines b
    else
      match rawLines b with
      | []      => [[c]]
      | l :: ls => (c :: l) :: ls

def dropCR (line : Bytes) : Bytes :=
  if line.getLast? = some 13 then line.dropLast else line

-- The lines according to `bufio.ScanLines`.
def scanLines (b : Bytes) : List Bytes :=
  (rawLines b).map dropCR

-- The scanner stops at a line which, with its end, does not fit into its buffer.
def scan (b : Bytes) : List Bytes :=
  ((rawLines b).takeWhile (·.length < maxScanTokenSize)).map dropCR

-- The variables of `Split`, with the files and the names of those that it has created.
structure Splitting where
  files   : Files
  created : List String
  outfile : String
  m       : Nat
  i       : Nat

namespace Splitting

def create (s : Splitting) (name : String) : Splitting :=
  { s with files := Function.update s.files name (some []), created := s.created ++ [name], outfile := name }

def writeString (s : Splitting) (line : Bytes) : Splitting :=
  { s with files := Function.update s.files s.outfile <| (s.files s.outfile).map (· ++ line) }

-- One iteration of the loop.
def next (nchunk : Nat) (fileName : String) (s : Splitting) (text : Bytes) : Splitting :=
  let s := if s.i > nchunk * s.m then { s.create (mapName fileName s.m) with m := s.m + 1 } else s
  let line := text ++ [10]
  { s.writeString line with i := s.i + line.length }

end Splitting

-- A file that cannot be opened ends the program, and so does a division by zero.
def split (nMap : Nat) (fileName : String) (fs : Files) : Option Splitting := do
  let b ← fs fileName
  if nMap = 0 then
    none
  else
    let nchunk := b.length / nMap + 1
    let s := Splitting.create ⟨fs, [], "", 1, 0⟩ (mapName fileName 0)
    return (scan b).foldl (Splitting.next nchunk fileName) s

end MapReduce
