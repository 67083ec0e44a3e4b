import Mathlib.Data.List.AList
import Mathlib.Data.List.Sort
import LabSystems.Bytes.Basic
import LabSystems.Crash.Basic

-- Files and directories as a program sees them through the calls of the operating system.
namespace Files

open Crash

inductive Error
  | exist
  | notExist
  | isDir
  | notEmpty
  | io
  deriving DecidableEq

abbrev Directory :=
  AList fun _ : Bytes => Bytes

-- The directories with their files. A path is the names on the way.
structure Disk where
  dirs : AList fun _ : List Bytes => Directory

-- Slashes in a row are like a single one.
def components (path : Bytes) : List Bytes :=
  path.splitOn 47 |>.filter (· ≠ [])

theorem components_append_slash {a b : Bytes} : components (a ++ 47 :: b) = components a ++ components b := by
  rw [components, List.splitOn_append_cons_self, List.filter_append, components, components]

theorem components_nil : components [] = [] := by
  simp [components]

theorem components_name {n : Bytes} (hn : n ≠ []) (h : 47 ∉ n) : components n = [n] := by
  simp [components, List.splitOn_eq_singleton h, hn]

namespace Disk

variable (s : Disk) (p : List Bytes)

def dir : Option Directory :=
  s.dirs.lookup p.dropLast

def setDir (d : Directory) : Disk where
  dirs := s.dirs.insert p d

def file : Option Bytes := do
  (← s.dir p).lookup <| p.getLastD []

def Exists : Prop :=
  p ∈ s.dirs ∨ (s.file p).isSome

instance : Decidable (s.Exists p) :=
  inferInstanceAs <| Decidable (_ ∨ _)

def stat : Except Error (Unit × Disk) :=
  if s.Exists p then .ok ((), s) else .error .notExist

def mkdir : Except Error (Unit × Disk) :=
  if s.Exists p then
    .error .exist
  else if p.dropLast ∈ s.dirs then
    .ok ((), s.setDir p ∅)
  else
    .error .notExist

-- A file that is opened for writing is emptied.
def create : Except Error (Unit × Disk) :=
  if p ∈ s.dirs then
    .error .isDir
  else match s.dir p with
    | none   => .error .notExist
    | some d => .ok ((), s.setDir p.dropLast <| d.insert (p.getLastD []) [])

def append (b : UInt8) : Except Error (Unit × Disk) :=
  match s.dir p, s.file p with
  | some d, some content => .ok ((), s.setDir p.dropLast <| d.insert (p.getLastD []) (content ++ [b]))
  | _, _                 => .error .notExist

def close : Except Error (Unit × Disk) :=
  .ok ((), s)

-- A file that has the new name is replaced.
def rename (q : List Bytes) : Except Error (Unit × Disk) :=
  match s.dir p, s.file p with
  | some d, some content =>
    if q ∈ s.dirs then
      .error .isDir
    else
      let s := s.setDir p.dropLast <| d.erase <| p.getLastD []
      match s.dir q with
      | none   => .error .notExist
      | some d => .ok ((), s.setDir q.dropLast <| d.insert (q.getLastD []) content)
  | _, _ => .error .notExist

def unlink : Except Error (Unit × Disk) :=
  match s.dir p with
  | none   => .error .notExist
  | some d =>
    if p.getLastD [] ∈ d then .ok ((), s.setDir p.dropLast <| d.erase <| p.getLastD []) else .error .notExist

-- A directory that is removed has no directories in it.
def rmdir : Except Error (Unit × Disk) :=
  match s.dirs.lookup p with
  | none   => .error .notExist
  | some d => if d.keys = [] then .ok ((), ⟨s.dirs.erase p⟩) else .error .notEmpty

def names : Except Error (List Bytes × Disk) :=
  match s.dirs.lookup p with
  | none   => .error .notExist
  | some d => .ok (d.keys, s)

def read : Except Error (Bytes × Disk) :=
  match s.file p with
  | none         => .error .notExist
  | some content => .ok (content, s)

end Disk

-- A result with an error is an error.
def errorOf : Except Error α → Option Error
  | .ok _    => none
  | .error e => some e

def call (f : Disk → Except Error (α × Disk)) : Program Disk (Except Error α) :=
  Program.call .io f

def stat (path : Bytes) : Program Disk (Except Error Unit) :=
  call (·.stat <| components path)

def mkdir (path : Bytes) : Program Disk (Except Error Unit) :=
  call (·.mkdir <| components path)

def rename (oldpath newpath : Bytes) : Program Disk (Except Error Unit) :=
  call (·.rename (components oldpath) (components newpath))

def readFile (path : Bytes) : Program Disk (Except Error Bytes) :=
  call (·.read <| components path)

-- The bytes are written one after the other, so that any number of them may have been when the system goes down.
def write (path : Bytes) : Bytes → Program Disk (Option Error)
  | []      => return none
  | b :: bs => do
    match ← call (·.append (components path) b) with
    | .error e => return some e
    | .ok _    => write path bs

def writeFile (path data : Bytes) : Program Disk (Option Error) := do
  match ← call (·.create <| components path) with
  | .error e => return some e
  | .ok _    =>
    let err ← write path data
    let err₁ ← call (·.close)
    return err <|> errorOf err₁

-- The names are sorted.
def readDir (path : Bytes) : Program Disk (Except Error (List Bytes)) := do
  match ← call (·.names <| components path) with
  | .error e  => return .error e
  | .ok names => return .ok <| names.mergeSort (· ≤ ·)

-- The names that have been found in a directory, in the order of their ranks.
def ranked (rank : Bytes → Nat) : Except Error (List Bytes) → List Bytes
  | .error _  => []
  | .ok names => names.mergeSort (rank · ≤ rank ·)

-- Everything that can be removed is removed, in any order, and the first error is returned.
def removeAll (rank : Bytes → Nat) (path : Bytes) : Program Disk (Option Error) := do
  let names ← call (·.names <| components path)
  let err ← (ranked rank names).foldlM (fun err name => do
    let err₁ ← call (·.unlink <| components path ++ [name])
    return err <|> errorOf err₁) none
  match ← call (·.rmdir <| components path) with
  | .ok _            => return none
  | .error .notExist => return none
  | .error e         => return err <|> some e

end Files
