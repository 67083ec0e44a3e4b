import Mathlib.Data.List.AList
import LabSystems.ViewService.Basic

namespace PBService

open ViewService (View PingArgs ViewServer)

-- The value `unset` is the zero value of the error field of a reply.
inductive Err
  | unset
  | ok
  | noKey
  | wrongServer
  deriving DecidableEq, Repr

abbrev Db := AList fun _ : String => String

-- A key that is not in the map reads as the empty string.
def Db.read (db : Db) (key : String) : String :=
  db.lookup key |>.getD ""

structure GetArgs where
  key : String
  deriving DecidableEq, Repr

structure GetReply where
  err   : Err
  value : String
  deriving DecidableEq, Repr

structure PutAppendArgs where
  key    : String
  value  : String
  op     : String
  uid    : String
  client : String
  deriving DecidableEq, Repr

structure PutAppendReply where
  err : Err
  deriving DecidableEq, Repr

structure ForwardArgs where
  content : Db
  deriving DecidableEq

-- The key under which a server records that it has executed an update.
def PutAppendArgs.record (args : PutAppendArgs) : String :=
  "uid_" ++ args.client ++ "_" ++ args.uid

structure PBServer where
  me   : String
  db   : Db
  view : View
  deriving DecidableEq

namespace PBServer

def startServer (me : String) : PBServer where
  me   := me
  db   := ∅
  view := ⟨0, "", ""⟩

abbrev IsPrimary (pb : PBServer) : Prop :=
  pb.view.primary = pb.me

abbrev HasBackup (pb : PBServer) : Prop :=
  pb.view.backup ≠ ""

def get (pb : PBServer) (args : GetArgs) : GetReply :=
  if ¬pb.IsPrimary then
    ⟨.wrongServer, ""⟩
  else if pb.db.read args.key ≠ "" then
    ⟨.ok, pb.db.read args.key⟩
  else
    ⟨.noKey, ""⟩

-- The update which `PutAppend` makes, and its reply.
def execute (pb : PBServer) (args : PutAppendArgs) : PBServer × PutAppendReply :=
  let db := pb.db.insert args.record args.uid
  if args.op = "Append" then
    ({ pb with db := db.insert args.key (Db.read db args.key ++ args.value) }, ⟨.ok⟩)
  else if args.op = "Put" then
    ({ pb with db := db.insert args.key args.value }, ⟨.ok⟩)
  else
    ({ pb with db := db }, ⟨.unset⟩)

-- The reply of `PutAppend` if it returns early, without any update.
def refuse (pb : PBServer) (args : PutAppendArgs) : Option PutAppendReply :=
  if ¬pb.IsPrimary then
    some ⟨.wrongServer⟩
  else if pb.db.read args.record ≠ "" then
    some ⟨.unset⟩
  else
    none

-- The arguments of the ping with which `tick` begins.
def pingArgs (pb : PBServer) : PingArgs :=
  ⟨pb.me, pb.view.viewnum⟩

abbrev NeedForward (pb : PBServer) (view : View) : Prop :=
  view.backup ≠ "" ∧ view.backup ≠ pb.view.backup ∧ pb.IsPrimary

def processForward (pb : PBServer) (args : ForwardArgs) : PBServer :=
  { pb with db := args.content.entries.foldl (fun db e => db.insert e.1 e.2) pb.db }

end PBServer

end PBService
