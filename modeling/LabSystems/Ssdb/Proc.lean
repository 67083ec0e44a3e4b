import LabSystems.Ssdb.RedisLink
import LabSystems.Ssdb.SSDBImpl

namespace Ssdb

-- A function that executes a request: the data after it, and the response.
abbrev Proc :=
  SSDBImpl → List Bytes → SSDBImpl × List Bytes

namespace Response

def wrongNumber : List Bytes :=
  [.ofString "client_error", .ofString "wrong number of arguments"]

def replyGet : GetResult → List Bytes
  | .error     => [.ofString "error"]
  | .notFound  => [.ofString "not_found"]
  | .found val => [.ofString "ok", val]

def replyBool (status : Int) : List Bytes :=
  if status = -1 then
    [.ofString "error"]
  else if status = 0 then
    [.ofString "ok", .ofString "0"]
  else
    [.ofString "ok", .ofString "1"]

-- The response of `set` and of `del`.
def replyOk (ret : Int) : List Bytes :=
  if ret = -1 then [.ofString "error"] else [.ofString "ok", .ofString "1"]

end Response

section

-- Which calls to LevelDB succeed.
variable (calls : Calls)

def procGet : Proc := fun s req =>
  match req with
  | _ :: key :: _ => (s, Response.replyGet <| s.get calls.hget key)
  | _             => (s, Response.wrongNumber)

def procSet : Proc := fun s req =>
  match req with
  | _ :: key :: val :: _ => s.set calls.write key val |>.map id Response.replyOk
  | _                    => (s, Response.wrongNumber)

def procDel : Proc := fun s req =>
  match req with
  | _ :: key :: _ => s.del calls.write key |>.map id Response.replyOk
  | _             => (s, Response.wrongNumber)

def procHset : Proc := fun s req =>
  match req with
  | _ :: name :: key :: val :: _ => s.hset calls name key val BinlogType.sync |>.map id Response.replyBool
  | _                            => (s, Response.wrongNumber)

def procHget : Proc := fun s req =>
  match req with
  | _ :: name :: key :: _ => (s, Response.replyGet <| s.hget calls.hget name key)
  | _                     => (s, Response.wrongNumber)

-- The thread that it starts answers.
def procSync140 : Proc := fun s _ =>
  (s, [])

-- The functions that `reg_procs` registers.
def getProc (name : Bytes) : Option Proc :=
  if name = .ofString "get" then some (procGet calls)
  else if name = .ofString "set" then some (procSet calls)
  else if name = .ofString "del" then some (procDel calls)
  else if name = .ofString "hset" then some (procHset calls)
  else if name = .ofString "hget" then some (procHget calls)
  else if name = .ofString "sync140" then some procSync140
  else none

def SSDBImpl.proc (s : SSDBImpl) (req : List Bytes) : SSDBImpl × List Bytes :=
  match getProc calls (req.headD []) with
  | none   => (s, [.ofString "client_error", .ofString "Unknown Command: " ++ req.headD []])
  | some p => p s req

-- What is sent to the client of a Redis request.
def SSDBImpl.answer (heap : Nat → UInt8) (s : SSDBImpl) (double : Bytes → Int64) (recvBytes : List Bytes) :
    Option Bytes :=
  let link := RedisLink.convertReq double recvBytes
  let output := Buffer.new heap 10 (by decide)
  link.sendResp heap output (s.proc calls link.recvString).2 |>.map Buffer.data

end

end Ssdb
