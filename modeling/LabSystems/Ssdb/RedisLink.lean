import LabSystems.Ssdb.Buffer

namespace Ssdb

-- What a parser finds: an error, no whole request, or a request and how much of the data it is.
inductive Parse
  | bad
  | more
  | request (recv : List View) (parsed : Int)
  deriving DecidableEq, Repr

-- Both parsers ignore leading empty lines.
def Buffer.leading (b : Buffer) : Int :=
  (b.data.takeWhile fun c => c = '\n'.toUInt8 || c = '\r'.toUInt8).length

theorem Buffer.at_leading (b : Buffer) : b.At b.leading (int (b.size - b.leading)) b.leading := by
  have hl := b.size_lt
  have ht : b.leading ≤ b.size := Int.ofNat_le.mpr (List.takeWhile_sublist _).length_le
  have h₀ : 0 ≤ b.leading := Int.natCast_nonneg _
  rw [int_eq (by omega) (by omega)]
  constructor <;> omega

inductive Strategy
  | auto
  | ping
  | mget
  | hmget
  | hgetall
  | hkeys
  | hvals
  | setex
  | zrange
  | zrevrange
  | zrangebyscore
  | zrevrangebyscore
  | zadd
  | zincrby
  | remrangebyrank
  | remrangebyscore
  deriving DecidableEq, Repr

inductive Reply
  | bulk
  | multiBulk
  | int
  | status
  deriving DecidableEq, Repr

structure RedisRequestDesc where
  strategy  : Strategy
  redisCmd  : Bytes
  ssdbCmd   : Bytes
  replyType : Reply
  deriving DecidableEq, Repr

def cmdsRaw : List RedisRequestDesc :=
  List.map (fun (strategy, redisCmd, ssdbCmd, replyType) =>
    ⟨strategy, .ofString redisCmd, .ofString ssdbCmd, replyType⟩) [
    (.ping, "ping", "ping", .status),
    (.auto, "get", "get", .bulk),
    (.auto, "getset", "getset", .bulk),
    (.auto, "set", "set", .status),
    (.auto, "setnx", "setnx", .int),
    (.auto, "exists", "exists", .int),
    (.auto, "incr", "incr", .int),
    (.auto, "decr", "decr", .int),
    (.auto, "ttl", "ttl", .int),
    (.auto, "expire", "expire", .int),
    (.auto, "getbit", "getbit", .int),
    (.auto, "setbit", "setbit", .int),
    (.auto, "strlen", "strlen", .int),
    (.auto, "bitcount", "bitcount", .int),
    (.auto, "substr", "getrange", .bulk),
    (.auto, "getrange", "getrange", .bulk),
    (.auto, "keys", "keys", .multiBulk),
    (.auto, "hset", "hset", .int),
    (.auto, "hget", "hget", .bulk),
    (.auto, "hexists", "hexists", .int),
    (.auto, "del", "del", .int),
    (.auto, "mset", "multi_set", .status),
    (.auto, "incrby", "incr", .int),
    (.auto, "decrby", "decr", .int),
    (.auto, "hmset", "multi_hset", .status),
    (.auto, "hdel", "multi_hdel", .int),
    (.auto, "hmdel", "multi_hdel", .int),
    (.auto, "hlen", "hsize", .int),
    (.auto, "hincrby", "hincr", .int),
    (.auto, "zcard", "zsize", .int),
    (.auto, "zscore", "zget", .bulk),
    (.auto, "zrem", "multi_zdel", .int),
    (.auto, "zrank", "zrank", .int),
    (.auto, "zrevrank", "zrrank", .int),
    (.auto, "zcount", "zcount", .int),
    (.remrangebyrank, "zremrangebyrank", "zremrangebyrank", .int),
    (.remrangebyscore, "zremrangebyscore", "zremrangebyscore", .int),
    (.mget, "mget", "multi_get", .multiBulk),
    (.hmget, "hmget", "multi_hget", .multiBulk),
    (.hgetall, "hgetall", "hgetall", .multiBulk),
    (.hkeys, "hkeys", "hkeys", .multiBulk),
    (.hvals, "hvals", "hvals", .multiBulk),
    (.setex, "setex", "setx", .status),
    (.zrange, "zrange", "zrange", .multiBulk),
    (.zrevrange, "zrevrange", "zrrange", .multiBulk),
    (.zadd, "zadd", "multi_zset", .int),
    (.zincrby, "zincrby", "zincr", .bulk),
    (.zrangebyscore, "zrangebyscore", "zscan", .multiBulk),
    (.zrevrangebyscore, "zrevrangebyscore", "zrscan", .multiBulk),
    (.auto, "lpush", "qpush_front", .int),
    (.auto, "rpush", "qpush_back", .int),
    (.auto, "lpop", "qpop_front", .bulk),
    (.auto, "rpop", "qpop_back", .bulk),
    (.auto, "llen", "qsize", .int),
    (.auto, "lsize", "qsize", .int),
    (.auto, "lindex", "qget", .bulk),
    (.auto, "lset", "qset", .status),
    (.auto, "lrange", "qslice", .multiBulk)]

-- A later entry of the table replaces an earlier one.
def findCmd (cmd : Bytes) : Option RedisRequestDesc :=
  cmdsRaw.reverse.find? (·.redisCmd = cmd)

def tolower (c : UInt8) : UInt8 :=
  if 'A'.toUInt8 ≤ c ∧ c ≤ 'Z'.toUInt8 then c + 32 else c

def strtolower (str : Bytes) : Bytes :=
  str.map tolower

def strToInt (str : Bytes) : Int :=
  int (Bytes.strtol str).toInt

def strToInt64 (str : Bytes) : Int64 :=
  Bytes.strtol str

structure RedisLink where
  cmd        : Bytes
  reqDesc    : Option RedisRequestDesc
  recvString : List Bytes

namespace RedisLink

-- The size that is left after an argument.
theorem size_lt {n k l e : Int} (h : 1 ≤ k) (hk : k ≤ n) (h₀ : ¬l < 0) (hl : ¬l > int (n - k) - 1)
    (he : e = 0 ∨ e = 1) : int (int (int (n - k) - int (l + 1)) - e) < n := by
  have hs := int_sub_lt h hk
  have hlt := @int_lt (n - k)
  rw [int_eq (by omega) (by omega : l + 1 < 2 ^ 31), int_eq (by omega) (by omega : int (n - k) - (l + 1) < 2 ^ 31),
    int_eq (by omega) (by omega : int (n - k) - (l + 1) - e < 2 ^ 31)]
  omega

-- The loop of `parse_req`.
def parse (b : Buffer) (ptr size parsed numArgs : Int) (recvBytes : List View) : Parse :=
  if 0 < size then
    match hlf : b.memchr '\n'.toUInt8 ptr size with
    | none    => .more
    | some lf =>
      let body := lf + 1
      let size' := int (size - (body - ptr))
      let parsed' := int (parsed + (body - ptr))
      -- The byte before a number is skipped.
      let len := int (Bytes.strtol <| b.memory.drop (ptr + 1).toNat).toInt
      if len < 0 then
        .bad
      else if numArgs = 0 then
        if len ≤ 0 then .bad else parse b body size' parsed' len recvBytes
      else if len > size' - 1 then
        .more
      else
        let recvBytes := recvBytes ++ [⟨body, len⟩]
        let next := body + int (len + 1)
        let size' := int (size' - int (len + 1))
        let parsed' := int (parsed' + int (len + 1))
        -- Both CRLF and LF are accepted.
        let eol := if 0 < size' ∧ b.byte next = '\n'.toUInt8 then 1 else 0
        if numArgs - 1 = 0 then
          .request recvBytes (int (parsed' + eol))
        else
          parse b (next + eol) (int (size' - eol)) (int (parsed' + eol)) (numArgs - 1) recvBytes
  else
    .more
termination_by size.toNat
decreasing_by
  all_goals
    have hl := Buffer.memchr_lt hlf
    refine (Int.toNat_lt_toNat ‹0 < size›).mpr ?_
  · exact int_sub_lt (by omega) (by omega)
  · exact size_lt (by omega) (by omega) ‹_› ‹_› (by split <;> simp)

theorem at_argument {b : Buffer} (h : b.At ptr size parsed) (h₀ : ¬len < 0) (hl : ¬len > size - 1) :
    b.At (ptr + int (len + 1)) (int (size - int (len + 1))) (int (parsed + int (len + 1))) ∧
      parsed < int (parsed + int (len + 1)) := by
  have hs := h.size_eq
  have hp := h.head_nonneg
  have hb := b.size_lt
  rw [int_eq (by omega) (by omega : len + 1 < 2 ^ 31)]
  have ⟨hs, hp⟩ := h.skip (k := len + 1) (by omega) (by omega)
  exact ⟨hs, by omega⟩

theorem at_eol {b : Buffer} (h : b.At ptr size parsed) :
    let eol := if 0 < size ∧ b.byte ptr = '\n'.toUInt8 then 1 else 0
    b.At (ptr + eol) (int (size - eol)) (int (parsed + eol)) ∧ parsed ≤ int (parsed + eol) := by
  split
  case isTrue hs  =>
    have ⟨hs, hp⟩ := h.skip (k := 1) (by omega) (by omega)
    exact ⟨hs, by omega⟩
  case isFalse hs =>
    have ⟨hs, hp⟩ := h.skip (k := 0) (by omega) h.rest_nonneg
    exact ⟨hs, by omega⟩

-- A request is not empty, and within the data.
theorem parse_request (h : parse b ptr size parsed numArgs recvBytes = .request recvBytes' p) (ha : b.At ptr size parsed) :
    parsed < p ∧ p ≤ b.size := by
  fun_induction parse b ptr size parsed numArgs recvBytes
  case case1 | case2 | case3 | case5 | case8 => cases h
  case case4 hlf _ _ _ _ _ _ hi =>
    have ⟨hl, hlt⟩ := ha.line hlf
    have ⟨hp, hle⟩ := hi h hl
    exact ⟨hlt.trans hp, hle⟩
  case case6 hlf _ _ _ _ h₀ _ hlen _ _ _ _ _ _ =>
    have ⟨hl, hlt⟩ := ha.line hlf
    have ⟨hl, hlt'⟩ := at_argument hl h₀ hlen
    have ⟨hl, hle⟩ := at_eol hl
    rw [← (Parse.request.inj h).right]
    exact ⟨hlt.trans <| hlt'.trans_le hle, hl.parsed_le⟩
  case case7 hlf _ _ _ _ h₀ _ hlen _ _ _ _ _ _ hi =>
    have ⟨hl, hlt⟩ := ha.line hlf
    have ⟨hl, hlt'⟩ := at_argument hl h₀ hlen
    have ⟨hl, hle⟩ := at_eol hl
    have ⟨hp, hle'⟩ := hi h hl
    exact ⟨(hlt.trans <| hlt'.trans_le hle).trans hp, hle'⟩

def parseReq (input : Buffer) : Parse :=
  let parsed := input.leading
  if input.byte parsed ≠ '*'.toUInt8 then
    .bad
  else
    parse input parsed (int (input.size - parsed)) parsed 0 []

theorem parseReq_request (h : parseReq b = .request recvBytes p) : 0 < p ∧ p ≤ b.size := by
  unfold parseReq at h
  dsimp only at h
  split at h
  case isTrue  => cases h
  case isFalse =>
    have hp := parse_request h b.at_leading
    exact hp.imp_left b.at_leading.head_nonneg.trans_lt

section

-- The number that a string starts with, without its fraction.
variable (double : Bytes → Int64)

def zaddArgs : List Bytes → List Bytes
  | score :: key :: args => key :: .signed (double score).toInt :: zaddArgs args
  | _                    => []

def zrangeArgs (recvBytes : List Bytes) : List Bytes :=
  let range := match recvBytes with
    | _ :: name :: start :: stop :: _ =>
      let first := strToInt64 start
      let last := strToInt64 stop
      if first ≥ 0 ∧ last ≥ 0 ∨ last = -1 then
        let size := if last = -1 then -1 else last - first + 1
        [name, start, .signed size.toInt]
      else
        []
    | _ => []
  range ++ (recvBytes[4]?.map strtolower).toList

structure Scores where
  withscores : Bytes
  offset     : Bytes
  count      : Bytes
  afterLimit : Bool

def Scores.next (o : Scores) (s : Bytes) : Scores :=
  let o := if o.afterLimit then
      if o.offset = [] then { o with offset := s } else { o with count := s, afterLimit := false }
    else
      o
  if strtolower s = .ofString "withscores" then
    { o with withscores := strtolower s }
  else if strtolower s = .ofString "limit" then
    { o with afterLimit := true }
  else
    o

-- A bound that starts with a parenthesis is exclusive.
def scoreBound (s : Bytes) (step : Int) : Bytes :=
  if s = .ofString "-inf" ∨ s = .ofString "+inf" then
    []
  else if s.head? = some '('.toUInt8 then
    .signed <| int (strToInt s.tail + step)
  else
    s

def zrangebyscoreArgs (strategy : Strategy) (recvBytes : List Bytes) : List Bytes :=
  match recvBytes with
  | _ :: name :: smin :: smax :: args =>
    let o := args.foldl Scores.next ⟨[], [], [], false⟩
    let step := if strategy = .zrangebyscore then 1 else -1
    if smin = [] ∨ smax = [] then
      []
    else
      [name, [], scoreBound smin step, scoreBound smax (-step), if o.offset = [] then .ofString "0" else o.offset,
        if o.count = [] then .ofString "2000000000" else o.count, o.withscores]
  | _ => []

-- What comes after the name of the command.
def convertArgs (strategy : Strategy) (recvBytes : List Bytes) : List Bytes :=
  match strategy with
  | .hkeys | .hvals =>
    match recvBytes with
    | [_, name] => [name, [], [], .ofString "2000000000"]
    | _         => []
  | .setex | .zincrby =>
    match recvBytes with
    | [_, name, val, key] => [name, key, val]
    | _                   => []
  | .zadd =>
    match recvBytes with
    | _ :: name :: args => name :: zaddArgs double args
    | _                 => []
  | .remrangebyrank | .remrangebyscore =>
    match recvBytes with
    | _ :: name :: start :: stop :: _ => [name, start, stop]
    | _                               => []
  | .zrange | .zrevrange               => zrangeArgs recvBytes
  | .zrangebyscore | .zrevrangebyscore => zrangebyscoreArgs strategy recvBytes
  | _                                  => recvBytes.tail

def convertReq (recvBytes : List Bytes) : RedisLink :=
  let cmd := strtolower <| recvBytes.headD []
  match findCmd cmd with
  | none      => ⟨cmd, none, cmd :: recvBytes.tail⟩
  | some desc => ⟨cmd, some desc, desc.ssdbCmd :: convertArgs double desc.strategy recvBytes⟩

end

def crlf : Bytes := .ofString "\r\n"

-- A number is cut to a signed integer before it is printed.
def line (type : String) (n : Int) : Bytes :=
  .ofString type ++ .signed (int n) ++ crlf

-- What is appended to the output, call by call.
def bulk (val : Bytes) : List Bytes :=
  [line "$" val.length, val, crlf]

def mget : List Bytes → List Bytes → List Bytes
  | [], _                                 => []
  | reqKey :: reqKeys, respKey :: val :: resp =>
    if reqKey ≠ respKey then
      .ofString "$-1\r\n" :: mget reqKeys (respKey :: val :: resp)
    else
      bulk val ++ mget reqKeys resp
  | _ :: reqKeys, resp                    => .ofString "$-1\r\n" :: mget reqKeys resp

def withscores (link : RedisLink) (strategy : Strategy) : Bool :=
  match strategy with
  | .zrange | .zrevrange               => link.recvString[4]? = some (.ofString "withscores")
  | .zrangebyscore | .zrevrangebyscore => link.recvString.getLast? = some (.ofString "withscores")
  | _                                  => true

def everyOther : List Bytes → List Bytes
  | val :: _ :: vals => val :: everyOther vals
  | vals             => vals

-- The arguments of the calls to `append`.
def appended (link : RedisLink) (resp : List Bytes) : List Bytes :=
  match resp with
  | []             => []
  | status :: vals =>
    if status ≠ .ofString "ok" then
      if status = .ofString "error" ∨ status = .ofString "fail" ∨ status = .ofString "client_error" then
        .ofString "-ERR " :: vals.take 1 ++ [crlf]
      else if status = .ofString "not_found" then
        [.ofString "$-1\r\n"]
      else if status = .ofString "noauth" then
        .ofString "-NOAUTH " :: vals.take 1 ++ [crlf]
      else
        [.ofString "-ERR server error\r\n"]
    else
      match link.reqDesc with
      | none      => line "*" vals.length :: vals.flatMap bulk
      | some desc =>
        if desc.strategy = .ping then
          [.ofString "+PONG\r\n"]
        else
          match desc.replyType with
          | .status => [.ofString "+OK\r\n"]
          | .bulk   => match vals with
            | val :: _ => bulk val
            | []       => [.ofString "$0\r\n"]
          | .int    => match vals with
            | val :: _ => [.ofString ":", val, crlf]
            | []       => [.ofString "$0\r\n"]
          | .multiBulk =>
            if desc.strategy = .mget ∨ desc.strategy = .hmget then
              if resp.length % 2 ≠ 1 then
                [.ofString "*0"]
              else
                let reqKeys := link.recvString.drop <| if desc.strategy = .mget then 1 else 2
                line "*" reqKeys.length :: mget reqKeys vals
            else if link.withscores desc.strategy then
              line "*" vals.length :: vals.flatMap bulk
            else
              line "*" (vals.length / 2) :: (everyOther vals).flatMap bulk

def sendResp (heap : Nat → UInt8) (link : RedisLink) (output : Buffer) (resp : List Bytes) : Option Buffer :=
  output.appendStrings heap <| link.appended resp

end RedisLink

end Ssdb
