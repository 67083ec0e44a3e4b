import LabSystems.Machine.Basic
import LabSystems.Ssdb.RedisLink

namespace Ssdb

-- What a call to `recv_req` has returned, where `none` is NULL, and what the call to `parse_req` has
-- returned, if it has made one, with the arguments it has found.
structure Call where
  parseReq  : Option Int
  recvBytes : List Bytes
  req       : Option (List Bytes)
  deriving DecidableEq, Repr

namespace Link

def initBufferSize : Nat := 1024
def maxPacketSize  : Int := 128 * 1024 * 1024

-- The strings that are sent together.
structure Packet where
  strings : List Bytes
  ne_nil  : strings ≠ []
  size_le : (strings.flatMap Buffer.record).length + 1 ≤ maxPacketSize

def Packet.bytes (p : Packet) : Bytes :=
  p.strings.flatMap Buffer.record ++ ['\n'.toUInt8]

theorem sum_length_le (ss : List Bytes) : (ss.map List.length).sum ≤ (ss.flatMap Buffer.record).length := by
  induction ss
  case nil          => simp
  case cons s ss hi =>
    have hs := Buffer.length_le_record (s := s)
    simp only [List.map_cons, List.sum_cons, List.flatMap_cons, List.length_append]
    omega

theorem Packet.sum_lt (p : Packet) : (p.strings.map List.length).sum + 1 < 2 ^ 31 := by
  have hs := p.size_le
  have hl := sum_length_le p.strings
  unfold maxPacketSize at hs
  omega

-- What `send` writes. It does not notice that a string cannot be appended.
def Packet.send (heap : Nat → UInt8) (p : Packet) : Buffer :=
  let output := Buffer.new heap _ p.sum_lt
  let output := p.strings.foldl (fun output s => (output.appendRecord heap s).1) output
  output.append heap ['\n'.toUInt8] |>.1

-- What a pass of the loop of `recv_req` does: it is the last one, or it finds a string.
inductive Pass
  | last (result : Parse)
  | next (view : View) (head size parsed : Int)
  deriving DecidableEq, Repr

-- There has to be an end of line after a string.
def passEol (b : Buffer) (view : View) (head size parsed : Int) : Pass :=
  let next (eol : Int) : Pass :=
    let parsed := int (parsed + eol)
    if parsed > maxPacketSize then .last .bad else .next view (head + eol) (int (size - eol)) parsed
  if size ≥ 1 ∧ b.byte head = '\n'.toUInt8 then
    next 1
  else if size ≥ 2 ∧ b.byte head = '\r'.toUInt8 ∧ b.byte (head + 1) = '\n'.toUInt8 then
    next 2
  else if size ≥ 2 then
    .last .bad
  else
    .last .more

def pass (b : Buffer) (head size parsed : Int) (recvData : List View) : Pass :=
  match b.memchr '\n'.toUInt8 head size with
  | none    => .last .more
  | some lf =>
    let body := lf + 1
    let headLen := body - head
    if headLen = 1 ∨ headLen = 2 ∧ b.byte head = '\r'.toUInt8 then
      .last <| .request recvData (int (parsed + headLen))
    else if b.byte head < '0'.toUInt8 ∨ b.byte head > '9'.toUInt8 then
      .last .bad
    else if headLen > 19 then
      .last .bad
    else
      let bodyLen := int (Bytes.strtol <| b.view ⟨head, headLen - 1⟩).toInt
      if bodyLen < 0 then
        .last .bad
      else
        let len := int (headLen + bodyLen)
        let size := int (size - len)
        if size < 0 then .last .more else passEol b ⟨body, bodyLen⟩ (head + len) size (int (parsed + len))

-- The size that is left after a string.
theorem size_lt_of_record {n k l : Int} (h : 1 ≤ k) (hn : k ≤ n) (hk : k ≤ 19) (h₀ : 0 ≤ l) (hl : l < 2 ^ 31) :
    int (n - int (k + l)) < n := by
  unfold int
  omega

theorem size_lt_of_passEol (h : passEol b view head size parsed = .next view' head' size' parsed') : size' < size := by
  unfold passEol at h
  dsimp only at h
  split_ifs at h
  all_goals
    cases h
    exact int_sub_lt (by omega) (by omega)

theorem size_lt_of_pass (h : pass b head size parsed recvData = .next view head' size' parsed') :
    size' < size := by
  unfold pass at h
  split at h
  case h_1 => cases h
  case h_2 lf hlf =>
    have hl := Buffer.memchr_lt hlf
    dsimp only at h
    split_ifs at h with _ _ hlen hbody
    have hb := @int_lt (Bytes.strtol <| b.view ⟨head, lf + 1 - head - 1⟩).toInt
    have hlt := size_lt_of_record (n := size) (by omega) (by omega) (not_lt.mp hlen) (not_lt.mp hbody) hb
    exact size_lt_of_passEol h |>.trans hlt

def parse (b : Buffer) (head size parsed : Int) (recvData : List View) : Parse :=
  if 0 < size then
    match _ : pass b head size parsed recvData with
    | .last result                  => result
    | .next view head' size' parsed' => parse b head' size' parsed' (recvData ++ [view])
  else
    .more
termination_by size.toNat
decreasing_by exact (Int.toNat_lt_toNat ‹0 < size›).mpr <| size_lt_of_pass ‹_›

-- Lengths that overflow are taken for a string that is not there yet.
theorem int_record {n k l : Int} (h : 1 ≤ k) (hk : k ≤ 19) (h₀ : 0 ≤ l) (hl : l < 2 ^ 31) (hn : k ≤ n)
    (hm : n < 2 ^ 31) (hs : ¬int (n - int (k + l)) < 0) : int (k + l) = k + l ∧ k + l ≤ n := by
  unfold int at *
  omega

theorem at_record {b : Buffer} (h : b.At head size parsed) (hlf : b.memchr c head size = some lf)
    (hk : ¬lf + 1 - head > 19) (h₀ : ¬int len < 0) (hs : ¬int (size - int (lf + 1 - head + int len)) < 0) :
    b.At (head + int (lf + 1 - head + int len)) (int (size - int (lf + 1 - head + int len)))
      (int (parsed + int (lf + 1 - head + int len))) ∧ parsed < int (parsed + int (lf + 1 - head + int len)) := by
  have hl := Buffer.memchr_lt hlf
  have hb := b.size_lt
  have hsz := h.size_eq
  have hh := h.head_nonneg
  have ⟨he, hle⟩ := int_record (by omega) (by omega) (by omega) int_lt (by omega) (by omega) hs
  rw [he]
  have ⟨hs, hp⟩ := h.skip (k := lf + 1 - head + int len) (by omega) hle
  exact ⟨hs, by omega⟩

theorem passEol_next {b : Buffer} {n : Int} (h : passEol b view head size parsed = .next view' head' size' parsed')
    (ha : b.At head size parsed) (hn : n < parsed) : b.At head' size' parsed' ∧ n < parsed' := by
  have skip {k : Int} (h₀ : 0 ≤ k) (hk : k ≤ size) :
      b.At (head + k) (int (size - k)) (int (parsed + k)) ∧ n < int (parsed + k) := by
    have ⟨hs, hp⟩ := ha.skip h₀ hk
    exact ⟨hs, by omega⟩
  unfold passEol at h
  dsimp only at h
  split_ifs at h
  all_goals
    cases h
    exact skip (by omega) (by omega)

theorem pass_next {b : Buffer} (h : pass b head size parsed recvData = .next view head' size' parsed')
    (ha : b.At head size parsed) : b.At head' size' parsed' ∧ parsed < parsed' := by
  unfold pass at h
  split at h
  case h_1 => cases h
  case h_2 lf hlf =>
    dsimp only at h
    split_ifs at h with _ _ hk h₀ hs
    have ⟨hl, hlt⟩ := at_record ha hlf hk h₀ hs
    exact passEol_next h hl hlt

theorem passEol_ne_request : passEol b view head size parsed ≠ .last (.request recvData p) := by
  unfold passEol
  dsimp only
  split_ifs <;> simp

theorem pass_request {b : Buffer} (h : pass b head size parsed recvData = .last (.request recvData' p))
    (ha : b.At head size parsed) : parsed < p ∧ p ≤ b.size := by
  unfold pass at h
  split at h
  case h_1 => cases h
  case h_2 lf hlf =>
    dsimp only at h
    split at h
    case isTrue =>
      cases h
      have ⟨hl, hlt⟩ := ha.line hlf
      exact ⟨hlt, hl.parsed_le⟩
    case isFalse =>
      split_ifs at h
      case neg => exact absurd h passEol_ne_request
      all_goals cases h

-- A request is not empty, and within the data.
theorem parse_request {b : Buffer} (h : parse b head size parsed recvData = .request recvData' p)
    (ha : b.At head size parsed) : parsed < p ∧ p ≤ b.size := by
  fun_induction parse b head size parsed recvData
  case case1 hp =>
    subst h
    exact pass_request hp ha
  case case2 hp hi =>
    have ⟨hl, hlt⟩ := pass_next hp ha
    have ⟨hp, hle⟩ := hi h hl
    exact ⟨hlt.trans hp, hle⟩
  case case3 => cases h

section

variable (double : Bytes → Int64) (heap : Nat → UInt8)

-- A call that finds no whole request makes room for more data.
def more (input : Buffer) (parseReq : Option Int) : Call × Buffer :=
  let r := input.reserve heap
  (⟨parseReq, [], if r.2 = -1 then none else some []⟩, r.1)

def redisRecvReq (input : Buffer) : Call × Buffer :=
  match RedisLink.parseReq input with
  | .bad                      => (⟨some (-1), [], none⟩, input)
  | .more                     => more heap input (some 0)
  | .request recvBytes parsed =>
    let recvBytes := recvBytes.map input.view
    (⟨some 1, recvBytes, some (RedisLink.convertReq double recvBytes).recvString⟩, input.decr parsed)

def recvReq (input : Buffer) : Call × Buffer :=
  if input.size = 0 then
    (⟨none, [], some []⟩, input)
  else if input.byte input.leading = '*'.toUInt8 then
    redisRecvReq double heap input
  else
    match parse input input.leading (int (input.size - input.leading)) input.leading [] with
    | .bad                     => (⟨none, [], none⟩, input)
    | .more                    => more heap input none
    | .request recvData parsed => (⟨none, [], some (recvData.map input.view)⟩, input.decr parsed)

variable {double heap}

theorem length_decr {input : Buffer} {p : Int} (h : 0 < p) (hp : p ≤ input.size) :
    (input.decr p).data.length < input.data.length := by
  simp only [Buffer.decr, List.length_drop, Buffer.size] at hp ⊢
  omega

theorem req_ne_more {input : Buffer} : (more heap input ret).1.req ≠ some (arg :: args) := by
  simp only [more]
  split <;> simp

-- A request takes data away.
theorem length_lt_of_recvReq {input : Buffer} (h : (recvReq double heap input).1.req = some (arg :: args)) :
    (recvReq double heap input).2.data.length < input.data.length := by
  unfold recvReq at h ⊢
  split at h
  case isTrue => cases h
  case isFalse hs =>
    rw [if_neg hs]
    split at h
    case isTrue hr =>
      rw [if_pos hr]
      unfold redisRecvReq at h ⊢
      split at h
      case h_1 => cases h
      case h_2 => exact absurd h req_ne_more
      case h_3 hp =>
        have ⟨hp, hle⟩ := RedisLink.parseReq_request hp
        simp only [*]
        exact length_decr hp hle
    case isFalse hr =>
      rw [if_neg hr]
      split at h
      case h_1 => cases h
      case h_2 => exact absurd h req_ne_more
      case h_3 hp =>
        have ⟨hp', hle⟩ := parse_request hp input.at_leading
        simp only
        exact length_decr (input.at_leading.head_nonneg.trans_lt hp') hle

variable (double heap)

-- Requests are read until there is none, or until a call has returned NULL and the link is deleted.
def drain (input : Buffer) : List Call × Option Buffer :=
  let r := recvReq double heap input
  match _ : r.1.req with
  | none          => ([r.1], none)
  | some []       => ([r.1], some r.2)
  | some (_ :: _) =>
    let rest := drain r.2
    (r.1 :: rest.1, rest.2)
termination_by input.data.length
decreasing_by exact length_lt_of_recvReq ‹_›

-- That the chunk cannot be appended is not noticed.
def onRead (input : Buffer) (chunk : Bytes) : List Call × Option Buffer :=
  if chunk = [] then ([], some input) else drain double heap (input.append heap chunk).1

end

end Link

-- The chunks that a link receives. There is no link any more after a call has returned NULL.
def link (double : Bytes → Int64) (heap : Nat → UInt8) : Machine (Option Buffer) Bytes Call where
  init         := some <| .new heap Link.initBufferSize (by decide)
  step s chunk := s.map fun input => Link.onRead double heap input chunk |>.swap

end Ssdb
