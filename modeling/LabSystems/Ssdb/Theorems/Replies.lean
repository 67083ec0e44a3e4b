import LabSystems.Resp.Basic
import LabSystems.Ssdb.Proc
import LabSystems.Ssdb.Theorems.Capacity

namespace Ssdb

open Resp (OneLine)

variable {link : RedisLink} {desc : RedisRequestDesc} {cmd text val : Bytes} {calls : Calls} {s : SSDBImpl}
  {req recvBytes ps : List Bytes} {double : Bytes → Int64} {p : Proc} {heap : Nat → UInt8}

-- The part of a string that its size stands for, when it is cut to a signed integer.
def cut (val : Bytes) : Bytes :=
  val.take (int val.length).toNat

theorem length_cut (h : 0 ≤ int val.length) : ((cut val).length : Int) = int val.length := by
  have hl : int val.length ≤ val.length := by
    unfold int at h ⊢
    omega
  rw [cut, List.length_take]
  omega

theorem cut_of_lt (h : val.length < 2 ^ 31) : cut val = val := by
  rw [cut, int_eq (by omega) (by omega)]
  exact List.take_of_length_le <| by omega

-- The data after strings have been appended to it. Those for which there is no memory are left out.
def kept (data : Bytes) : List Bytes → Bytes
  | []      => data
  | s :: ss => kept (if data.length + s.length ≤ 2 ^ 30 then data ++ s else data) ss

theorem kept_eq_flatten {data : Bytes} (h : data.length + ps.flatten.length ≤ 2 ^ 30) :
    kept data ps = data ++ ps.flatten := by
  induction ps generalizing data
  case nil          => simp [kept]
  case cons p ps hi =>
    rw [List.flatten_cons, List.length_append] at h
    rw [kept, if_pos (by omega), hi (by rw [List.length_append]; omega), List.flatten_cons, List.append_assoc]

namespace Buffer

variable {b : Buffer}

theorem appendString_eq (h : 0 ≤ int val.length) : b.appendString heap val = some (b.append heap <| cut val) :=
  if_neg <| not_lt.mpr h

theorem Sized.appendStrings (h : b.Sized) (hb : b.before = []) :
    (b.appendStrings heap ps).map data =
      if ∀ p ∈ ps, 0 ≤ int p.length then some <| kept b.data <| ps.map cut else none := by
  induction ps generalizing b
  case nil          => simp [Buffer.appendStrings, kept]
  case cons p ps hi =>
    rw [Buffer.appendStrings, List.foldlM_cons]
    by_cases hp : 0 ≤ int p.length
    case pos =>
      have hi := hi (b := (b.append heap <| cut p).1) h.append (before_append.trans hb)
      rw [h.data_append hb] at hi
      simpa [Buffer.appendStrings, appendString_eq hp, hp, kept] using hi
    case neg =>
      have hn : b.appendString heap p = none := if_pos <| not_le.mp hp
      simp [hn, hp]

end Buffer

namespace RedisLink

theorem ten_lt : 10 < 2 ^ 31 := by
  decide

-- What is sent.
def sent (heap : Nat → UInt8) (ps : List Bytes) : Option Bytes :=
  (Buffer.new heap 10 ten_lt).appendStrings heap ps |>.map Buffer.data

theorem sent_eq : sent heap ps =
    if ∀ p ∈ ps, 0 ≤ int p.length then some <| kept [] <| ps.map cut else none :=
  Buffer.Sized.appendStrings (.inl <| by simp [Buffer.total, Buffer.new]) rfl

-- One complete reply is sent.
def Replies (heap : Nat → UInt8) (ps : List Bytes) : Prop :=
  ∃ out ∈ sent heap ps, Resp.Reply out

theorem replies_iff : Replies heap ps ↔ (∀ p ∈ ps, 0 ≤ int p.length) ∧ Resp.Reply (kept [] <| ps.map cut) := by
  simp only [Replies, sent_eq]
  split
  case isTrue h  => simpa using fun _ => h
  case isFalse h => simp [h]

-- A reply that is short enough is sent as it is.
theorem replies_iff_flatten (h : ps.flatten.length ≤ 2 ^ 30) : Replies heap ps ↔ Resp.Reply ps.flatten := by
  have hl (p) (hp : p ∈ ps) : p.length < 2 ^ 31 := by
    have := (List.sublist_flatten_of_mem hp).length_le
    omega
  have hc : ps.map cut = ps := (List.map_congr_left fun p hp => cut_of_lt <| hl p hp).trans <| List.map_id ps
  have h₀ : ∀ p ∈ ps, 0 ≤ int p.length := fun p hp => by
    have := hl p hp
    rw [int_eq (by omega) (by omega)]
    omega
  rw [replies_iff, and_iff_right h₀, hc, kept_eq_flatten (by simpa using h), List.nil_append]

theorem crlf_eq : crlf = Resp.crlf := by
  decide

theorem ofString_dollar : Bytes.ofString "$" = [36] := by
  decide

theorem ofString_err : Bytes.ofString "-ERR " = 45 :: Bytes.ofString "ERR " := by
  decide

-- A text between a short string and the end of a line is left out where there is no memory for it, or comes without
-- the end of the line where there is only no memory for that.
theorem kept_framed (h : front.length ≤ 2 ^ 20) : kept [] [front, text, crlf] =
    if front.length + text.length + 2 ≤ 2 ^ 30 then front ++ (text ++ crlf)
    else if front.length + text.length ≤ 2 ^ 30 then front ++ text else front ++ crlf := by
  have hc : crlf.length = 2 := by decide
  have hn : ([] : Bytes).length + front.length ≤ 2 ^ 30 := by
    rw [List.length_nil]
    omega
  rw [kept, if_pos hn, List.nil_append, kept]
  by_cases ht : front.length + text.length ≤ 2 ^ 30
  case neg => rw [if_neg ht, if_neg (by omega), if_neg ht, kept, hc, if_pos (by omega), kept]
  case pos =>
    rw [if_pos ht, if_pos ht, kept, List.length_append, hc]
    split
    case isTrue  => rw [kept, List.append_assoc]
    case isFalse => rw [kept]

theorem oneLine_err : OneLine (.ofString "ERR " ++ text) ↔ OneLine text := by
  refine ⟨fun h => ⟨?_, ?_⟩, .append (by decide)⟩
  case refine_1 => exact fun hm => h.left <| List.mem_append_right _ hm
  case refine_2 => exact fun hm => h.right <| List.mem_append_right _ hm

-- The text of an error may be left out. Where there is only no memory for the end of the line, it has to end with one.
def Line (text : Bytes) : Prop :=
  0 ≤ int text.length ∧
  if (cut text).length + 7 ≤ 2 ^ 30 then
    OneLine (cut text)
  else
    (cut text).length + 5 ≤ 2 ^ 30 → ∃ t, OneLine t ∧ cut text = t ++ Resp.crlf

theorem line_of_short (h : text.length ≤ 2 ^ 20) : Line text ↔ OneLine text := by
  rw [Line, cut_of_lt (by omega), if_pos (by omega), int_eq (by omega) (by omega)]
  exact and_iff_right <| by omega

-- An error that ends with its text.
theorem reply_error_text (h : 2 ≤ text.length) :
    Resp.Reply (.ofString "-ERR " ++ text) ↔ ∃ t, OneLine t ∧ text = t ++ Resp.crlf := by
  rw [ofString_err, List.cons_append, Resp.reply_error_iff]
  constructor
  case mpr => exact fun ⟨t, ht, he⟩ => ⟨_, oneLine_err.mpr ht, by rw [he, List.append_assoc]⟩
  case mp  =>
    intro ⟨u, hu, he⟩
    rcases List.append_eq_append_iff.mp he with ⟨t, rfl, ht⟩ | ⟨t, _, ht⟩
    case inl => exact ⟨t, oneLine_err.mp hu, ht⟩
    case inr =>
      -- The text is the end of the line.
      have hl : 2 = t.length + text.length := by simpa [Resp.crlf] using congrArg List.length ht
      have ht₀ : t = [] := List.eq_nil_of_length_eq_zero <| by omega
      exact ⟨[], by decide, by rw [ht, ht₀]; rfl⟩

theorem reply_kept_error :
    Resp.Reply (kept [] [.ofString "-ERR ", text, crlf]) ↔
    if text.length + 7 ≤ 2 ^ 30 then OneLine text
    else text.length + 5 ≤ 2 ^ 30 → ∃ t, OneLine t ∧ text = t ++ Resp.crlf := by
  have hl : (Bytes.ofString "-ERR ").length = 5 := by decide
  rw [kept_framed (by decide), hl]
  by_cases ht : text.length + 7 ≤ 2 ^ 30
  case pos =>
    rw [if_pos (by omega), if_pos ht, ofString_err, List.cons_append, Resp.reply_error_iff, crlf_eq,
      ← List.append_assoc, ← oneLine_err]
    exact ⟨fun ⟨u, hu, he⟩ => List.append_cancel_right he ▸ hu, fun h => ⟨_, h, rfl⟩⟩
  case neg =>
    rw [if_neg (by omega), if_neg ht]
    by_cases ht' : text.length + 5 ≤ 2 ^ 30
    case pos =>
      rw [if_pos (by omega), reply_error_text (by omega)]
      exact ⟨fun h _ => h, fun h => h ht'⟩
    case neg =>
      rw [if_neg (by omega), reply_error_text (by decide)]
      exact iff_of_true ⟨[], by decide, by decide⟩ fun h => absurd h ht'

theorem appended_clientError : link.appended [.ofString "client_error", text] = [.ofString "-ERR ", text, crlf] := by
  have hok : Bytes.ofString "client_error" ≠ .ofString "ok" := by decide
  rw [appended, if_pos hok, if_pos (.inr <| .inr rfl)]
  rfl

theorem replies_clientError : Replies heap (link.appended [.ofString "client_error", text]) ↔ Line text := by
  rw [appended_clientError, replies_iff, Line, ← reply_kept_error]
  have he : cut (.ofString "-ERR ") = .ofString "-ERR " := by decide
  have hc : cut crlf = crlf := by decide
  have he₀ : 0 ≤ int (Bytes.ofString "-ERR ").length := by decide
  have hc₀ : 0 ≤ int crlf.length := by decide
  simp [he, hc, he₀, hc₀]

-- There is memory for a value, its length and its end.
def Fits (val : Bytes) : Prop :=
  0 ≤ int val.length ∧ int val.length + 15 ≤ 2 ^ 30

theorem length_line {n : Int} (h : 0 ≤ int n) :
    (line "$" n).length ≤ 13 ∧ ((line "$" n).length ≤ 12 ↔ int n < 10 ^ 9) := by
  have hs : Bytes.signed (int n) = .decimal (int n).natAbs := if_neg <| not_lt.mpr h
  have hlt := @int_lt n
  have h₁ := (Bytes.length_decimal_le (k := 10) (n := (int n).natAbs) (by decide)).mpr (by omega)
  have h₂ := Bytes.length_decimal_le (k := 9) (n := (int n).natAbs) (by decide)
  have hl : (line "$" n).length = (Bytes.decimal (int n).natAbs).length + 3 := by
    have hd : (Bytes.ofString "$").length = 1 := by decide
    have hc : crlf.length = 2 := by decide
    rw [line, List.length_append, List.length_append, hs, hd, hc]
    omega
  omega

theorem reply_line {n : Int} (h : 0 ≤ int n) :
    Resp.Reply (line "$" n ++ text) ↔ ∃ t : Bytes, t.length = int n ∧ text = t ++ Resp.crlf := by
  rw [line, ofString_dollar, crlf_eq, List.append_assoc, List.append_assoc, List.singleton_append, ← List.append_assoc]
  exact Resp.reply_bulk_iff h

theorem reply_kept_bulk (h : text.length = int n) :
    Resp.Reply (kept [] [line "$" n, text, crlf]) ↔ int n + 15 ≤ 2 ^ 30 := by
  have h₀ : 0 ≤ int n := h ▸ Int.natCast_nonneg _
  have ⟨hl, hl'⟩ := length_line h₀
  rw [kept_framed (by omega)]
  by_cases ht : (line "$" n).length + text.length + 2 ≤ 2 ^ 30
  case pos =>
    rw [if_pos ht, reply_line h₀]
    exact iff_of_true ⟨text, h, by rw [crlf_eq]⟩ <| by omega
  case neg =>
    have hn : ¬int n + 15 ≤ 2 ^ 30 := by omega
    have hc : Resp.crlf.length = 2 := by decide
    rw [if_neg ht]
    split
    all_goals
      rw [reply_line h₀]
      refine iff_of_false (fun ⟨t, ht, he⟩ => ?_) hn
      have he := congrArg List.length he
      rw [List.length_append] at he
    case isTrue  => omega
    case isFalse =>
      rw [crlf_eq] at he
      omega

theorem replies_bulk : Replies heap (bulk val) ↔ Fits val := by
  have hc : cut crlf = crlf := by decide
  have hc₀ : 0 ≤ int crlf.length := by decide
  rw [replies_iff, Fits, bulk]
  by_cases hv : 0 ≤ int val.length
  case neg => simp [hv]
  case pos =>
    have hl := (length_line hv).left
    have hl₀ : 0 ≤ int (line "$" val.length).length := by
      rw [int_eq (by omega) (by omega)]
      omega
    simp only [List.map_cons, List.map_nil, cut_of_lt (by omega : (line "$" val.length).length < 2 ^ 31), hc,
      reply_kept_bulk (length_cut hv)]
    simp [hv, hl₀, hc₀]

theorem replies_error : Replies heap (link.appended [.ofString "error"]) := by
  have hok : Bytes.ofString "error" ≠ .ofString "ok" := by decide
  have he : link.appended [.ofString "error"] = [.ofString "-ERR ", crlf] := by
    rw [appended, if_pos hok, if_pos (.inl rfl)]
    rfl
  have hf : [Bytes.ofString "-ERR ", crlf].flatten = 45 :: (.ofString "ERR " ++ Resp.crlf) := by decide
  rw [he, replies_iff_flatten (by decide), hf]
  exact .error <| by decide

theorem replies_notFound : Replies heap (link.appended [.ofString "not_found"]) := by
  have hok : Bytes.ofString "not_found" ≠ .ofString "ok" := by decide
  have he : ¬(Bytes.ofString "not_found" = .ofString "error" ∨ Bytes.ofString "not_found" = .ofString "fail" ∨
      Bytes.ofString "not_found" = .ofString "client_error") := by decide
  have hf : [Bytes.ofString "$-1\r\n"].flatten = 36 :: (.signed (-1) ++ Resp.crlf) := by decide
  rw [appended, if_pos hok, if_neg he, if_pos rfl, replies_iff_flatten (by decide), hf]
  exact .nil

-- The replies to commands that are not converted in a way of their own.
section Auto

theorem appended_bulk (hd : link.reqDesc = some desc) (hs : desc.strategy = .auto) (hr : desc.replyType = .bulk) :
    link.appended [.ofString "ok", val] = bulk val := by
  simp [appended, hd, hs, hr]

theorem replies_status (hd : link.reqDesc = some desc) (hs : desc.strategy = .auto) (hr : desc.replyType = .status) :
    Replies heap (link.appended [.ofString "ok", val]) := by
  have he : link.appended [.ofString "ok", val] = [.ofString "+OK\r\n"] := by simp [appended, hd, hs, hr]
  have hf : [Bytes.ofString "+OK\r\n"].flatten = 43 :: (.ofString "OK" ++ Resp.crlf) := by decide
  rw [he, replies_iff_flatten (by decide), hf]
  exact .status <| by decide

theorem replies_int (hd : link.reqDesc = some desc) (hs : desc.strategy = .auto) (hr : desc.replyType = .int)
    (n : Fin 2) : Replies heap (link.appended [.ofString "ok", .signed n]) := by
  have he : link.appended [.ofString "ok", .signed n] = [.ofString ":", .signed n, crlf] := by
    simp [appended, hd, hs, hr]
  have hf : [Bytes.ofString ":", .signed n, crlf].flatten = 58 :: (.signed n ++ Resp.crlf) := by
    rw [crlf_eq]
    rfl
  have hl : ∀ n : Fin 2, [Bytes.ofString ":", .signed n, crlf].flatten.length ≤ 2 ^ 30 := by decide
  rw [he, replies_iff_flatten (hl n), hf]
  exact .int n

theorem replies_get (hd : link.reqDesc = some desc) (hs : desc.strategy = .auto) (hr : desc.replyType = .bulk)
    (r : GetResult) :
    Replies heap (link.appended <| Response.replyGet r) ↔ ∀ val, r = .found val → Fits val := by
  cases r
  case error     => exact iff_of_true replies_error nofun
  case notFound  => exact iff_of_true replies_notFound nofun
  case found val =>
    rw [Response.replyGet, appended_bulk hd hs hr, replies_bulk]
    exact ⟨fun h _ he => GetResult.found.inj he ▸ h, fun h => h val rfl⟩

theorem replies_bool (hd : link.reqDesc = some desc) (hs : desc.strategy = .auto) (hr : desc.replyType = .int)
    (ret : Int) : Replies heap (link.appended <| Response.replyBool ret) := by
  unfold Response.replyBool
  split
  case isTrue => exact replies_error
  case isFalse =>
    split
    case isTrue  => exact replies_int hd hs hr 0
    case isFalse => exact replies_int hd hs hr 1

theorem replies_ok (hd : link.reqDesc = some desc) (hs : desc.strategy = .auto)
    (hr : desc.replyType = .status ∨ desc.replyType = .int) (ret : Int) :
    Replies heap (link.appended <| Response.replyOk ret) := by
  unfold Response.replyOk
  split
  case isTrue  => exact replies_error
  case isFalse => exact hr.elim (replies_status hd hs) fun hr => replies_int hd hs hr 1

end Auto

end RedisLink

-- The name of the command is neither in the table nor registered, and does not make a line of text.
def BadName (calls : Calls) (recvBytes : List Bytes) : Prop :=
  let cmd := strtolower <| recvBytes.headD []
  findCmd cmd = none ∧ (getProc calls cmd).isNone ∧ ¬RedisLink.Line (.ofString "Unknown Command: " ++ cmd)

-- The value that a request finds.
def SSDBImpl.read (calls : Calls) (s : SSDBImpl) : List Bytes → GetResult
  | cmd :: key :: req =>
    if cmd = .ofString "get" then
      s.get calls.hget key
    else if cmd = .ofString "hget" then
      match req with
      | []         => .notFound
      | field :: _ => s.hget calls.hget key field
    else
      .notFound
  | _ => .notFound

theorem table_ssdbCmd : ∀ desc ∈ cmdsRaw, OneLine desc.ssdbCmd ∧ desc.ssdbCmd.length ≤ 2 ^ 10 ∧
    desc.ssdbCmd ≠ .ofString "sync140" ∧
    (desc.ssdbCmd = .ofString "get" ∨ desc.ssdbCmd = .ofString "hget" → desc.strategy = .auto ∧ desc.replyType = .bulk) ∧
    (desc.ssdbCmd = .ofString "set" → desc.strategy = .auto ∧ desc.replyType = .status) ∧
    (desc.ssdbCmd = .ofString "del" ∨ desc.ssdbCmd = .ofString "hset" → desc.strategy = .auto ∧ desc.replyType = .int) := by
  decide

theorem findCmd_registered : ∀ cmd ∈ ["get", "set", "del", "hset", "hget"], (findCmd (.ofString cmd)).isSome := by
  decide

theorem findCmd_mem (h : findCmd cmd = some desc) : desc ∈ cmdsRaw :=
  List.mem_reverse.mp <| List.mem_of_find?_eq_some h

theorem getProc_set : getProc calls (.ofString "set") = some (procSet calls) := by
  rw [getProc, if_neg (by decide), if_pos rfl]

theorem getProc_del : getProc calls (.ofString "del") = some (procDel calls) := by
  rw [getProc, if_neg (by decide), if_neg (by decide), if_pos rfl]

theorem getProc_hset : getProc calls (.ofString "hset") = some (procHset calls) := by
  rw [getProc, if_neg (by decide), if_neg (by decide), if_neg (by decide), if_pos rfl]

theorem getProc_hget : getProc calls (.ofString "hget") = some (procHget calls) := by
  rw [getProc, if_neg (by decide), if_neg (by decide), if_neg (by decide), if_neg (by decide), if_pos rfl]

theorem read_of_ne (hg : cmd ≠ .ofString "get") (hh : cmd ≠ .ofString "hget") : s.read calls (cmd :: args) = .notFound := by
  cases args
  case nil  => rfl
  case cons => simp [SSDBImpl.read, hg, hh]

-- The reply to a command of the table.
theorem reply_desc (hd : link.reqDesc = some desc) (hm : desc ∈ cmdsRaw) {args : List Bytes} :
    RedisLink.Replies heap (link.appended (s.proc calls (desc.ssdbCmd :: args)).2) ↔
    ∀ val, s.read calls (desc.ssdbCmd :: args) = .found val → RedisLink.Fits val := by
  have ⟨hl, hlen, hsync, hbulk, hstatus, hint⟩ := table_ssdbCmd desc hm
  have wrong : RedisLink.Replies heap (link.appended Response.wrongNumber) :=
    RedisLink.replies_clientError.mpr <| (RedisLink.line_of_short <| by decide).mpr <| by decide
  have nothing (hg : desc.ssdbCmd ≠ .ofString "get") (hh : desc.ssdbCmd ≠ .ofString "hget") :
      ∀ val, s.read calls (desc.ssdbCmd :: args) = .found val → RedisLink.Fits val := by
    rw [read_of_ne hg hh]
    nofun
  unfold SSDBImpl.proc
  rw [List.headD_cons]
  generalize desc.ssdbCmd = cmd at *
  by_cases hget : cmd = .ofString "get"
  case pos =>
    have ⟨hs, hr⟩ := hbulk <| .inl hget
    have hp : getProc calls cmd = some (procGet calls) := if_pos hget
    rw [hp]
    cases args
    case nil           => exact iff_of_true wrong nofun
    case cons key args =>
      have he : s.read calls (cmd :: key :: args) = s.get calls.hget key := if_pos hget
      rw [he]
      exact RedisLink.replies_get hd hs hr _
  by_cases hhget : cmd = .ofString "hget"
  case pos =>
    have ⟨hs, hr⟩ := hbulk <| .inr hhget
    subst hhget
    rw [getProc_hget]
    match args with
    | []                => exact iff_of_true wrong nofun
    | [name]            => exact iff_of_true wrong nofun
    | name :: key :: args =>
      have he : s.read calls (.ofString "hget" :: name :: key :: args) = s.hget calls.hget name key := rfl
      rw [he]
      exact RedisLink.replies_get hd hs hr _
  refine iff_of_true ?_ <| nothing hget hhget
  by_cases hset : cmd = .ofString "set"
  case pos =>
    have ⟨hs, hr⟩ := hstatus hset
    subst hset
    rw [getProc_set]
    match args with
    | []               => exact wrong
    | [key]            => exact wrong
    | key :: val :: args => exact RedisLink.replies_ok hd hs (.inl hr) _
  by_cases hdel : cmd = .ofString "del"
  case pos =>
    have ⟨hs, hr⟩ := hint <| .inl hdel
    subst hdel
    rw [getProc_del]
    cases args
    case nil  => exact wrong
    case cons => exact RedisLink.replies_ok hd hs (.inr hr) _
  by_cases hhset : cmd = .ofString "hset"
  case pos =>
    have ⟨hs, hr⟩ := hint <| .inr hhset
    subst hhset
    rw [getProc_hset]
    match args with
    | [] | [name] | [name, key]   => exact wrong
    | name :: key :: val :: args => exact RedisLink.replies_bool hd hs hr _
  have hp : getProc calls cmd = none := by
    rw [getProc, if_neg hget, if_neg hset, if_neg hdel, if_neg hhset, if_neg hhget, if_neg hsync]
  rw [hp]
  refine RedisLink.replies_clientError.mpr <| (RedisLink.line_of_short ?_).mpr <| OneLine.append (by decide) hl
  have hu : (Bytes.ofString "Unknown Command: ").length = 17 := by decide
  rw [List.length_append, hu]
  omega

theorem findCmd_of_getProc (h : getProc calls cmd = some p) : (findCmd cmd).isSome ∨ p = procSync140 := by
  unfold getProc at h
  split at h
  case isTrue hc => exact .inl <| hc ▸ findCmd_registered "get" (by decide)
  split at h
  case isTrue hc => exact .inl <| hc ▸ findCmd_registered "set" (by decide)
  split at h
  case isTrue hc => exact .inl <| hc ▸ findCmd_registered "del" (by decide)
  split at h
  case isTrue hc => exact .inl <| hc ▸ findCmd_registered "hset" (by decide)
  split at h
  case isTrue hc => exact .inl <| hc ▸ findCmd_registered "hget" (by decide)
  split at h
  case isTrue  => exact .inr <| (Option.some.inj h).symm
  case isFalse => cases h

-- Every answer is one complete reply, unless an unknown command has a name that is not a line of text, or there is no
-- memory for a value.
theorem reply_iff (hr : (s.proc calls (RedisLink.convertReq double recvBytes).recvString).2 ≠ []) :
    (∃ out ∈ s.answer calls heap double recvBytes, Resp.Reply out) ↔ ¬BadName calls recvBytes ∧
      ∀ val, s.read calls (RedisLink.convertReq double recvBytes).recvString = .found val → RedisLink.Fits val := by
  change RedisLink.Replies heap (RedisLink.appended _ (s.proc calls _).2) ↔ _
  unfold BadName
  unfold RedisLink.convertReq at hr ⊢
  generalize strtolower (recvBytes.headD []) = cmd at *
  cases hf : findCmd cmd
  case some desc =>
    simp only [hf] at hr ⊢
    have hb : ¬(some desc = none ∧ (getProc calls cmd).isNone ∧
        ¬RedisLink.Line (.ofString "Unknown Command: " ++ cmd)) := fun h => nomatch h.left
    exact (reply_desc rfl <| findCmd_mem hf).trans <| (and_iff_right hb).symm
  case none =>
    simp only [hf] at hr ⊢
    cases hp : getProc calls cmd
    case some p =>
      -- Only `sync140` is registered without being in the table.
      have hs := (findCmd_of_getProc hp).resolve_left <| by simp [hf]
      simp [SSDBImpl.proc, hp, hs, procSync140] at hr
    case none =>
      have hread : s.read calls (cmd :: recvBytes.tail) = .notFound := by
        refine read_of_ne ?_ ?_ <;> rintro rfl
        case refine_1 => cases hp
        case refine_2 => cases getProc_hget.symm.trans hp
      rw [hread, SSDBImpl.proc, List.headD_cons, hp]
      simp only [RedisLink.replies_clientError, Option.isNone_none, true_and, not_not]
      exact ⟨fun h => ⟨h, nofun⟩, And.left⟩

def allCalls : Calls :=
  ⟨true, true, true⟩

-- A database with one key, whose value contains an end of line.
def oneKey : SSDBImpl :=
  (SSDBImpl.open .empty).set true (.ofString "k") (.ofString "v\r\n") |>.1

theorem reply_oneKey :
    oneKey.read allCalls [.ofString "get", .ofString "k"] = .found (.ofString "v\r\n") ∧
    ∃ out ∈ oneKey.answer allCalls (fun _ => 0) (fun _ => 0) [.ofString "GET", .ofString "k"], Resp.Reply out := by
  have hv : oneKey.read allCalls [.ofString "get", .ofString "k"] = .found (.ofString "v\r\n") := by decide +kernel
  refine ⟨hv, (reply_iff <| by decide +kernel).mpr ⟨fun h => absurd h.left <| by decide +kernel, fun val he => ?_⟩⟩
  have hc : (RedisLink.convertReq (fun _ => 0) [.ofString "GET", .ofString "k"]).recvString =
      [.ofString "get", .ofString "k"] := by decide +kernel
  rw [hc, hv] at he
  rw [← GetResult.found.inj he]
  constructor <;> decide

-- A request with an unknown command that contains an end of line.
def unknownRequest : List (LinkTransition (fun _ => 0) fun _ => 0) × Option Buffer :=
  Machine.trace _ (Ssdb.link (fun _ => 0) fun _ => 0).init [Bytes.ofString "*1\r\n$3\r\na\nb\r\n"]

theorem not_reply :
    let recvBytes := [Bytes.ofString "a\nb"]
    (Machine.events unknownRequest.1).filterMap Call.parsed = [recvBytes] ∧
    (oneKey.proc allCalls (RedisLink.convertReq (fun _ => 0) recvBytes).recvString).2 ≠ [] ∧
    ¬∃ out ∈ oneKey.answer allCalls (fun _ => 0) (fun _ => 0) recvBytes, Resp.Reply out := by
  intro recvBytes
  have hp : (oneKey.proc allCalls (RedisLink.convertReq (fun _ => 0) recvBytes).recvString).2 =
      [.ofString "client_error", .ofString "Unknown Command: a\nb"] := by decide +kernel
  refine ⟨by decide +kernel, by rw [hp]; decide, ?_⟩
  change ¬RedisLink.Replies (fun _ => 0) (RedisLink.appended _ (oneKey.proc allCalls _).2)
  rw [hp, RedisLink.replies_clientError, RedisLink.line_of_short (by decide)]
  decide

end Ssdb
