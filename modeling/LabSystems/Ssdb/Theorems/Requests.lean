import LabSystems.Ssdb.Theorems.Packets

namespace Ssdb

open Bytes (decimal isDigit isDigit_of_mem_decimal length_decimal_le strtol_decimal)

namespace RedisLink

def header (type : UInt8) (n : Nat) : Bytes :=
  type :: (decimal n ++ ['\r'.toUInt8, '\n'.toUInt8])

def argument (arg : Bytes) : Bytes :=
  header '$'.toUInt8 arg.length ++ (arg ++ ['\r'.toUInt8, '\n'.toUInt8])

-- The arguments of a request, as a client sends them.
structure Request where
  args   : List Bytes
  ne_nil : args ≠ []
  lt     : (header '*'.toUInt8 args.length ++ args.flatMap argument).length < 2 ^ 31

def Request.bytes (r : Request) : Bytes :=
  header '*'.toUInt8 r.args.length ++ r.args.flatMap argument

variable {b : Buffer} {l x later rest arg : Bytes} {args : List Bytes} {ptr : Int} {type : UInt8}
  {recvBytes : List View}

theorem length_header : (header type n).length = (decimal n).length + 3 := by
  simp [header]

theorem cr_ne_lf : '\r'.toUInt8 ≠ '\n'.toUInt8 := by
  decide

theorem findIdx?_header (h : type ≠ '\n'.toUInt8) :
    (header type n ++ l).findIdx? (· = '\n'.toUInt8) = some ((decimal n).length + 2) := by
  have hd := Link.findIdx?_of_digits (l := decimal n) fun c => isDigit_of_mem_decimal
  rw [header, List.cons_append, List.findIdx?_cons, if_neg (by simpa using h), List.append_assoc,
    List.findIdx?_append, hd]
  simp [List.findIdx?_cons, cr_ne_lf]
  omega

theorem findIdx?_cut (h : type ≠ '\n'.toUInt8) (hl : l ++ x = header type n) (hx : x ≠ []) :
    l.findIdx? (· = '\n'.toUInt8) = none := by
  have he : header type n = type :: (decimal n ++ ['\r'.toUInt8]) ++ ['\n'.toUInt8] := by simp [header]
  have hp : l <+: type :: (decimal n ++ ['\r'.toUInt8]) := by
    rcases List.prefix_concat_iff.mp <| he ▸ hl ▸ List.prefix_append l x with hw | hp
    case inl => exact absurd (hl.trans <| he.trans hw.symm) (by simpa using hx)
    case inr => exact hp
  refine List.findIdx?_eq_none_iff.mpr fun c hc => ?_
  have hm := hp.subset hc
  simp only [List.mem_cons, List.mem_append, List.not_mem_nil, or_false] at hm
  rcases hm with rfl | hm | rfl
  case inl     => simpa using h
  case inr.inl => simpa using (Link.ne_of_isDigit <| isDigit_of_mem_decimal hm).left
  case inr.inr => simp [cr_ne_lf]

theorem parse_of_memchr (h : b.memchr '\n'.toUInt8 ptr size = none) :
    parse b ptr size parsed numArgs recvBytes = .more := by
  rw [parse]
  split
  case isFalse => rfl
  case isTrue  =>
    split
    case h_1     => rfl
    case h_2 hlf => cases h.symm.trans hlf

-- The loop comes to the end of what has been received within a line.
theorem parse_cut (h : b.From ptr l) (hl : l ++ x = header type n) (hx : x ≠ []) (ht : type ≠ '\n'.toUInt8) :
    parse b ptr l.length ptr numArgs recvBytes = .more := by
  refine parse_of_memchr ?_
  rw [h.memchr, findIdx?_cut ht hl hx]
  rfl

-- The LF after the CR of an argument.
def eol (b : Buffer) (next size : Int) : Int :=
  if 0 < size ∧ b.byte next = '\n'.toUInt8 then 1 else 0

theorem eol_le (b : Buffer) (next : Int) (h : 0 ≤ size) : 0 ≤ eol b next size ∧ eol b next size ≤ size := by
  unfold eol
  split <;> omega

theorem eol_nil : eol b next (([] : Bytes).length) = 0 :=
  if_neg fun h => absurd h.left <| by simp

theorem eol_lf (h : b.From next ('\n'.toUInt8 :: l)) : eol b next (('\n'.toUInt8 :: l).length) = 1 :=
  if_pos ⟨by simp only [List.length_cons]; omega, h.byte⟩

-- What is done with the number in a line.
theorem parse_header (h : b.From ptr (header type n ++ l)) (ht : type ≠ '\n'.toUInt8) (hn : n < 2 ^ 31) :
    parse b ptr (header type n ++ l).length ptr numArgs recvBytes =
      let body := ptr + (header type n).length
      let next := body + (n + 1)
      let size : Int := l.length - (n + 1)
      let eol := eol b next size
      if numArgs = 0 then
        if n = 0 then .bad else parse b body l.length body n recvBytes
      else if l.length < n + 1 then
        .more
      else if numArgs - 1 = 0 then
        .request (recvBytes ++ [⟨body, n⟩]) (next + eol)
      else
        parse b (next + eol) (size - eol) (next + eol) (numArgs - 1) (recvBytes ++ [⟨body, n⟩]) := by
  have hs := b.size_lt
  have hl := h.length
  have hh := h.nonneg
  have hlen := @length_header type n
  have hm : b.memchr '\n'.toUInt8 ptr (header type n ++ l).length = some (ptr + ((decimal n).length + 2 : Nat)) := by
    rw [h.memchr, findIdx?_header ht]
    rfl
  have hv : (Bytes.strtol <| b.memory.drop (ptr + 1).toNat).toInt = n := by
    have hf : b.From (ptr + 1) (decimal n ++ '\r'.toUInt8 :: '\n'.toUInt8 :: l) := by
      rw [header, ← List.singleton_append, List.append_assoc] at h
      simpa using h.skip
    rw [hf.memory, List.append_assoc]
    exact strtol_decimal (by omega) fun c hc => by cases hc; rfl
  rw [List.length_append] at hl hm ⊢
  rw [parse, if_pos (by omega)]
  split
  case h_1 hlf    => cases hlf.symm.trans hm
  case h_2 lf hlf =>
    cases hlf.symm.trans hm
    have hb : ptr + ((decimal n).length + 2 : Nat) + 1 = ptr + (header type n).length := by omega
    have hk : (((header type n).length + l.length : Nat) : Int) - (header type n).length = l.length := by omega
    dsimp only
    rw [hb, add_sub_cancel_left, hk, hv, int_eq (n := n) (by omega) (by omega),
      int_eq (n := l.length) (by omega) (by omega), int_eq (n := ptr + (header type n).length) (by omega) (by omega),
      if_neg (by omega : ¬(n : Int) < 0)]
    split
    case isTrue =>
      split
      case isTrue  => rw [if_pos (by omega)]
      case isFalse => rw [if_neg (by omega)]
    case isFalse =>
      split
      case isTrue     => rw [if_pos (by omega)]
      case isFalse hn =>
        have he := eol_le b (ptr + (header type n).length + (n + 1)) (by omega : (0 : Int) ≤ l.length - (n + 1))
        unfold eol at he ⊢
        rw [if_neg (by omega : ¬l.length < n + 1), int_eq (n := n + 1) (by omega) (by omega),
          int_eq (n := l.length - (n + 1)) (by omega) (by omega),
          int_eq (n := ptr + (header type n).length + (n + 1)) (by omega) (by omega),
          int_eq (by omega) (by omega), int_eq (by omega) (by omega)]

-- What is left of a stream after an argument. Its last LF may not have been received yet.
def Left (l later rest : Bytes) : Prop :=
  l ++ later = rest ∨ l = [] ∧ later = '\n'.toUInt8 :: rest

theorem parse_argument (recvBytes : List View) (h : b.From ptr l) (hl : l ++ later = argument arg ++ rest)
    (hn : arg.length < 2 ^ 31)
    (hk : numArgs ≠ 0) :
    later ≠ [] ∧ parse b ptr l.length ptr numArgs recvBytes = .more ∨
    ∃ view next l', b.view view = arg ∧ b.From next l' ∧ Left l' later rest ∧
      parse b ptr l.length ptr numArgs recvBytes =
        if numArgs - 1 = 0 then
          .request (recvBytes ++ [view]) next
        else
          parse b next l'.length next (numArgs - 1) (recvBytes ++ [view]) := by
  have ht : '$'.toUInt8 ≠ '\n'.toUInt8 := by decide
  rw [argument, List.append_assoc] at hl
  rcases Framing.whole_or_cut hl with ⟨l, rfl, hl'⟩ | ⟨x, hx, hne, hlater⟩
  case inr => exact .inl ⟨by simp [hlater, hne], parse_cut h hx hne ht⟩
  case inl =>
    rw [parse_header h ht hn]
    dsimp only
    rw [if_neg hk]
    have he : arg ++ ['\r'.toUInt8, '\n'.toUInt8] ++ rest = arg ++ ['\r'.toUInt8] ++ '\n'.toUInt8 :: rest := by simp
    rcases Framing.whole_or_cut (hl'.trans he) with ⟨r, rfl, hr⟩ | ⟨x, hx, hne, hlater⟩
    case inr =>
      have hlen := congrArg List.length hx
      have hpos := List.length_pos_iff.mpr hne
      simp only [List.length_append, List.length_cons, List.length_nil] at hlen
      exact .inl ⟨by simp [hlater, hne], if_pos (by omega)⟩
    case inl =>
      have hbody := h.skip
      have hview : b.view ⟨ptr + (header '$'.toUInt8 arg.length).length, arg.length⟩ = arg := by
        rw [hbody.view (by simp only [List.length_append]; omega), Int.toNat_natCast, List.append_assoc, List.take_left]
      have hnext := hbody.skip
      have hsize : ((arg ++ ['\r'.toUInt8] ++ r).length : Int) - (arg.length + 1) = r.length := by
        simp only [List.length_append, List.length_singleton]
        omega
      have hlen : ((arg ++ ['\r'.toUInt8]).length : Int) = arg.length + 1 := by simp
      rw [hlen] at hnext
      rw [if_neg (by simp only [List.length_append, List.length_singleton]; omega), hsize]
      cases r
      case nil =>
        refine .inr ⟨_, _, [], hview, hnext, .inr ⟨rfl, hr⟩, ?_⟩
        rw [eol_nil, add_zero, sub_zero]
      case cons c r =>
        have ⟨hc, hrest⟩ := List.cons.inj hr
        subst hc
        refine .inr ⟨_, _, r, hview, hnext.skip (l := ['\n'.toUInt8]), .inl hrest, ?_⟩
        rw [eol_lf hnext]
        simp

theorem parse_args (recvBytes : List View) (h : b.From ptr l) (hl : l ++ later = args.flatMap argument ++ rest)
    (hne : args ≠ []) (hn : ∀ arg ∈ args, arg.length < 2 ^ 31) :
    later ≠ [] ∧ parse b ptr l.length ptr args.length recvBytes = .more ∨
    ∃ views next l', views.map b.view = args ∧ b.From next l' ∧ Left l' later rest ∧
      parse b ptr l.length ptr args.length recvBytes = .request (recvBytes ++ views) next := by
  induction args generalizing ptr l recvBytes
  case nil              => exact absurd rfl hne
  case cons arg args hi =>
    have ⟨hna, hn⟩ := List.forall_mem_cons.mp hn
    rw [List.flatMap_cons, List.append_assoc] at hl
    have hk : ((arg :: args).length : Int) - 1 = args.length := by simp
    have hz : ((arg :: args).length : Int) ≠ 0 := by simp only [List.length_cons]; omega
    rcases parse_argument recvBytes h hl hna hz with hm | ⟨view, next, l', hv, hf, hleft, hp⟩
    case inl => exact .inl hm
    case inr =>
      rw [hp, hk]
      cases args
      case nil  => exact .inr ⟨[view], next, l', by simp [hv], hf, by simpa using hleft, by simp⟩
      case cons =>
        rw [if_neg (by simp only [List.length_cons]; omega)]
        rcases hleft with hrest | ⟨rfl, hlater⟩
        case inr => exact .inl ⟨by simp [hlater], by rw [parse, if_neg (by simp)]⟩
        case inl =>
          rcases hi (recvBytes ++ [view]) hf hrest (by simp) hn with hm | ⟨views, next, l'', hvs, hf, hleft, hp⟩
          case inl => exact .inl hm
          case inr => exact .inr ⟨view :: views, next, l'', by simp [hv, hvs], hf, hleft, by rw [hp, List.append_assoc]; rfl⟩

theorem Request.exists_star (r : Request) : ∃ l, r.bytes = '*'.toUInt8 :: l :=
  ⟨_, by rw [bytes, header, List.cons_append]⟩

theorem Request.bytes_ne_nil (r : Request) : r.bytes ≠ [] := by
  simp [bytes, header]

theorem length_argument : (argument arg).length = (decimal arg.length).length + arg.length + 5 := by
  simp only [argument, List.length_append, length_header, List.length_cons, List.length_nil]
  omega

theorem length_lt_of_mem (h : arg ∈ args) : arg.length < (args.flatMap argument).length := by
  have ⟨as, as', he⟩ := List.append_of_mem h
  simp only [he, List.flatMap_append, List.flatMap_cons, List.length_append, length_argument]
  omega

theorem length_le_flatMap (args : List Bytes) : args.length ≤ (args.flatMap argument).length := by
  induction args
  case nil              => exact le_refl _
  case cons arg args hi =>
    simp only [List.flatMap_cons, List.length_append, List.length_cons, length_argument]
    omega

-- A request is found as soon as the CR after its last argument has been received.
theorem parse_bytes {r : Request} (h : b.From ptr l) (hl : l ++ later = r.bytes ++ rest) :
    later ≠ [] ∧ parse b ptr l.length ptr 0 [] = .more ∨
    ∃ views next l', views.map b.view = r.args ∧ b.From next l' ∧ Left l' later rest ∧
      parse b ptr l.length ptr 0 [] = .request views next := by
  have hlt := r.lt
  have hcount := length_le_flatMap r.args
  have hpos := List.length_pos_iff.mpr r.ne_nil
  have ht : '*'.toUInt8 ≠ '\n'.toUInt8 := by decide
  rw [List.length_append] at hlt
  rw [Request.bytes, List.append_assoc] at hl
  rcases Framing.whole_or_cut hl with ⟨l, rfl, hl'⟩ | ⟨x, hx, hne, hlater⟩
  case inr => exact .inl ⟨by simp [hlater, hne], parse_cut h hx hne ht⟩
  case inl =>
    rw [parse_header h ht (by omega)]
    dsimp only
    rw [if_pos rfl, if_neg (by omega)]
    exact parse_args [] h.skip hl' r.ne_nil fun arg ha => by have hla := length_lt_of_mem ha; omega

end RedisLink

def Call.parsed (c : Call) : Option (List Bytes) :=
  if c.parseReq = some 1 then some c.recvBytes else none

namespace Link

open Machine (events)
open RedisLink (Request)

variable {double : Bytes → Int64} {heap heap' : Nat → UInt8} {b : Buffer} {l r s x later rest lead : Bytes}
  {ms : List (List Bytes)} {ts : List (LinkTransition double heap)} {o : Option Buffer}

-- What may be left of requests.
def Requests (ms : List (List Bytes)) (l : Bytes) : Prop :=
  ∃ rs : List Request, ms = rs.map Request.args ∧
    (l = rs.flatMap Request.bytes ∨ l = '\n'.toUInt8 :: rs.flatMap Request.bytes)

theorem Requests.nil (h : Requests ms []) : ms = [] := by
  have ⟨rs, hms, hl⟩ := h
  cases rs
  case nil       => exact hms
  case cons r rs => simp [r.bytes_ne_nil] at hl

theorem leading_of_lead (h : b.data = lead ++ l) (hlead : ∀ c ∈ lead, c = '\n'.toUInt8)
    (hl : ∀ c ∈ l.head?, c = '*'.toUInt8) : b.leading = lead.length := by
  rw [Buffer.leading, h, List.takeWhile_append_of_pos fun c hc => by simp [hlead c hc]]
  cases l
  case nil      => simp
  case cons c l =>
    have hc : c = '*'.toUInt8 := hl c rfl
    have hw : (c :: l).takeWhile (fun c => c = '\n'.toUInt8 || c = '\r'.toUInt8) = [] := by
      rw [hc]
      exact List.takeWhile_cons_of_neg (by decide)
    rw [hw, List.append_nil]

-- What is left of the data, after an LF or not.
theorem exists_lead (h : Requests ms (b.data ++ later)) : ∃ lead l, ∃ rs : List Request, b.data = lead ++ l ∧ lead.length ≤ 1 ∧
    (∀ c ∈ lead, c = '\n'.toUInt8) ∧ ms = rs.map Request.args ∧ (b.data ≠ [] → l ++ later = rs.flatMap Request.bytes) := by
  have ⟨rs, hms, hl⟩ := h
  cases hd : b.data
  case nil      => exact ⟨[], [], rs, rfl, by simp, by simp, hms, by simp⟩
  case cons c l =>
    rw [hd] at hl
    rcases hl with hl | hl
    case inl => exact ⟨[], c :: l, rs, rfl, by simp, by simp, hms, fun _ => hl⟩
    case inr =>
      have ⟨hc, hl⟩ := List.cons.inj hl
      exact ⟨[c], l, rs, rfl, by simp, by simpa using hc, hms, fun _ => hl⟩

theorem head_star {rs : List Request} (hl : l ++ later = rs.flatMap Request.bytes) : ∀ c ∈ l.head?, c = '*'.toUInt8 := by
  cases rs
  case nil       => simp_all
  case cons r rs =>
    have ⟨l', hr⟩ := r.exists_star
    cases l
    case nil      => simp
    case cons c l =>
      rw [List.flatMap_cons, hr] at hl
      simpa using (List.cons.inj hl).left

theorem recvReq_star (h : b.data ≠ []) (hb : b.byte b.leading = '*'.toUInt8) :
    recvReq double heap b =
      match RedisLink.parse b b.leading (int (b.size - b.leading)) b.leading 0 [] with
      | .bad                      => (⟨some (-1), [], none⟩, b)
      | .more                     => more heap b (some 0)
      | .request recvBytes parsed =>
        let recvBytes := recvBytes.map b.view
        (⟨some 1, recvBytes, some (RedisLink.convertReq double recvBytes).recvString⟩, b.decr parsed) := by
  have hz : b.size ≠ 0 := by simpa [Buffer.size] using h
  have hp : RedisLink.parseReq b = RedisLink.parse b b.leading (int (b.size - b.leading)) b.leading 0 [] :=
    if_neg (not_not.mpr hb)
  rw [recvReq, if_neg hz, if_pos hb]
  cases h : RedisLink.parse b b.leading (int (b.size - b.leading)) b.leading 0 [] <;> simp only [redisRecvReq, hp, h]

-- There is nothing after an empty line, although there may be a byte in the memory.
theorem recvReq_lead (h : b.data ≠ []) (hl : b.size = b.leading) :
    ∃ ret, (ret = none ∨ ret = some 0) ∧ recvReq double heap b = more heap b ret := by
  have hi : int (b.size - b.leading) = 0 := by
    rw [hl, sub_self]
    rfl
  by_cases hb : b.byte b.leading = '*'.toUInt8
  case pos =>
    refine ⟨some 0, .inr rfl, ?_⟩
    rw [recvReq_star h hb, hi, RedisLink.parse, if_neg (lt_irrefl _)]
  case neg =>
    have hz : b.size ≠ 0 := by simpa [Buffer.size] using h
    refine ⟨none, .inl rfl, ?_⟩
    rw [recvReq, if_neg hz, if_neg hb, hi, parse, if_neg (lt_irrefl _)]

variable (double heap) in
-- What a call does with requests.
theorem recvReq_requests (h : Requests ms (b.data ++ later)) :
    (∃ ms' args n, ms = args :: ms' ∧ Requests ms' ((b.decr n).data ++ later) ∧
      recvReq double heap b = (⟨some 1, args, some (RedisLink.convertReq double args).recvString⟩, b.decr n)) ∨
    (later = [] → ms = [] ∧ b.size < 2 ^ 29) ∧ (recvReq double heap b = (⟨none, [], some []⟩, b) ∨
      ∃ ret, (ret = none ∨ ret = some 0) ∧ recvReq double heap b = more heap b ret) := by
  by_cases hz : b.data = []
  case pos =>
    have hs : b.size = 0 := by simp [Buffer.size, hz]
    exact .inr ⟨fun he => ⟨Requests.nil <| by simpa [hz, he] using h, by omega⟩, .inl <| by rw [recvReq, if_pos hs]⟩
  case neg =>
    obtain ⟨lead, l, rs, hd, hlen, hlf, hms, hrest⟩ := exists_lead h
    have hl := hrest hz
    have hlead := leading_of_lead hd hlf <| head_star hl
    have hf : b.From b.leading l := by
      rw [hlead]
      simpa using (Buffer.From.zero hd).skip
    have hs := b.size_lt
    have hsize := hf.length
    have hi : int (b.size - b.leading) = l.length := by rw [int_eq] <;> omega
    cases l
    case nil =>
      refine .inr ⟨fun he => ?_, .inr <| recvReq_lead hz <| by simpa using hsize.symm⟩
      have hnil : Requests ms [] := ⟨rs, hms, .inl <| by simpa [he] using hl⟩
      exact ⟨hnil.nil, by simp [hlead] at hsize; omega⟩
    case cons c l =>
      have hc : c = '*'.toUInt8 := head_star hl c rfl
      have hb : b.byte b.leading = '*'.toUInt8 := hc ▸ hf.byte
      rw [recvReq_star hz hb, hi]
      cases rs
      case nil       => cases hl
      case cons r rs =>
        rcases RedisLink.parse_bytes hf hl with ⟨hne, hp⟩ | ⟨views, next, l', hv, hf', hleft, hp⟩
        case inl => exact .inr ⟨fun he => absurd he hne, .inr ⟨some 0, .inr rfl, by rw [hp]⟩⟩
        case inr =>
          refine .inl ⟨rs.map Request.args, r.args, next, hms, ⟨rs, rfl, ?_⟩, by rw [hp, ← hv]⟩
          have hdata : (b.decr next).data = l' := hf'.drop
          rw [hdata]
          rcases hleft with hrest | ⟨rfl, hlater⟩
          case inl => exact .inl hrest
          case inr => exact .inr hlater

theorem recvString_ne_nil : (RedisLink.convertReq double args).recvString ≠ [] := by
  rw [RedisLink.convertReq]
  split <;> simp

theorem requests_correct : (reader double heap Call.parsed).Correct Requests (·.parseReq ≠ some (-1)) where
  splits ms s later h := by
    rcases recvReq_requests double heap h with ⟨ms', args, n, hms, hrest, hr⟩ | ⟨hlater, hr | ⟨ret, hret, hr⟩⟩
    case inl =>
      have hs : ((reader double heap Call.parsed).read s).2 = some (s.decr n) := by simp [reader, hr]
      refine .found ?_ ?_ hs hms hrest
      all_goals
        simp [reader, hr, Call.parsed, recvString_ne_nil]
    case inr.inl =>
      refine .more ?_ ?_ (fun he => (hlater he).left) (fun s' hs => ?_) ?_
      case refine_3 =>
        simp [reader, hr] at hs
        rw [hs]
      all_goals
        simp [reader, hr, Call.parsed]
    case inr.inr =>
      refine .more ?_ ?_ (fun he => (hlater he).left) (fun s' hs => ?_) (fun hs he => ?_)
      case refine_1 => rcases hret with rfl | rfl <;> simp [reader, hr, Call.parsed, more]
      case refine_2 =>
        simp only [reader, hr, more]
        split <;> simp
      case refine_3 =>
        simp only [reader, hr, more] at hs
        split at hs
        case isTrue  => cases hs
        case isFalse =>
          cases hs
          exact Buffer.data_reserve
      case refine_4 => simp [reader, hr, more_eq (hlater he).right] at hs
  good ms s later h := by
    rcases recvReq_requests double heap h with ⟨_, _, _, _, _, hr⟩ | ⟨_, hr | ⟨ret, rfl | rfl, hr⟩⟩
    all_goals
      simp [reader, hr, more]

-- Requests are parsed as they have been sent, however they are cut into chunks.
theorem parses_requests {rs : List Request} (r : (link double heap).Run ts o)
    (appends : ∀ t ∈ ts, LinkTransition.Appends t) (sent : ts.flatMap (·.act) = rs.flatMap Request.bytes) :
    (∀ c ∈ events ts, c.parseReq ≠ some (-1)) ∧ (events ts).filterMap Call.parsed = rs.map Request.args ∧
      ∃ b, o = some b ∧ (b.data = [] ∨ b.data = ['\n'.toUInt8]) := by
  have hs : Requests (rs.map Request.args) (ts.flatMap (·.act)) := ⟨rs, rfl, .inl sent⟩
  have ⟨hg, hm, b, hb, hrest⟩ := received_of_run requests_correct (fun _ => Requests.nil) r appends hs
  refine ⟨hg, hm, b, hb, ?_⟩
  have ⟨rs, hn, hl⟩ := hrest
  simpa [List.map_eq_nil_iff.mp hn.symm] using hl

def twoRequests : List Request :=
  [⟨[.ofString "get", []], by simp, by decide +kernel⟩, ⟨[.ofString "\r\n*"], by simp, by decide +kernel⟩]

-- The first one is cut between CR and LF, and the second one within its argument.
def requested : List (LinkTransition (fun _ => 0) fun _ => 0) × Option Buffer :=
  Machine.trace _ (link (fun _ => 0) fun _ => 0).init <|
    ["*2\r\n$3\r\nget\r\n$0\r\n\r", "\n*1\r\n$3\r\n\r", "\n*\r\n"].map Bytes.ofString

theorem parses_requests_requested : (events requested.1).filterMap Call.parsed = twoRequests.map Request.args :=
  have hs : requested.1.flatMap (·.act) = twoRequests.flatMap Request.bytes := by decide +kernel
  parses_requests (Machine.path_trace ..) (by decide +kernel) hs |>.right.left

end Link

end Ssdb
