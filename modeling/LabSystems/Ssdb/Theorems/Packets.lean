import LabSystems.Ssdb.Theorems.Link

namespace Ssdb

open Bytes (decimal isDigit isDigit_of_mem_decimal decimal_ne_nil length_decimal_le strtol_decimal)

namespace Buffer

variable (heap : Nat → UInt8) {b : Buffer} {s p : Bytes} {ss : List Bytes}

theorem record_eq : record s = decimal s.length ++ '\n'.toUInt8 :: (s ++ ['\n'.toUInt8]) := by
  simp [record]

theorem length_record_le (h : s.length < 2 ^ 31) : (record s).length ≤ s.length + 12 := by
  have hd := (length_decimal_le (k := 10) (n := s.length) (by omega)).mpr (by omega)
  simp only [record, List.length_append, List.length_cons, List.length_nil]
  omega

-- There is memory for what is sent.
theorem exists_grow (h : b.before.length + b.size + n ≤ 2 ^ 30) (hs : n > b.space) :
    ∃ b', b.grow heap = some b' ∧ b'.before = b.before ∧ b'.data = b.data := by
  have ht : b.total = b.before.length + b.size + b.space := rfl
  cases hg : b.grow heap
  case some b' =>
    have ⟨_, hb, hd⟩ := grow_eq_some hg
    exact ⟨b', rfl, hb, hd⟩
  case none =>
    unfold grow newTotal at hg
    split_ifs at hg
    all_goals omega

theorem append_spec (h : b.before.length + b.size + p.length ≤ 2 ^ 30) :
    (b.append heap p).2 = p.length ∧ (b.append heap p).1.data = b.data ++ p ∧
      (b.append heap p).1.before = b.before := by
  fun_induction append heap b p
  case case1 b hs hg =>
    obtain ⟨_, hg', _⟩ := exists_grow heap h hs
    cases hg.symm.trans hg'
  case case2 b hs b' hg hi =>
    obtain ⟨_, hg', hb, hd⟩ := exists_grow heap h hs
    cases hg.symm.trans hg'
    rw [size, ← hb, ← hd] at h
    exact hb ▸ hd ▸ hi h
  case case3 => exact ⟨rfl, rfl, rfl⟩

theorem appendRecord_spec (h : b.before.length + b.size + s.length + 17 ≤ 2 ^ 30) :
    (b.appendRecord heap s).1.data = b.data ++ record s ∧ (b.appendRecord heap s).1.before = b.before := by
  fun_induction appendRecord heap b s
  case case1 b hs hg =>
    have ⟨_, hg', _⟩ := exists_grow heap (n := 16 + s.length + 1) (by omega) hs
    cases hg.symm.trans hg'
  case case2 b hs b' hg hi =>
    have ⟨_, hg', hb, hd⟩ := exists_grow heap (n := 16 + s.length + 1) (by omega) hs
    cases hg.symm.trans hg'
    rw [size, ← hb, ← hd] at h
    exact hb ▸ hd ▸ hi h
  case case3 b hs =>
    have hl := length_record_le (s := s) (by omega)
    exact append_spec heap (by omega) |>.right

theorem foldl_appendRecord (ss : List Bytes) (h : b.before.length + b.size + (ss.flatMap record).length + 17 ≤ 2 ^ 30) :
    let b' := ss.foldl (fun b s => (b.appendRecord heap s).1) b
    b'.data = b.data ++ ss.flatMap record ∧ b'.before = b.before := by
  induction ss generalizing b
  case nil          => simp
  case cons s ss hi =>
    have hs := length_le_record (s := s)
    simp only [List.flatMap_cons, List.length_append] at h
    have ⟨hd, hb⟩ := appendRecord_spec heap (b := b) (s := s) (by omega)
    have hn : (b.appendRecord heap s).1.size = b.size + (record s).length := by rw [size, hd, List.length_append, ← size]
    have ⟨hd', hb'⟩ := hi (b := (b.appendRecord heap s).1) (by rw [hb]; omega)
    refine ⟨?_, hb'.trans hb⟩
    simp only [List.foldl_cons, hd', hd, List.flatMap_cons, List.append_assoc]

end Buffer

def Call.request (c : Call) : Option (List Bytes) :=
  c.req.filter (· ≠ [])

namespace Link

open Machine (events)

variable {double : Bytes → Int64} {heap heap' : Nat → UInt8} {b : Buffer} {l r s x later rest : Bytes}
  {ss : List Bytes} {head : Int} {recvData : List View} {ms : List (List Bytes)}
  {ts : List (LinkTransition double heap)} {o : Option Buffer}

theorem Packet.data_send (p : Packet) : (p.send heap).data = p.bytes := by
  have hs := p.size_le
  unfold maxPacketSize at hs
  have ⟨hd, hb⟩ := Buffer.foldl_appendRecord heap p.strings (b := .new heap _ p.sum_lt) (by
    simp only [Buffer.new, Buffer.size, List.length_nil]
    omega)
  refine Buffer.append_spec heap ?_ |>.right.left.trans <| congrArg (· ++ _) hd
  rw [Buffer.size, hd, hb]
  simp only [Buffer.new, List.length_nil, List.nil_append, List.length_cons]
  omega

theorem ne_of_isDigit {c : UInt8} (h : isDigit c) :
    c ≠ '\n'.toUInt8 ∧ c ≠ '\r'.toUInt8 ∧ c ≠ '*'.toUInt8 ∧ ¬(c < '0'.toUInt8 ∨ c > '9'.toUInt8) := by
  refine ⟨?_, ?_, ?_, ?_⟩
  case refine_4 =>
    simp only [isDigit, Bool.and_eq_true, decide_eq_true_eq] at h
    simp only [UInt8.lt_iff_toNat_lt]
    change ¬(c.toNat < 48 ∨ 57 < c.toNat)
    omega
  all_goals
    rintro rfl
    cases h

theorem findIdx?_of_digits (h : ∀ c ∈ l, isDigit c) : l.findIdx? (· = '\n'.toUInt8) = none := by
  simpa [List.findIdx?_eq_none_iff] using fun c hc => (ne_of_isDigit <| h c hc).left

theorem isDigit_byte (h : b.From head (decimal n ++ r)) : isDigit (b.byte head) := by
  cases hc : decimal n
  case nil       => exact absurd hc decimal_ne_nil
  case cons c cs =>
    rw [hc] at h
    exact h.byte ▸ (isDigit_of_mem_decimal <| hc ▸ List.mem_cons_self)

-- A line that starts with a number, and what comes after it.
theorem pass_decimal (h : b.From head (decimal n ++ '\n'.toUInt8 :: r)) (hn : n ≤ 2 ^ 30) :
    pass b head (decimal n ++ '\n'.toUInt8 :: r).length head recvData =
      let body := head + (decimal n).length + 1
      if r.length < n then
        .last .more
      else
        passEol b ⟨body, n⟩ (body + n) (r.length - n) (body + n) := by
  have hs := b.size_lt
  have hl := h.length
  have hd := (length_decimal_le (n := n) (k := 18) (by omega)).mpr (by omega)
  have hne : 0 < (decimal n).length := List.length_pos_iff.mpr decimal_ne_nil
  have hh := h.nonneg
  simp only [List.length_append, List.length_cons] at hl
  have hm : b.memchr '\n'.toUInt8 head (decimal n ++ '\n'.toUInt8 :: r).length = some (head + (decimal n).length) := by
    rw [h.memchr, List.findIdx?_append, findIdx?_of_digits fun c => isDigit_of_mem_decimal]
    simp [List.findIdx?_cons]
  have hv : (Bytes.strtol <| b.view ⟨head, (decimal n).length⟩).toInt = n := by
    rw [h.view (by rw [List.length_append]; omega), Int.toNat_natCast, List.take_left]
    simpa using @strtol_decimal n [] (by omega) (by simp)
  have ⟨_, hcr, _, hr⟩ := ne_of_isDigit <| isDigit_byte h
  have hk : head + (decimal n).length + 1 - head = (decimal n).length + 1 := by omega
  simp only [pass, hm, hk, add_sub_cancel_right, hv]
  rw [if_neg (not_or.mpr ⟨by omega, fun hc => hcr hc.right⟩), if_neg hr, if_neg (by omega),
    int_eq (n := n) (by omega) (by omega), if_neg (by omega)]
  rw [int_eq (n := (decimal n).length + 1 + n) (by omega) (by omega), List.length_append, List.length_cons,
    int_eq (by omega) (by omega)]
  split
  case isTrue  => rw [if_pos (by omega)]
  case isFalse =>
    rw [if_neg (by omega), int_eq (by omega) (by omega)]
    congr 1 <;> omega

theorem parse_last (h : pass b head size parsed recvData = .last result) (hs : 0 < size) :
    parse b head size parsed recvData = result := by
  unfold parse
  rw [if_pos hs]
  split
  case h_1 hp => exact (Pass.last.inj <| h.symm.trans hp).symm
  case h_2 hp => cases h.symm.trans hp

theorem parse_next (h : pass b head size parsed recvData = .next view head' size' parsed') (hs : 0 < size) :
    parse b head size parsed recvData = parse b head' size' parsed' (recvData ++ [view]) := by
  rw [parse, if_pos hs]
  split
  case h_1 hp => cases h.symm.trans hp
  case h_2 hp =>
    cases h.symm.trans hp
    rfl

-- The loop comes to the end of what has been received within a string.
theorem parse_partial (h : b.From head l) (hp : l ++ x = Buffer.record s) (hx : x ≠ []) (hs : s.length ≤ 2 ^ 30) :
    parse b head l.length head recvData = .more := by
  by_cases hz : 0 < (l.length : Int)
  case neg => rw [parse, if_neg hz]
  case pos =>
    refine parse_last ?_ hz
    rw [Buffer.record_eq] at hp
    rcases Framing.whole_or_cut hp with ⟨r, rfl, hr⟩ | ⟨y, hy, _⟩
    case inr =>
      have hm : b.memchr '\n'.toUInt8 head l.length = none := by
        rw [h.memchr, findIdx?_of_digits fun c hc => isDigit_of_mem_decimal (hy ▸ List.mem_append_left y hc)]
        rfl
      simp only [pass, hm]
    case inl =>
      cases r
      case nil =>
        have hm : b.memchr '\n'.toUInt8 head (decimal s.length ++ []).length = none := by
          rw [h.memchr, List.append_nil, findIdx?_of_digits fun c => isDigit_of_mem_decimal]
          rfl
        simp only [pass, hm]
      case cons c r =>
        have ⟨hc, hr⟩ := List.cons.inj hr
        subst hc
        rw [pass_decimal h hs]
        split
        case isTrue  => rfl
        case isFalse hl =>
          have hlen := congrArg List.length hr
          have hpos := List.length_pos_iff.mpr hx
          simp only [List.length_append, List.length_cons, List.length_nil] at hlen
          have he : (r.length : Int) - s.length = 0 := by omega
          simp [passEol, he]

theorem maxPacketSize_eq : maxPacketSize = 2 ^ 27 :=
  rfl

-- The line ends after a string.
theorem passEol_lf (h : b.From head ('\n'.toUInt8 :: l)) (hm : head + 1 ≤ maxPacketSize) :
    passEol b view head (l.length + 1) head = .next view (head + 1) l.length (head + 1) := by
  have hb := b.size_lt
  have hl := h.length
  have hh := h.nonneg
  have hx := maxPacketSize_eq
  simp only [List.length_cons] at hl
  rw [passEol, if_pos ⟨by omega, h.byte⟩]
  dsimp only
  rw [add_sub_cancel_right, int_eq (n := head + 1) (by omega) (by omega), if_neg (by omega), int_eq (by omega) (by omega)]

theorem parse_record (recvData : List View) (h : b.From head (Buffer.record s ++ l)) (hs : s.length ≤ 2 ^ 30)
    (hm : head + (Buffer.record s).length ≤ maxPacketSize) : ∃ view,
    b.view view = s ∧ parse b head (Buffer.record s ++ l).length head recvData =
      parse b (head + (Buffer.record s).length) l.length (head + (Buffer.record s).length) (recvData ++ [view]) := by
  have he : Buffer.record s ++ l = decimal s.length ++ '\n'.toUInt8 :: (s ++ '\n'.toUInt8 :: l) := by
    simp [Buffer.record]
  have hlen : (Buffer.record s).length = (decimal s.length).length + 1 + s.length + 1 := by
    simp only [Buffer.record, List.length_append, List.length_cons, List.length_nil]
    omega
  rw [he] at h ⊢
  have hbody : b.From (head + (decimal s.length).length + 1) (s ++ '\n'.toUInt8 :: l) := by
    have hf := h.skip.skip (l := ['\n'.toUInt8])
    simpa using hf
  refine ⟨⟨head + (decimal s.length).length + 1, s.length⟩, ?_, ?_⟩
  case refine_1 =>
    rw [hbody.view (by simp only [List.length_append]; omega), Int.toNat_natCast, List.take_left]
  case refine_2 =>
    refine parse_next ?_ (by simp only [List.length_append, List.length_cons]; omega)
    have hrest : ((s ++ '\n'.toUInt8 :: l).length : Int) - s.length = l.length + 1 := by
      simp only [List.length_append, List.length_cons]
      omega
    have hhead : head + (decimal s.length).length + 1 + s.length + 1 = head + (Buffer.record s).length := by omega
    rw [pass_decimal h hs]
    dsimp only
    rw [if_neg (by omega), hrest, passEol_lf hbody.skip (by omega), hhead]

theorem parse_end (h : b.From head ('\n'.toUInt8 :: l)) :
    parse b head ('\n'.toUInt8 :: l).length head recvData = .request recvData (head + 1) := by
  have hb := b.size_lt
  have hl := h.length
  have hh := h.nonneg
  have hm : b.memchr '\n'.toUInt8 head ('\n'.toUInt8 :: l).length = some head := by
    rw [h.memchr]
    simp [List.findIdx?_cons]
  refine parse_last ?_ (by simp only [List.length_cons]; omega)
  simp only [List.length_cons] at hl
  simp only [pass, hm, add_sub_cancel_left, true_or, if_true]
  rw [int_eq (by omega) (by omega)]

-- A packet that has not been received as a whole is not a request yet.
theorem parse_packet (recvData : List View) (h : b.From head l)
    (hl : l ++ later = ss.flatMap Buffer.record ++ '\n'.toUInt8 :: rest)
    (hm : head + (ss.flatMap Buffer.record).length ≤ maxPacketSize) :
    (∃ l' views, l = ss.flatMap Buffer.record ++ '\n'.toUInt8 :: l' ∧ l' ++ later = rest ∧ views.map b.view = ss ∧
      parse b head l.length head recvData =
        .request (recvData ++ views) (head + (ss.flatMap Buffer.record).length + 1)) ∨
    later ≠ [] ∧ l.length ≤ (ss.flatMap Buffer.record).length ∧ parse b head l.length head recvData = .more := by
  induction ss generalizing head l recvData
  case nil =>
    cases l
    case nil         =>
      rw [parse, if_neg (by simp)]
      exact .inr ⟨fun he => by simp [he] at hl, le_refl _, rfl⟩
    case cons c l =>
      have ⟨hc, hr⟩ := List.cons.inj hl
      subst hc
      exact .inl ⟨l, [], rfl, hr, rfl, by simpa using parse_end h⟩
  case cons s ss hi =>
    have hs := Buffer.length_le_record (s := s)
    have hh := h.nonneg
    have hx := maxPacketSize_eq
    simp only [List.flatMap_cons, List.length_append, List.append_assoc] at hl hm ⊢
    rcases Framing.whole_or_cut hl with ⟨l, rfl, hr⟩ | ⟨x, hx, hne, hlater⟩
    case inr =>
      have hlen := congrArg List.length hx
      rw [List.length_append] at hlen
      exact .inr ⟨by simp [hlater, hne], by omega, parse_partial h hx hne (by omega)⟩
    case inl =>
      have ⟨view, hv, hp⟩ := parse_record recvData h (by omega) (by omega)
      rw [hp]
      rcases hi (recvData ++ [view]) h.skip hr (by omega) with ⟨l', views, rfl, hl', hvs, hp'⟩ | hp'
      case inr => exact .inr <| hp'.imp_right <| .imp_left fun hlen => by simpa using hlen
      case inl =>
        refine .inl ⟨l', view :: views, rfl, hl', by simp [hv, hvs], ?_⟩
        rw [hp', List.append_assoc]
        congr 1
        omega

theorem exists_digit : ∃ c l, Buffer.record s = c :: l ∧ isDigit c := by
  cases hc : decimal s.length
  case nil       => exact absurd hc decimal_ne_nil
  case cons c cs =>
    refine ⟨c, cs ++ '\n'.toUInt8 :: (s ++ ['\n'.toUInt8]), ?_, isDigit_of_mem_decimal <| hc ▸ List.mem_cons_self⟩
    rw [Buffer.record_eq, hc, List.cons_append]

theorem Packet.exists_digit (p : Packet) : ∃ c l, p.bytes = c :: l ∧ isDigit c := by
  cases hp : p.strings
  case nil       => exact absurd hp p.ne_nil
  case cons s ss =>
    have ⟨c, l, hr, hc⟩ := Link.exists_digit (s := s)
    exact ⟨c, l ++ (ss.flatMap Buffer.record ++ ['\n'.toUInt8]), by simp [bytes, hp, hr], hc⟩

theorem Packet.bytes_ne_nil (p : Packet) : p.bytes ≠ [] := by
  simp [bytes]

-- A packet does not start with an empty line.
theorem leading_eq (h : b.data = c :: l) (hc : isDigit c) : b.leading = 0 := by
  have ⟨hlf, hcr, _⟩ := ne_of_isDigit hc
  simp [Buffer.leading, h, hlf, hcr]

theorem recvReq_eq (h : b.data = c :: l) (hc : isDigit c) : recvReq double heap b =
    match parse b 0 b.data.length 0 [] with
    | .bad                     => (⟨none, [], none⟩, b)
    | .more                    => more heap b none
    | .request recvData parsed => (⟨none, [], some (recvData.map b.view)⟩, b.decr parsed) := by
  have hs := b.size_lt
  have hz : b.size ≠ 0 := by simp [Buffer.size, h]
  have hb : b.byte 0 = c := (Buffer.From.zero h).byte
  have ⟨_, _, hr, _⟩ := ne_of_isDigit hc
  rw [recvReq, if_neg hz, leading_eq h hc, hb, if_neg hr, Int.sub_zero, int_eq (by omega) (by omega)]
  rfl

-- What may be left of packets.
def Packets (ms : List (List Bytes)) (l : Bytes) : Prop :=
  ∃ ps : List Packet, ms = ps.map Packet.strings ∧ l = ps.flatMap Packet.bytes

theorem Packets.nil (h : Packets ms []) : ms = [] := by
  have ⟨ps, hms, hl⟩ := h
  cases ps
  case nil       => exact hms
  case cons p ps => simp [p.bytes_ne_nil] at hl

theorem more_eq (h : b.size < 2 ^ 29) : more heap b ret = (⟨ret, [], some []⟩, (b.reserve heap).1) := by
  rw [more, if_neg <| Buffer.reserve_ne h]

variable (double heap) in
-- What a call does with packets.
theorem recvReq_packets (h : Packets ms (b.data ++ later)) :
    (∃ ms' ss n, ss ≠ [] ∧ ms = ss :: ms' ∧ recvReq double heap b = (⟨none, [], some ss⟩, b.decr n) ∧
      Packets ms' ((b.decr n).data ++ later)) ∨
    (later = [] → ms = []) ∧ ∃ b', b'.data = b.data ∧ recvReq double heap b = (⟨none, [], some []⟩, b') := by
  have ⟨ps, hms, hl⟩ := h
  cases hd : b.data
  case nil =>
    have hz : b.size = 0 := by simp [Buffer.size, hd]
    exact .inr ⟨fun he => Packets.nil <| by simpa [hd, he] using h, b, hd, by rw [recvReq, if_pos hz]⟩
  case cons c l =>
    cases ps
    case nil       => simp [hd] at hl
    case cons p ps =>
      have ⟨c', l', hp, hc'⟩ := p.exists_digit
      have hc : isDigit c := by
        simp only [hd, hp, List.flatMap_cons, List.cons_append, List.cons.injEq] at hl
        exact hl.left ▸ hc'
      have hs := p.size_le
      have hx := maxPacketSize_eq
      rw [List.flatMap_cons, Packet.bytes, List.append_assoc, List.singleton_append] at hl
      rw [recvReq_eq hd hc]
      rcases parse_packet [] (.zero rfl) hl (by omega) with
        ⟨l', views, hd', hl', hv, hr⟩ | ⟨hlater, hlen, hr⟩
      case inl =>
        have hf := (Buffer.From.zero hd').skip.skip (l := ['\n'.toUInt8])
        simp only [hr, List.nil_append, hv]
        have hrest := congrArg (· ++ later) hf.drop |>.trans hl'
        exact .inl ⟨ps.map Packet.strings, p.strings, _, p.ne_nil, hms, rfl, ps, rfl, hrest⟩
      case inr =>
        refine .inr ⟨fun he => absurd he hlater, (b.reserve heap).1, Buffer.data_reserve.trans hd, ?_⟩
        rw [hr]
        exact more_eq (by unfold Buffer.size; omega)

theorem packets_correct : (reader double heap Call.request).Correct Packets (·.req ≠ none) where
  splits ms s later h := by
    rcases recvReq_packets double heap h with ⟨ms', ss, n, hne, hms, hr, hrest⟩ | ⟨hlater, b', hd, hr⟩
    case inl =>
      have hs : ((reader double heap Call.request).read s).2 = some (s.decr n) := by simp [reader, hr]
      refine .found ?_ ?_ hs hms hrest
      all_goals
        simp [reader, hr, Call.request, hne]
    case inr =>
      refine .more ?_ ?_ hlater (fun s' hs => ?_) ?_
      case refine_3 =>
        simp [reader, hr] at hs
        exact hs ▸ hd
      all_goals
        simp [reader, hr, Call.request]
  good ms s later h := by
    rcases recvReq_packets double heap h with ⟨_, ss, _, _, _, hr, _⟩ | ⟨_, _, _, hr⟩
    all_goals
      simp [reader, hr]

-- Packets are received as they have been sent, however they are cut into chunks.
theorem receives_packets {ps : List Packet} (r : (link double heap).Run ts o)
    (appends : ∀ t ∈ ts, LinkTransition.Appends t)
    (sent : ts.flatMap (·.act) = ps.flatMap fun p => (p.send heap').data) :
    (∀ c ∈ events ts, c.req ≠ none) ∧ (events ts).filterMap Call.request = ps.map Packet.strings ∧
      ∃ b, o = some b ∧ b.data = [] := by
  have hs : Packets (ps.map Packet.strings) (ts.flatMap (·.act)) := by
    refine ⟨ps, rfl, sent.trans ?_⟩
    simp only [Packet.data_send]
  have ⟨hg, hm, b, hb, hrest⟩ := received_of_run packets_correct (fun _ => Packets.nil) r appends hs
  refine ⟨hg, hm, b, hb, ?_⟩
  have ⟨ps, hn, hl⟩ := hrest
  rw [hl, List.map_eq_nil_iff.mp hn.symm, List.flatMap_nil]

def twoPackets : List Packet :=
  [⟨[.ofString "sync", []], by simp, by decide⟩, ⟨[.ofString "\n*"], by simp, by decide⟩]

-- They are cut within strings.
def received : List (LinkTransition (fun _ => 0) fun _ => 0) × Option Buffer :=
  Machine.trace _ (link (fun _ => 0) fun _ => 0).init <|
    ["4\nsy", "nc\n0\n\n\n2", "\n\n*\n\n"].map Bytes.ofString

theorem receives_packets_received :
    (events received.1).filterMap Call.request = twoPackets.map Packet.strings :=
  have hs : received.1.flatMap (·.act) = twoPackets.flatMap fun p => (p.send fun _ => 0).data := by decide +kernel
  receives_packets (Machine.path_trace ..) (by decide +kernel) hs |>.right.left

end Link

end Ssdb
