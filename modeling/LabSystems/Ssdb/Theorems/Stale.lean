import LabSystems.Bytes.Extent
import LabSystems.Ssdb.Theorems.Bounds
import LabSystems.Ssdb.Theorems.Requests

namespace Ssdb

namespace Buffer

variable {b b' : Buffer} {v : View} {i : Int}

-- What is in the data does not depend on what is after it.
theorem view_eq (hd : b'.data = b.data) (hv : v.data.toNat + v.size.toNat ≤ b.data.length) : b'.view v = b.view v := by
  have view {b : Buffer} (hv : v.data.toNat + v.size.toNat ≤ b.data.length) :
      b.view v = (b.data.drop v.data.toNat).take v.size.toNat := by
    rw [Buffer.view, memory, List.drop_append_of_le_length (by omega),
      List.take_append_of_le_length (by rw [List.length_drop]; omega)]
  rw [view hv, view (hd ▸ hv), hd]

theorem byte_eq (hd : b'.data = b.data) (hi : i.toNat < b.data.length) : b'.byte i = b.byte i := by
  have byte {b : Buffer} (hi : i.toNat < b.data.length) : b.byte i = b.data.getD i.toNat 0 := by
    rw [Buffer.byte, memory, List.getD_append _ _ _ _ hi]
  rw [byte hi, byte (hd ▸ hi), hd]

theorem memchr_eq (hd : b'.data = b.data) (ha : b.At head rest parsed) : b'.memchr c head rest = b.memchr c head rest := by
  have ⟨_, hh, hr, hs⟩ := ha
  unfold memchr
  rw [view_eq hd]
  unfold Buffer.size at hs
  dsimp only
  omega

-- The number that is at a place ends before the data does.
def Ends (b : Buffer) (i : Int) : Prop :=
  Bytes.afterInt (b.data.drop i.toNat) ≠ []

theorem strtol_eq (hd : b'.data = b.data) (hi : i.toNat ≤ b.data.length) (h : b.Ends i) :
    Bytes.strtol (b'.memory.drop i.toNat) = Bytes.strtol (b.memory.drop i.toNat) := by
  have strtol {b : Buffer} (hi : i.toNat ≤ b.data.length) (h : b.Ends i) :
      Bytes.strtol (b.memory.drop i.toNat) = Bytes.strtol (b.data.drop i.toNat) := by
    rw [memory, List.drop_append_of_le_length hi, Bytes.strtol_append h]
  rw [strtol hi h, strtol (hd ▸ hi) (by rwa [Ends, hd]), hd]

end Buffer

namespace Link

variable {b b' : Buffer} {view : View} {recvData : List View}

theorem passEol_eq (hd : b'.data = b.data) (ha : b.At head size parsed) :
    passEol b' view head size parsed = passEol b view head size parsed := by
  have ⟨_, hh, _, hs⟩ := ha
  unfold Buffer.size at hs
  have h₁ {c} : size ≥ 1 ∧ b'.byte head = c ↔ size ≥ 1 ∧ b.byte head = c :=
    and_congr_right fun _ => by rw [Buffer.byte_eq hd (by omega)]
  have h₂ {c c'} : size ≥ 2 ∧ b'.byte head = c ∧ b'.byte (head + 1) = c' ↔
      size ≥ 2 ∧ b.byte head = c ∧ b.byte (head + 1) = c' :=
    and_congr_right fun _ => by rw [Buffer.byte_eq hd (by omega), Buffer.byte_eq hd (by omega)]
  simp only [passEol, h₁, h₂]

theorem pass_eq (hd : b'.data = b.data) (ha : b.At head size parsed) :
    pass b' head size parsed recvData = pass b head size parsed recvData := by
  unfold pass
  rw [Buffer.memchr_eq hd ha]
  cases hlf : b.memchr '\n'.toUInt8 head size
  case none => rfl
  case some lf =>
    have hl := Buffer.memchr_lt hlf
    have hs := ha.size_eq
    have hh := ha.head_nonneg
    unfold Buffer.size at hs
    dsimp only
    rw [Buffer.byte_eq hd (by omega), Buffer.view_eq hd (by dsimp only; omega)]
    split_ifs with _ _ hk h₀ hn
    case neg => exact passEol_eq hd (at_record ha hlf hk h₀ hn).left
    all_goals rfl

theorem parse_eq (hd : b'.data = b.data) (ha : b.At head size parsed) :
    parse b' head size parsed recvData = parse b head size parsed recvData := by
  fun_induction parse b head size parsed recvData
  case case1 hs _ hp          => exact parse_last ((pass_eq hd ha).trans hp) hs
  case case2 hs _ _ _ _ hp hi => exact (parse_next ((pass_eq hd ha).trans hp) hs).trans <| hi (pass_next hp ha).left
  case case3 hs               => rw [parse, if_neg hs]

end Link

namespace RedisLink

variable {b b' : Buffer} {recvBytes : List View}

theorem parse_line (hs : 0 < size) (hlf : b.memchr '\n'.toUInt8 ptr size = some lf) :
    parse b ptr size parsed numArgs recvBytes =
      let body := lf + 1
      let size' := int (size - (body - ptr))
      let parsed' := int (parsed + (body - ptr))
      let len := int (Bytes.strtol <| b.memory.drop (ptr + 1).toNat).toInt
      if len < 0 then
        .bad
      else if numArgs = 0 then
        if len ≤ 0 then .bad else parse b body size' parsed' len recvBytes
      else if len > size' - 1 then
        .more
      else
        let recvBytes := recvBytes ++ [⟨body, len⟩]
        let next := body + int (len + 1)
        let size' := int (size' - int (len + 1))
        let parsed' := int (parsed' + int (len + 1))
        let eol := if 0 < size' ∧ b.byte next = '\n'.toUInt8 then 1 else 0
        if numArgs - 1 = 0 then
          .request recvBytes (int (parsed' + eol))
        else
          parse b (next + eol) (int (size' - eol)) (int (parsed' + eol)) (numArgs - 1) recvBytes := by
  rw [parse, if_pos hs]
  split
  case h_1 he => cases hlf.symm.trans he
  case h_2 he =>
    cases hlf.symm.trans he
    rfl

theorem strtol_line (hd : b'.data = b.data) (ha : b.At ptr size parsed) (hlf : b.memchr '\n'.toUInt8 ptr size = some lf)
    (he : b.Ends (ptr + 1)) :
    Bytes.strtol (b'.memory.drop (ptr + 1).toNat) = Bytes.strtol (b.memory.drop (ptr + 1).toNat) := by
  have hl := Buffer.memchr_lt hlf
  have ⟨_, hh, _, hs⟩ := ha
  unfold Buffer.size at hs
  exact Buffer.strtol_eq hd (by omega) he

theorem eol_eq (hd : b'.data = b.data) (ha : b.At next size parsed) : eol b' next size = eol b next size := by
  have ⟨_, hh, _, hs⟩ := ha
  unfold Buffer.size at hs
  have he : 0 < size ∧ b'.byte next = '\n'.toUInt8 ↔ 0 < size ∧ b.byte next = '\n'.toUInt8 :=
    and_congr_right fun _ => by rw [Buffer.byte_eq hd (by omega)]
  simp only [eol, he]

theorem ends_first (hs : 0 < size) (hlf : b.memchr '\n'.toUInt8 ptr size = some lf)
    (ends : ∀ x ∈ passes b ptr size parsed numArgs, b.Ends x.1) : b.Ends (ptr + 1) := by
  rw [passes_line hs hlf] at ends
  dsimp only at ends
  split_ifs at ends
  all_goals exact ends _ List.mem_cons_self

-- If every number that the loop reads ends in the data, then the loop does not depend on what is after it.
theorem parse_eq (hd : b'.data = b.data) (ha : b.At ptr size parsed)
    (ends : ∀ x ∈ passes b ptr size parsed numArgs, b.Ends x.1) :
    parse b' ptr size parsed numArgs recvBytes = parse b ptr size parsed numArgs recvBytes := by
  fun_induction parse b ptr size parsed numArgs recvBytes
  case case1 hlf => exact parse_of_memchr <| (Buffer.memchr_eq hd ha).trans hlf
  case case2 hs _ hlf _ h₀ =>
    rw [parse_line hs <| (Buffer.memchr_eq hd ha).trans hlf, strtol_line hd ha hlf <| ends_first hs hlf ends]
    exact if_pos h₀
  case case3 hs _ hlf _ h₀ h₁ =>
    rw [parse_line hs <| (Buffer.memchr_eq hd ha).trans hlf, strtol_line hd ha hlf <| ends_first hs hlf ends]
    dsimp only
    rw [if_neg h₀, if_pos rfl, if_pos h₁]
  case case4 hs _ hlf _ _ _ _ h₀ h₁ hi =>
    rw [parse_line hs <| (Buffer.memchr_eq hd ha).trans hlf, strtol_line hd ha hlf <| ends_first hs hlf ends]
    rw [passes_line hs hlf] at ends
    dsimp only at ends ⊢
    rw [if_neg h₀, if_pos rfl, if_neg h₁] at ends ⊢
    exact hi (ha.line hlf).left fun x hx => ends x <| List.mem_cons_of_mem _ hx
  case case5 hs _ hlf _ _ _ h₀ h₁ hl =>
    rw [parse_line hs <| (Buffer.memchr_eq hd ha).trans hlf, strtol_line hd ha hlf <| ends_first hs hlf ends]
    dsimp only
    rw [if_neg h₀, if_neg h₁, if_pos hl]
  case case6 hs _ hlf _ _ _ _ h₀ h₁ hl _ _ _ _ _ hn =>
    have hb := (at_argument (ha.line hlf).left h₀ hl).left
    rw [parse_line hs <| (Buffer.memchr_eq hd ha).trans hlf, strtol_line hd ha hlf <| ends_first hs hlf ends]
    dsimp only
    rw [if_neg h₀, if_neg h₁, if_neg hl, if_pos hn]
    exact congrArg (fun e => Parse.request _ (int (_ + e))) <| eol_eq hd hb
  case case7 hs _ hlf _ _ _ _ h₀ h₁ hl _ _ _ _ _ hn hi =>
    have hb := (at_argument (ha.line hlf).left h₀ hl).left
    rw [parse_line hs <| (Buffer.memchr_eq hd ha).trans hlf, strtol_line hd ha hlf <| ends_first hs hlf ends]
    rw [passes_line hs hlf] at ends
    dsimp only at ends ⊢
    rw [if_neg h₀, if_neg h₁, if_neg hl, if_neg hn] at ends ⊢
    refine (congrArg (fun e => parse b' (_ + e) (int (_ - e)) (int (_ + e)) _ _) <| eol_eq hd hb).trans ?_
    exact hi (at_eol hb).left fun x hx => ends x <| List.mem_cons_of_mem _ hx
  case case8 hs => rw [parse, if_neg hs]

end RedisLink

namespace Link

variable {double : Bytes → Int64} {heap : Nat → UInt8} {b b' : Buffer}

-- What a call finds, and what it leaves.
def outcome (r : Call × Buffer) : Option (List Bytes) × List Bytes × Bytes :=
  (r.1.req, r.1.recvBytes, r.2.data)

-- Every number that is read in a request of Redis ends in what has been received.
def NumbersEnd (b : Buffer) : Prop :=
  b.byte b.leading = '*'.toUInt8 →
    ∀ x ∈ RedisLink.passes b b.leading (int (b.size - b.leading)) b.leading 0, b.Ends x.1

theorem leading_congr (hd : b'.data = b.data) : b'.leading = b.leading := by
  rw [Buffer.leading, hd, Buffer.leading]

theorem size_eq (hd : b'.data = b.data) : b'.size = b.size :=
  congrArg List.length hd

theorem data_decr (hd : b'.data = b.data) : (b'.decr n).data = (b.decr n).data := by
  simp only [Buffer.decr, hd]

theorem views_eq {views : List View} (hd : b'.data = b.data) (hw : ∀ v ∈ views, v.Within b) :
    views.map b'.view = views.map b.view := by
  refine List.map_congr_left fun v hv => Buffer.view_eq hd ?_
  have ⟨h₀, h₁, hle⟩ := hw v hv
  unfold Buffer.size at hle
  omega

theorem outcome_more (hd : b'.data = b.data) (room : (b.reserve heap).2 = -1 ↔ (b'.reserve heap).2 = -1) :
    outcome (more heap b' ret') = outcome (more heap b ret) := by
  simp only [outcome, more, Buffer.data_reserve, hd, room]

-- There is nothing but empty lines.
theorem outcome_blank (hd : b'.data = b.data) (room : (b.reserve heap).2 = -1 ↔ (b'.reserve heap).2 = -1)
    (hn : b.data ≠ []) (hl : b.size = b.leading) :
    outcome (recvReq double heap b') = outcome (recvReq double heap b) := by
  have hl' : b'.size = b'.leading := by rwa [size_eq hd, leading_congr hd]
  have ⟨_, _, hr⟩ : ∃ ret, _ ∧ recvReq double heap b = more heap b ret := recvReq_lead hn hl
  have ⟨_, _, hr'⟩ : ∃ ret, _ ∧ recvReq double heap b' = more heap b' ret := recvReq_lead (hd ▸ hn) hl'
  rw [hr, hr', outcome_more hd room]

theorem outcome_star (hd : b'.data = b.data) (room : (b.reserve heap).2 = -1 ↔ (b'.reserve heap).2 = -1)
    (ends : NumbersEnd b) (hn : b.data ≠ []) (hb : b.byte b.leading = '*'.toUInt8) (hb' : b'.byte b.leading = '*'.toUInt8) :
    outcome (recvReq double heap b') = outcome (recvReq double heap b) := by
  rw [recvReq_star hn hb, recvReq_star (hd ▸ hn) (leading_congr hd ▸ hb'), leading_congr hd, size_eq hd,
    RedisLink.parse_eq hd b.at_leading (ends hb)]
  cases hp : RedisLink.parse b b.leading (int (b.size - b.leading)) b.leading 0 []
  case bad  => simp only [outcome, hd]
  case more => exact outcome_more hd room
  case request recv parsed =>
    have hr : recv = RedisLink.added b b.leading (int (b.size - b.leading)) b.leading 0 := RedisLink.recv_eq_added hp
    have hv := views_eq hd fun v (hv : v ∈ recv) => RedisLink.added_within (hr ▸ hv) b.at_leading
    simp only [outcome, hv, data_decr hd]

theorem outcome_packet (hd : b'.data = b.data) (room : (b.reserve heap).2 = -1 ↔ (b'.reserve heap).2 = -1)
    (hs : b.size ≠ 0) (hb : b.byte b.leading ≠ '*'.toUInt8) (hb' : b'.byte b.leading ≠ '*'.toUInt8) :
    outcome (recvReq double heap b') = outcome (recvReq double heap b) := by
  rw [recvReq, recvReq, if_neg hs, if_neg (size_eq hd ▸ hs), leading_congr hd, if_neg hb, if_neg hb', size_eq hd,
    parse_eq hd b.at_leading]
  cases hp : parse b b.leading (int (b.size - b.leading)) b.leading []
  case bad  => simp only [outcome, hd]
  case more => exact outcome_more hd room
  case request recv parsed =>
    have hr : recv = added b b.leading (int (b.size - b.leading)) b.leading := recv_eq_added hp
    have hv := views_eq hd fun v (hv : v ∈ recv) => added_within (hr ▸ hv) b.at_leading
    simp only [outcome, hv, data_decr hd]

-- If every number ends in what has been received, then what is after it has no influence.
theorem outcome_eq (hd : b'.data = b.data) (room : (b.reserve heap).2 = -1 ↔ (b'.reserve heap).2 = -1)
    (ends : NumbersEnd b) : outcome (recvReq double heap b') = outcome (recvReq double heap b) := by
  by_cases hs : b.size = 0
  case pos =>
    rw [recvReq, recvReq, if_pos hs, if_pos (size_eq hd ▸ hs)]
    simp only [outcome, hd]
  case neg =>
    have hn : b.data ≠ [] := by simpa [Buffer.size] using hs
    by_cases hl : b.size = b.leading
    case pos => exact outcome_blank hd room hn hl
    case neg =>
      have hb : b'.byte b.leading = b.byte b.leading := by
        obtain ⟨_, _, hr, hz⟩ := b.at_leading
        refine Buffer.byte_eq hd ?_
        unfold Buffer.size at *
        omega
      by_cases hb' : b.byte b.leading = '*'.toUInt8
      case pos => exact outcome_star hd room ends hn hb' (hb.trans hb')
      case neg => exact outcome_packet hd room hs hb' (hb ▸ hb')

end Link

end Ssdb
