import LabSystems.Ssdb.Link

namespace Ssdb

-- A string lies in the data.
def View.Within (v : View) (b : Buffer) : Prop :=
  0 ≤ v.data ∧ 0 ≤ v.size ∧ v.data + v.size ≤ b.size

namespace Link

variable {b : Buffer} {view : View} {recvData recvData' recv : List View}

-- The string that a pass of the loop adds, whatever is after it.
def pushed (b : Buffer) (head size : Int) : Option View :=
  match b.memchr '\n'.toUInt8 head size with
  | none    => none
  | some lf =>
    let body := lf + 1
    let headLen := body - head
    if headLen = 1 ∨ headLen = 2 ∧ b.byte head = '\r'.toUInt8 then
      none
    else if b.byte head < '0'.toUInt8 ∨ b.byte head > '9'.toUInt8 then
      none
    else if headLen > 19 then
      none
    else
      let bodyLen := int (Bytes.strtol <| b.view ⟨head, headLen - 1⟩).toInt
      if bodyLen < 0 then
        none
      else
        if int (size - int (headLen + bodyLen)) < 0 then none else some ⟨body, bodyLen⟩

-- The strings that the loop adds, in whatever way it ends.
def added (b : Buffer) (head size parsed : Int) : List View :=
  if _h : 0 < size then
    (pushed b head size).toList ++ match _h : pass b head size parsed [] with
      | .last _                        => []
      | .next _ head' size' parsed' => added b head' size' parsed'
  else
    []
termination_by size.toNat
decreasing_by exact (Int.toNat_lt_toNat ‹0 < size›).mpr <| size_lt_of_pass ‹_›

theorem passEol_view (h : passEol b view head size parsed = .next view' head' size' parsed') : view' = view := by
  unfold passEol at h
  dsimp only at h
  split_ifs at h
  all_goals
    cases h
    rfl

theorem pushed_of_pass (h : pass b head size parsed recvData = .next view head' size' parsed') :
    pushed b head size = some view ∧ pass b head size parsed [] = .next view head' size' parsed' := by
  unfold pass pushed at *
  cases hlf : b.memchr '\n'.toUInt8 head size
  case none => simp [hlf] at h
  case some lf =>
    simp only [hlf] at h ⊢
    split_ifs at h ⊢
    exact ⟨congrArg some (passEol_view h).symm, h⟩

theorem pushed_of_request (h : pass b head size parsed recvData = .last (.request recv p)) :
    pushed b head size = none ∧ recv = recvData ∧ ∃ r, pass b head size parsed [] = .last r := by
  unfold pass pushed at *
  cases hlf : b.memchr '\n'.toUInt8 head size
  case none => simp [hlf] at h
  case some lf =>
    simp only [hlf] at h ⊢
    split at h
    case isTrue hl =>
      cases h
      rw [if_pos hl, if_pos hl]
      exact ⟨rfl, rfl, _, rfl⟩
    case isFalse =>
      split_ifs at h
      case neg => exact absurd h passEol_ne_request
      all_goals cases h

theorem added_last (hs : 0 < size) (h : pass b head size parsed [] = .last r) :
    added b head size parsed = (pushed b head size).toList := by
  rw [added, dif_pos hs]
  split
  case h_1       => exact List.append_nil _
  case h_2 he => cases h.symm.trans he

theorem added_next (hs : 0 < size) (h : pass b head size parsed [] = .next view head' size' parsed') :
    added b head size parsed = (pushed b head size).toList ++ added b head' size' parsed' := by
  rw [added, dif_pos hs]
  split
  case h_1 he => cases h.symm.trans he
  case h_2 he =>
    cases h.symm.trans he
    rfl

-- A request has the strings that have been added.
theorem recv_eq_added (h : parse b head size parsed recvData = .request recv p) :
    recv = recvData ++ added b head size parsed := by
  fun_induction parse b head size parsed recvData
  case case1 hs _ hp =>
    subst h
    obtain ⟨hn, he, _, hr⟩ := pushed_of_request hp
    rw [added_last hs hr, hn, he, Option.toList_none, List.append_nil]
  case case2 hs _ _ _ _ hp hi =>
    obtain ⟨hv, hp⟩ := pushed_of_pass hp
    rw [hi h, added_next hs hp, hv, List.append_assoc]
    rfl
  case case3 => cases h

theorem pushed_within (h : pushed b head size = some view) (ha : b.At head size parsed) : view.Within b := by
  unfold pushed at h
  cases hlf : b.memchr '\n'.toUInt8 head size
  case none => simp [hlf] at h
  case some lf =>
    simp only [hlf] at h
    split_ifs at h with _ _ hk h₀ hs
    cases h
    have hl := Buffer.memchr_lt hlf
    have hb := b.size_lt
    have ⟨_, hh, _, hsz⟩ := ha
    have ⟨he, hle⟩ := int_record (by omega) (by omega) (by omega) int_lt (by omega) (by omega) hs
    refine ⟨?_, ?_, ?_⟩
    all_goals
      dsimp only
      omega

theorem added_within (h : view ∈ added b head size parsed) (ha : b.At head size parsed) : view.Within b := by
  fun_induction added b head size parsed
  case case1 hi =>
    rcases List.mem_append.mp h with h | h
    case inl => exact pushed_within (Option.mem_toList.mp h) ha
    case inr =>
      split at h
      case h_1    => cases h
      case h_2 hp => exact hi _ _ _ _ hp h (pass_next hp ha).left
  case case2 => cases h

end Link

namespace RedisLink

variable {b : Buffer} {v : View} {recvBytes recv : List View}

-- The passes of the loop: the place from where a number is read, and the argument that is added.
def passes (b : Buffer) (ptr size parsed numArgs : Int) : List (Int × Option View) :=
  if 0 < size then
    match hlf : b.memchr '\n'.toUInt8 ptr size with
    | none    => []
    | some lf =>
      let body := lf + 1
      let size' := int (size - (body - ptr))
      let parsed' := int (parsed + (body - ptr))
      let len := int (Bytes.strtol <| b.memory.drop (ptr + 1).toNat).toInt
      if len < 0 then
        [(ptr + 1, none)]
      else if numArgs = 0 then
        (ptr + 1, none) :: if len ≤ 0 then [] else passes b body size' parsed' len
      else if len > size' - 1 then
        [(ptr + 1, none)]
      else
        let next := body + int (len + 1)
        let size' := int (size' - int (len + 1))
        let parsed' := int (parsed' + int (len + 1))
        let eol := if 0 < size' ∧ b.byte next = '\n'.toUInt8 then 1 else 0
        (ptr + 1, some ⟨body, len⟩) ::
          if numArgs - 1 = 0 then
            []
          else
            passes b (next + eol) (int (size' - eol)) (int (parsed' + eol)) (numArgs - 1)
  else
    []
termination_by size.toNat
decreasing_by
  all_goals
    have hl := Buffer.memchr_lt hlf
    refine (Int.toNat_lt_toNat ‹0 < size›).mpr ?_
  · exact int_sub_lt (by omega) (by omega)
  · exact size_lt (by omega) (by omega) ‹_› ‹_› (by split <;> simp)

def added (b : Buffer) (ptr size parsed numArgs : Int) : List View :=
  passes b ptr size parsed numArgs |>.filterMap (·.2)

theorem passes_line (hs : 0 < size) (hlf : b.memchr '\n'.toUInt8 ptr size = some lf) :
    passes b ptr size parsed numArgs =
      let body := lf + 1
      let size' := int (size - (body - ptr))
      let parsed' := int (parsed + (body - ptr))
      let len := int (Bytes.strtol <| b.memory.drop (ptr + 1).toNat).toInt
      if len < 0 then
        [(ptr + 1, none)]
      else if numArgs = 0 then
        (ptr + 1, none) :: if len ≤ 0 then [] else passes b body size' parsed' len
      else if len > size' - 1 then
        [(ptr + 1, none)]
      else
        let next := body + int (len + 1)
        let size' := int (size' - int (len + 1))
        let parsed' := int (parsed' + int (len + 1))
        let eol := if 0 < size' ∧ b.byte next = '\n'.toUInt8 then 1 else 0
        (ptr + 1, some ⟨body, len⟩) ::
          if numArgs - 1 = 0 then
            []
          else
            passes b (next + eol) (int (size' - eol)) (int (parsed' + eol)) (numArgs - 1) := by
  rw [passes, if_pos hs]
  split
  case h_1 he => cases hlf.symm.trans he
  case h_2 he =>
    cases hlf.symm.trans he
    rfl

-- A request has the arguments that have been added.
theorem recv_eq_added (h : parse b ptr size parsed numArgs recvBytes = .request recv p) :
    recv = recvBytes ++ added b ptr size parsed numArgs := by
  unfold added
  fun_induction parse b ptr size parsed numArgs recvBytes
  case case1 | case2 | case3 | case5 | case8 => cases h
  case case4 hs _ hlf _ _ _ _ h₀ h₁ hi =>
    rw [hi h, passes_line hs hlf]
    dsimp only
    rw [if_neg h₀, if_pos rfl, if_neg h₁]
    rfl
  case case6 hs _ hlf _ _ _ _ h₀ h₁ hl _ _ _ _ _ hn =>
    rw [passes_line hs hlf]
    dsimp only
    rw [if_neg h₀, if_neg h₁, if_neg hl, if_pos hn]
    exact (Parse.request.inj h).left.symm
  case case7 hs _ hlf _ _ _ _ h₀ h₁ hl _ _ _ _ _ hn hi =>
    rw [hi h, passes_line hs hlf]
    dsimp only
    rw [if_neg h₀, if_neg h₁, if_neg hl, if_neg hn, List.append_assoc]
    rfl

theorem argument_within {b : Buffer} {len : Int} (ha : b.At ptr size parsed) (h₀ : ¬len < 0) (hl : ¬len > size - 1) :
    View.Within ⟨ptr, len⟩ b := by
  have ⟨_, hh, _, hs⟩ := ha
  refine ⟨hh, not_lt.mp h₀, ?_⟩
  dsimp only
  omega

theorem added_within (h : v ∈ added b ptr size parsed numArgs) (ha : b.At ptr size parsed) : v.Within b := by
  unfold added at h
  fun_induction passes b ptr size parsed numArgs
  case case1 | case2 | case4 | case6 => cases h
  case case3 hlf _ _ _ _ _ hi =>
    rw [List.filterMap_cons_none rfl] at h
    split at h
    case isTrue  => cases h
    case isFalse => exact hi h (ha.line hlf).left
  case case5 hlf _ _ _ _ h₀ _ hl _ _ _ _ hi =>
    have hb := (ha.line hlf).left
    simp only [List.filterMap_cons] at h
    rcases List.mem_cons.mp h with rfl | h
    case inl => exact argument_within hb h₀ hl
    case inr =>
      split at h
      case isTrue  => cases h
      case isFalse => exact hi h (at_eol (at_argument hb h₀ hl).left).left

end RedisLink

namespace Link

section

variable {double : Bytes → Int64} {heap : Nat → UInt8} {input : Buffer}

-- There are no more requests than bytes.
theorem length_drain : (drain double heap input).1.length ≤ input.size + 1 := by
  fun_induction drain double heap input
  case case1 => simp
  case case2 => simp
  case case3 input r _ _ h rest hi =>
    have hl : r.2.data.length < input.data.length := length_lt_of_recvReq h
    have hi : rest.1.length ≤ r.2.data.length + 1 := hi
    rw [List.length_cons, Buffer.size]
    omega

end

end Link

-- Whatever has been received, both parsers stay inside it: the strings that they add lie in it, and what
-- they take away is part of it. A request takes something away, so that there is an end to the requests
-- of a chunk.
theorem parsers_inside (double : Bytes → Int64) (heap : Nat → UInt8) (b : Buffer) :
    (∀ v ∈ Link.added b b.leading (int (b.size - b.leading)) b.leading, v.Within b) ∧
    (∀ v ∈ RedisLink.added b b.leading (int (b.size - b.leading)) b.leading 0, v.Within b) ∧
    (∀ recv p, Link.parse b b.leading (int (b.size - b.leading)) b.leading [] = .request recv p →
      recv = Link.added b b.leading (int (b.size - b.leading)) b.leading ∧ 0 < p ∧ p ≤ b.size) ∧
    (∀ recv p, RedisLink.parseReq b = .request recv p →
      recv = RedisLink.added b b.leading (int (b.size - b.leading)) b.leading 0 ∧ 0 < p ∧ p ≤ b.size) ∧
    (∀ arg args, (Link.recvReq double heap b).1.req = some (arg :: args) →
      (Link.recvReq double heap b).2.size < b.size) ∧
    ∀ chunk, (Link.onRead double heap b chunk).1.length ≤ (b.append heap chunk).1.size + 1 := by
  refine ⟨fun v hv => Link.added_within hv b.at_leading, fun v hv => RedisLink.added_within hv b.at_leading,
    fun recv p h => ?_, fun recv p h => ?_, fun _ _ => Link.length_lt_of_recvReq, fun chunk => ?_⟩
  case refine_1 =>
    have hp := Link.parse_request h b.at_leading
    exact ⟨Link.recv_eq_added h, hp.imp_left b.at_leading.head_nonneg.trans_lt⟩
  case refine_2 =>
    have hp := RedisLink.parseReq_request h
    unfold RedisLink.parseReq at h
    dsimp only at h
    split at h
    case isTrue  => cases h
    case isFalse => exact ⟨RedisLink.recv_eq_added h, hp⟩
  case refine_3 =>
    unfold Link.onRead
    split
    case isTrue  => simp
    case isFalse => exact Link.length_drain

end Ssdb
