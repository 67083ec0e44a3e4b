import LabSystems.Ssdb.Theorems.Stale

namespace Ssdb

open Bytes (afterInt afterSign isDigit isSpace decimal)

-- Numbers of this size can become any integer when ten digits are put after them.
def Small (bs : Bytes) : Prop :=
  (Bytes.toInt bs).natAbs < 922337203

variable {bs s : Bytes} {t : Int}

theorem toInt_strtol {n : Int} (h : Bytes.toInt bs = n) (h₀ : -2 ^ 63 ≤ n) (h₁ : n < 2 ^ 63) :
    (Bytes.strtol bs).toInt = n := by
  rw [Bytes.strtol, h, Int64.toInt_ofInt_of_le]
  all_goals omega

theorem exists_residue (d : Nat) {k : Int} (hk : k = 1 ∨ k = -1) (h₀ : -2 ^ 31 ≤ t) (h₁ : t < 2 ^ 31) :
    ∃ x : Nat, 10 ^ 9 ≤ x ∧ x < 10 ^ 10 ∧ int (k * (d * 10 ^ 10 + x : Nat)) = t := by
  refine ⟨10 ^ 9 + ((k * t - d * 10 ^ 10 - 10 ^ 9) % 2 ^ 32).toNat, by omega, by omega, ?_⟩
  unfold int
  rcases hk with rfl | rfl
  all_goals omega

theorem exists_digits (h : afterInt bs = []) (hs : Small bs) (h₀ : -2 ^ 31 ≤ t) (h₁ : t < 2 ^ 31) :
    ∃ s, s.length = 10 ∧ (∀ b ∈ s, isDigit b) ∧ int (Bytes.strtol (bs ++ s)).toInt = t := by
  have hk := Bytes.sign_cases bs
  have ⟨x, hx₀, hx₁, hx⟩ := exists_residue (Bytes.toInt bs).natAbs hk h₀ h₁
  have hd : ∀ b ∈ decimal x, isDigit b := fun _ => Bytes.isDigit_of_mem_decimal
  have hl : (decimal x).length = 10 := by
    have hle := (Bytes.length_decimal_le (n := x) (k := 10) (by decide)).mpr hx₁
    have hlt := mt (Bytes.length_decimal_le (n := x) (k := 9) (by decide)).mp (by omega)
    omega
  have hi := Bytes.toInt_append_digits h hd
  rw [hl, Bytes.ofDigits_decimal] at hi
  refine ⟨decimal x, hl, hd, ?_⟩
  unfold Small at hs
  rw [toInt_strtol hi, hx]
  all_goals
    rcases hk with hk | hk
    all_goals
      rw [hk]
      omega

-- There is nothing but white space up to an end of line.
theorem isSpace_of_lf {j : Nat} (h : afterInt bs = []) (hj : bs[j]? = some '\n'.toUInt8) :
    ∀ b ∈ bs.take (j + 1), isSpace b := by
  have hd : ∀ b ∈ (afterSign bs).2, isDigit b := List.dropWhile_eq_nil_iff.mp h
  have hn : '\n'.toUInt8 ∉ bs.dropWhile isSpace := by
    intro hm
    unfold afterSign at hd
    split at hd
    case h_1 he =>
      rw [he] at hm
      rcases List.mem_cons.mp hm with hm | hm
      case inl => cases hm
      case inr => exact absurd (hd _ hm) (by decide)
    case h_2 he =>
      rw [he] at hm
      rcases List.mem_cons.mp hm with hm | hm
      case inl => cases hm
      case inr => exact absurd (hd _ hm) (by decide)
    case h_3 => exact absurd (hd _ hm) (by decide)
  have hl : j < (bs.takeWhile isSpace).length := by
    by_contra hl
    rw [← List.takeWhile_append_dropWhile (p := isSpace) (l := bs), List.getElem?_append_right (not_lt.mp hl)] at hj
    exact hn <| List.mem_of_getElem? hj
  intro b hb
  rw [← List.takeWhile_append_dropWhile (p := isSpace) (l := bs), List.take_append_of_le_length hl] at hb
  exact List.mem_takeWhile_imp <| List.mem_of_mem_take hb

namespace Buffer

variable {b c : Buffer}

theorem memchr_data (ha : b.At head rest parsed) (h : b.memchr d head rest = some lf) :
    b.data[lf.toNat]? = some d := by
  have hl := memchr_lt h
  have ⟨i, hi, he⟩ := Option.map_eq_some_iff.mp h
  have ⟨_, hh, _, hs⟩ := ha
  have ⟨hlt, hc, _⟩ := List.findIdx?_eq_some_iff_getElem.mp hi
  unfold Buffer.size at hs
  have hb : b.view ⟨head, rest⟩ = b.data.drop head.toNat := by
    have hle : head.toNat ≤ b.data.length := by omega
    have ht : rest.toNat = (b.data.drop head.toNat).length := by
      rw [List.length_drop]
      omega
    rw [view, memory, List.drop_append_of_le_length hle]
    dsimp only
    rw [ht, List.take_left]
  have hn : lf.toNat = head.toNat + i := by omega
  rw [hn, ← List.getElem?_drop, ← hb, List.getElem?_eq_getElem hlt]
  exact congrArg some <| by simpa using hc

theorem memory_drop (hd : c.data = b.data) (hi : i ≤ b.data.length) : c.memory.drop i = b.data.drop i ++ c.after := by
  rw [memory, List.drop_append_of_le_length (hd ▸ hi), hd]

end Buffer

namespace RedisLink

variable {b c : Buffer} {recvBytes : List View}

-- If a number goes on after the data, and there is another line before its first digit, then that line
-- has the same number.
theorem strtol_of_open {i : Nat} (hd : c.data = b.data) (hi : i ≤ ptr.toNat) (ha : b.At ptr size parsed)
    (ho : afterInt (b.data.drop i) = []) (hlf : b.memchr '\n'.toUInt8 ptr size = some lf) :
    Bytes.toInt (c.memory.drop (ptr + 1).toNat) = Bytes.toInt (b.data.drop i ++ c.after) := by
  have hl := Buffer.memchr_lt hlf
  have ⟨_, hh, _, hs⟩ := ha
  unfold Buffer.size at hs
  have hj : (b.data.drop i)[lf.toNat - i]? = some '\n'.toUInt8 := by
    rw [List.getElem?_drop, Nat.add_sub_cancel' (by omega)]
    exact Buffer.memchr_data ha hlf
  have hsp : ∀ d ∈ (b.data.drop i).take ((ptr + 1).toNat - i), isSpace d := fun d hm =>
    isSpace_of_lf ho hj d <| (List.take_sublist_take_left (by omega)).subset hm
  have hsplit : b.data.drop i = (b.data.drop i).take ((ptr + 1).toNat - i) ++ b.data.drop (ptr + 1).toNat := by
    have ht := List.take_append_drop ((ptr + 1).toNat - i) (b.data.drop i)
    rwa [List.drop_drop, Nat.add_sub_cancel' (by omega), eq_comm] at ht
  rw [Buffer.memory_drop hd (by omega), hsplit, List.append_assoc, Bytes.toInt_eq, Bytes.toInt_eq,
    Bytes.afterSign_space hsp]

theorem parse_second {i : Nat} (hd : c.data = b.data) (hi : i ≤ ptr.toNat) (ha : b.At ptr size parsed)
    (ho : afterInt (b.data.drop i) = []) (hn : int (Bytes.strtol (b.data.drop i ++ c.after)).toInt = 2 ^ 31 - 1)
    (hz : numArgs ≠ 0) : parse c ptr size parsed numArgs recvBytes = .more := by
  by_cases hs : 0 < size
  case neg => rw [parse, if_neg hs]
  case pos =>
    have hm := Buffer.memchr_eq hd ha (c := '\n'.toUInt8)
    cases hlf : b.memchr '\n'.toUInt8 ptr size
    case none    => exact parse_of_memchr <| hm.trans hlf
    case some lf =>
      have ht : Bytes.strtol (c.memory.drop (ptr + 1).toNat) = Bytes.strtol (b.data.drop i ++ c.after) := by
        rw [Bytes.strtol, strtol_of_open hd hi ha ho hlf, Bytes.strtol]
      have hl := @int_lt (size - (lf + 1 - ptr))
      rw [parse_line hs <| hm.trans hlf, ht]
      dsimp only
      rw [hn, if_neg (by decide), if_neg hz, if_pos (by omega)]

theorem parse_first (hs : 0 < size) (ha : b.At ptr size parsed) (hlf : b.memchr '\n'.toUInt8 ptr size = some lf)
    (ho : ¬b.Ends (ptr + 1)) (hd : c.data = b.data) :
    (int (Bytes.strtol (b.data.drop (ptr + 1).toNat ++ c.after)).toInt = -1 →
      parse c ptr size parsed numArgs recvBytes = .bad) ∧
    (int (Bytes.strtol (b.data.drop (ptr + 1).toNat ++ c.after)).toInt = 2 ^ 31 - 1 →
      parse c ptr size parsed numArgs recvBytes = .more) := by
  have hl := Buffer.memchr_lt hlf
  have ⟨_, hh, _, hsz⟩ := ha
  unfold Buffer.size at hsz
  have hm : c.memory.drop (ptr + 1).toNat = b.data.drop (ptr + 1).toNat ++ c.after :=
    Buffer.memory_drop hd (by omega)
  have hlt := @int_lt (size - (lf + 1 - ptr))
  rw [parse_line hs <| (Buffer.memchr_eq hd ha).trans hlf, hm]
  dsimp only
  constructor
  case left =>
    intro hn
    rw [hn, if_pos (by decide)]
  case right =>
    intro hn
    rw [hn, if_neg (by decide)]
    split
    case isTrue =>
      rw [if_neg (by decide)]
      exact parse_second hd (by omega) (ha.line hlf).left (not_not.mp ho) hn (by decide)
    case isFalse => rw [if_pos (by omega)]

-- A number that goes on after the data decides what the loop does: an error if it is negative, and a
-- request that is not there yet if it is as great as possible.
theorem parse_open (ha : b.At ptr size parsed) (ho : ¬∀ x ∈ passes b ptr size parsed numArgs, b.Ends x.1) :
    ∃ x ∈ passes b ptr size parsed numArgs, ¬b.Ends x.1 ∧ ∀ c : Buffer, c.data = b.data → ∀ recvBytes,
      (int (Bytes.strtol (b.data.drop x.1.toNat ++ c.after)).toInt = -1 →
        parse c ptr size parsed numArgs recvBytes = .bad) ∧
      (int (Bytes.strtol (b.data.drop x.1.toNat ++ c.after)).toInt = 2 ^ 31 - 1 →
        parse c ptr size parsed numArgs recvBytes = .more) := by
  fun_induction passes b ptr size parsed numArgs
  case case1 | case6 => exact ho (List.forall_mem_nil _) |>.elim
  case case2 hs _ hlf _ _ =>
    have he : ¬b.Ends _ := fun he => ho <| List.forall_mem_singleton.mpr he
    exact ⟨_, List.mem_cons_self, he, fun c hd _ => parse_first hs ha hlf he hd⟩
  case case4 hs _ hlf _ _ _ _ _ _ =>
    have he : ¬b.Ends _ := fun he => ho <| List.forall_mem_singleton.mpr he
    exact ⟨_, List.mem_cons_self, he, fun c hd _ => parse_first hs ha hlf he hd⟩
  case case3 ptr size parsed hs lf hlf body size' parsed' len h₀ hi =>
    by_cases he : b.Ends (ptr + 1)
    case neg => exact ⟨_, List.mem_cons_self, he, fun c hd _ => parse_first hs ha hlf he hd⟩
    case pos =>
      have ho := fun h => ho <| List.forall_mem_cons.mpr ⟨he, h⟩
      split at ho
      case isTrue     => exact ho (List.forall_mem_nil _) |>.elim
      case isFalse h₁ =>
        obtain ⟨x, hx, hxe, hxp⟩ := hi (ha.line hlf).left ho
        rw [if_neg h₁]
        refine ⟨x, List.mem_cons_of_mem _ hx, hxe, fun c hd recvBytes => ?_⟩
        rw [parse_line hs <| (Buffer.memchr_eq hd ha).trans hlf, strtol_line hd ha hlf he]
        dsimp only
        rw [if_neg h₀, if_pos rfl, if_neg h₁]
        exact hxp c hd recvBytes
  case case5 ptr size parsed numArgs hs lf hlf body size' parsed' len h₀ h₁ hl next size'' parsed'' eol hi =>
    by_cases he : b.Ends (ptr + 1)
    case neg => exact ⟨_, List.mem_cons_self, he, fun c hd _ => parse_first hs ha hlf he hd⟩
    case pos =>
      have hb := (at_argument (ha.line hlf).left h₀ hl).left
      have ho := fun h => ho <| List.forall_mem_cons.mpr ⟨he, h⟩
      split at ho
      case isTrue     => exact ho (List.forall_mem_nil _) |>.elim
      case isFalse hn =>
        obtain ⟨x, hx, hxe, hxp⟩ := hi (at_eol hb).left ho
        rw [if_neg hn]
        refine ⟨x, List.mem_cons_of_mem _ hx, hxe, fun c hd recvBytes => ?_⟩
        rw [parse_line hs <| (Buffer.memchr_eq hd ha).trans hlf, strtol_line hd ha hlf he]
        dsimp only
        rw [if_neg h₀, if_neg h₁, if_neg hl, if_neg hn]
        have hc : parse c (next + RedisLink.eol c next size'') (int (size'' - RedisLink.eol c next size''))
            (int (parsed'' + RedisLink.eol c next size'')) (numArgs - 1) (recvBytes ++ [⟨body, len⟩]) =
            parse c (next + eol) (int (size'' - eol)) (int (parsed'' + eol)) (numArgs - 1) (recvBytes ++ [⟨body, len⟩]) :=
          congrArg (fun e => parse c (next + e) (int (size'' - e)) (int (parsed'' + e)) _ _) <| eol_eq hd hb
        have hx := hxp c hd (recvBytes ++ [⟨body, len⟩])
        exact ⟨fun hn => hc.trans <| hx.left hn, fun hn => hc.trans <| hx.right hn⟩

end RedisLink

namespace Link

variable {double : Bytes → Int64} {heap : Nat → UInt8} {b : Buffer} {s : Bytes}

-- The data of a buffer, with other bytes after it.
def followed (b : Buffer) (s : Bytes) (h : b.size + s.length < 2 ^ 31) : Buffer :=
  ⟨[], b.data, s, by simpa [Buffer.size] using h⟩

theorem recvReq_followed (h : b.size + s.length < 2 ^ 31) (hb : b.byte b.leading = '*'.toUInt8)
    (hp : RedisLink.passes b b.leading (int (b.size - b.leading)) b.leading 0 ≠ []) :
    recvReq double heap (followed b s h) =
      match RedisLink.parse (followed b s h) b.leading (int (b.size - b.leading)) b.leading 0 [] with
      | .bad                      => (⟨some (-1), [], none⟩, followed b s h)
      | .more                     => more heap (followed b s h) (some 0)
      | .request recvBytes parsed =>
        let recvBytes := recvBytes.map (followed b s h).view
        (⟨some 1, recvBytes, some (RedisLink.convertReq double recvBytes).recvString⟩, (followed b s h).decr parsed) := by
  have hd : (followed b s h).data = b.data := rfl
  have hs : 0 < int (b.size - b.leading) := by
    by_contra hs
    rw [RedisLink.passes, if_neg hs] at hp
    exact hp rfl
  obtain ⟨_, hh, _, hz⟩ := b.at_leading
  have hl : b.leading.toNat < b.data.length := by
    unfold Buffer.size at *
    omega
  have hn : (followed b s h).data ≠ [] := by
    rintro he
    rw [hd] at he
    simp [he] at hl
  have hb' : (followed b s h).byte (followed b s h).leading = '*'.toUInt8 := by
    rw [leading_congr hd, Buffer.byte_eq hd hl, hb]
  have hr : recvReq double heap (followed b s h) = _ := recvReq_star hn hb'
  rwa [leading_congr hd, size_eq hd] at hr

theorem more_followed (h : b.size + s.length < 2 ^ 31) (hs : s ≠ []) :
    more heap (followed b s h) ret = (⟨ret, [], some []⟩, followed b s h) := by
  have hn : (followed b s h).space ≠ 0 := by simpa [Buffer.space, followed] using hs
  simp only [more, Buffer.reserve, if_neg hn]
  rfl

-- What is after the data has no influence if every number ends in the data. Otherwise it may be decided by
-- it whether there is an error, if the number is so small that the digits after it matter.
theorem stale_bytes (double : Bytes → Int64) (heap : Nat → UInt8) (b : Buffer) :
    (NumbersEnd b → ∀ b' : Buffer, b'.data = b.data → ((b.reserve heap).2 = -1 ↔ (b'.reserve heap).2 = -1) →
      outcome (recvReq double heap b') = outcome (recvReq double heap b)) ∧
    (¬NumbersEnd b → b.size + 10 < 2 ^ 31 →
      (∀ x ∈ RedisLink.passes b b.leading (int (b.size - b.leading)) b.leading 0, ¬b.Ends x.1 →
        Small (b.data.drop x.1.toNat)) →
      ∃ c c' : Buffer, c.data = b.data ∧ c'.data = b.data ∧ c.total = c'.total ∧
        outcome (recvReq double heap c) = (none, [], b.data) ∧
        outcome (recvReq double heap c') = (some [], [], b.data)) := by
  refine ⟨fun ends b' hd room => outcome_eq hd room ends, fun hn hl small => ?_⟩
  have ⟨hb, ho⟩ := Classical.not_imp.mp hn
  have ⟨x, hx, he, hp⟩ := RedisLink.parse_open b.at_leading ho
  have hne := List.ne_nil_of_mem hx
  have ⟨s, hs, _, hv⟩ := exists_digits (t := -1) (not_not.mp he) (small x hx he) (by decide) (by decide)
  have ⟨s', hs', _, hv'⟩ := exists_digits (t := 2 ^ 31 - 1) (not_not.mp he) (small x hx he) (by decide) (by decide)
  have hl₁ : b.size + s.length < 2 ^ 31 := hs ▸ hl
  have hl₂ : b.size + s'.length < 2 ^ 31 := hs' ▸ hl
  refine ⟨followed b s hl₁, followed b s' hl₂, rfl, rfl, ?_, ?_, ?_⟩
  case refine_1 => simp only [Buffer.total, followed, hs, hs']
  case refine_2 =>
    rw [recvReq_followed hl₁ hb hne, (hp (followed b s hl₁) rfl []).left hv]
    rfl
  case refine_3 =>
    rw [recvReq_followed hl₂ hb hne, (hp (followed b s' hl₂) rfl []).right hv']
    dsimp only
    rw [more_followed hl₂ <| List.ne_nil_of_length_pos <| hs' ▸ by decide]
    rfl

-- A line without a number, after which there happens to be a digit or not.
theorem not_stale_bytes :
    let b : Buffer := ⟨[], .ofString "*\n", .ofString "5", by decide⟩
    let b' : Buffer := ⟨[], .ofString "*\n", .ofString "x", by decide⟩
    b'.data = b.data ∧ outcome (recvReq (fun _ => 0) (fun _ => 0) b) = (some [], [], b.data) ∧
      outcome (recvReq (fun _ => 0) (fun _ => 0) b') = (none, [], b.data) := by
  decide +kernel

end Link

end Ssdb
