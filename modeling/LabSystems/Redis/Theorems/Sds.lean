import LabSystems.Redis.Sds
import Mathlib.Data.List.Induction

namespace Redis

-- What has been appended to a string.
def appended (cs : List Call) : Bytes :=
  cs.flatMap (·.bytes)

-- The bytes are in the buffer, which ends with a zero and has the free space that its header says.
structure Sdshdr.Intact (bs : Bytes) (sh : Sdshdr) : Prop where
  free : 0 ≤ sh.free.toInt
  len  : sh.len.toInt = bs.length
  room : bs.length + sh.free.toInt + 1 ≤ sh.buf.length
  data : sh.buf.take bs.length = bs
  nul  : sh.buf[bs.length]? = some 0

-- A string is intact after every call, and nothing has been written outside its buffer.
def InBounds (fresh : Nat → UInt8) (cs : List Call) : Prop :=
  ∀ cs₁ cs₂, cs = cs₁ ++ cs₂ → ∃ sh ∈ sds fresh cs₁, sh.Intact (appended cs₁)

-- The bytes to append fit into the free space, or the length does not exceed the greatest allocation.
def Sdshdr.Fits (sh : Sdshdr) (bs : Bytes) : Prop :=
  bs.length ≤ sh.free.toInt ∨ sh.len.toInt + bs.length ≤ 2 ^ 20

variable {sh : Sdshdr} {bs : Bytes} {c : Call} {cs : List Call} {fresh : Nat → UInt8} {n : Int32} {k : UInt64}

theorem toNat_toSize (h : 0 ≤ n.toInt) : ((toSize n).toNat : Int) = n.toInt := by
  rw [toSize, Words.toNat_toUInt64 <| by rwa [Int32.toInt_toInt64], Int32.toInt_toInt64]

theorem toInt_ofSize (h : k.toNat < 2 ^ 31) : (ofSize k).toInt = k.toNat := by
  have he : (ofSize k).toInt = k.toUInt32.toBitVec.toInt := rfl
  have hn : k.toUInt32.toBitVec.toNat = k.toNat % 2 ^ 32 := UInt64.toNat_toUInt32 k
  rw [he, BitVec.toInt_eq_toNat_cond, hn]
  split <;> omega

theorem length_realloc {buf : Bytes} : (realloc buf k fresh).length = k.toNat := by
  simp [realloc]

-- The old contents are kept as far as the new size allows.
theorem take_realloc {buf : Bytes} {i : Nat} (hi : i ≤ buf.length) (hk : i ≤ k.toNat) :
    (realloc buf k fresh).take i = buf.take i := by
  refine List.ext_getElem (by simp [length_realloc, hi, hk]) fun j hj hj' => ?_
  have hlt : j < buf.length := by simp at hj'; omega
  simp [realloc, hlt]

theorem length_write {buf : Bytes} {i : UInt64} (h : write buf i bs = some buf') : buf'.length = buf.length := by
  simp only [write, Option.ite_none_right_eq_some, Option.some.injEq] at h
  have ⟨hle, h⟩ := h
  subst h
  simp only [List.length_append, List.length_take, List.length_drop]
  omega

theorem write_eq_none {buf : Bytes} {i : UInt64} (h : buf.length < i.toNat + bs.length) : write buf i bs = none :=
  if_neg <| Nat.not_le.mpr h

-- What a string holds after its bytes and the final zero have been written.
theorem write_spec (buf : Bytes) {i j : UInt64} (hj : j.toNat = i.toNat + bs.length) (hl : j.toNat < buf.length) :
    ∃ buf₁ ∈ write buf i bs, ∃ buf₂ ∈ write buf₁ j [0], buf₂.length = buf.length ∧
      buf₂.take j.toNat = buf.take i.toNat ++ bs ∧ buf₂[j.toNat]? = some 0 := by
  have hp : (buf.take i.toNat ++ bs).length = j.toNat := by
    simp only [List.length_append, List.length_take]
    omega
  have ht : (buf.take i.toNat ++ bs ++ buf.drop (i.toNat + bs.length)).take j.toNat = buf.take i.toNat ++ bs :=
    List.take_left' hp
  have hw₁ : write buf i bs = some _ := if_pos (by omega)
  have hl₁ := length_write hw₁
  have hw₂ : write _ j [0] = some _ := if_pos (by rwa [hl₁])
  refine ⟨_, hw₁, _, hw₂, (length_write hw₂).trans hl₁, ?data, ?nul⟩
  case data =>
    rw [ht, List.append_assoc]
    exact List.take_left' hp
  case nul =>
    rw [ht, List.append_assoc, List.getElem?_append_right hp.le, hp, Nat.sub_self]
    rfl

namespace Sdshdr

theorem Intact.toNat_sdslen (h : sh.Intact bs) : sh.sdslen.toNat = bs.length := by
  have := toNat_toSize (n := sh.len) <| h.len ▸ Int.natCast_nonneg _
  have := h.len
  rw [sdslen]
  omega

theorem Intact.toNat_sdsavail (h : sh.Intact bs) : (sh.sdsavail.toNat : Int) = sh.free.toInt :=
  toNat_toSize h.free

theorem toNat_length (h : bs.length < 2 ^ 31) : bs.length.toUInt64.toNat = bs.length := by
  simp only [Nat.toUInt64_eq, UInt64.toNat_ofNat']
  omega

-- The size that is asked for when the free space does not suffice.
def newlen (n : Nat) : Nat :=
  if n < 2 ^ 20 then 2 * n else 2 ^ 20

theorem makeRoom_of_lt (h : sh.Intact bs) (hl : bs.length + c.bytes.length < 2 ^ 31)
    (hn : sh.free.toInt < c.bytes.length) :
    ∃ k : UInt64, k.toNat = newlen (bs.length + c.bytes.length) ∧
      sh.sdsMakeRoomFor c.bytes.length.toUInt64 c.fresh =
        ⟨sh.len, ofSize (k - sh.sdslen), realloc sh.buf (k + 1) c.fresh⟩ := by
  have hlen := @toNat_length c.bytes (by omega)
  have hav := h.toNat_sdsavail
  have hsl := h.toNat_sdslen
  have hnot : ¬c.bytes.length.toUInt64 ≤ sh.sdsavail := by
    rw [UInt64.le_iff_toNat_le]
    omega
  rw [sdsMakeRoomFor, if_neg hnot]
  refine ⟨_, ?_, rfl⟩
  have hmax : SDS_MAX_PERALLOC.toNat = 2 ^ 20 := rfl
  have hadd : (sh.sdslen + c.bytes.length.toUInt64).toNat = bs.length + c.bytes.length := by
    rw [UInt64.toNat_add]
    omega
  simp only [newlen, UInt64.lt_iff_toNat_lt, hmax, hadd]
  split
  case isFalse => exact hmax
  case isTrue  =>
    rw [UInt64.toNat_mul, hadd]
    simp
    omega

-- There is room for the bytes after the call if and only if they fit.
theorem room_spec (h : sh.Intact bs) (hl : bs.length + c.bytes.length < 2 ^ 31) (hf : sh.Fits c.bytes) :
    let sh' := sh.sdsMakeRoomFor c.bytes.length.toUInt64 c.fresh
    c.bytes.length ≤ sh'.free.toInt ∧ bs.length + sh'.free.toInt + 1 ≤ sh'.buf.length ∧ sh'.buf.take bs.length = bs := by
  by_cases hn : sh.free.toInt < c.bytes.length
  case neg =>
    have hle : c.bytes.length.toUInt64 ≤ sh.sdsavail := by
      have hlen := @toNat_length c.bytes (by omega)
      have hav := h.toNat_sdsavail
      rw [UInt64.le_iff_toNat_le]
      omega
    rw [sdsMakeRoomFor, if_pos hle]
    exact ⟨not_lt.mp hn, h.room, h.data⟩
  case pos =>
    have ⟨k, hk, he⟩ := makeRoom_of_lt h hl hn
    have hle : sh.len.toInt + c.bytes.length ≤ 2 ^ 20 := hf.resolve_left <| not_le.mpr hn
    have hlen := h.len
    have hroom := h.room
    have hfree := h.free
    have hsl := h.toNat_sdslen
    have hnew : bs.length + c.bytes.length ≤ k.toNat ∧ k.toNat ≤ 2 ^ 21 := by
      simp only [newlen] at hk
      split at hk <;> omega
    have hsub : (k - sh.sdslen).toNat = k.toNat - bs.length := by
      rw [UInt64.toNat_sub_of_le _ _ <| UInt64.le_iff_toNat_le.mpr (by omega), hsl]
    have hof := toInt_ofSize (k := k - sh.sdslen) (by omega)
    have hadd : (k + 1).toNat = k.toNat + 1 := by
      rw [UInt64.toNat_add]
      simp
      omega
    simp only [he, hof, hsub, length_realloc, hadd]
    refine ⟨by omega, by omega, ?_⟩
    rw [take_realloc (by omega) (by omega)]
    exact h.data

theorem no_room (h : sh.Intact bs) (hl : bs.length + c.bytes.length < 2 ^ 31) (hf : ¬sh.Fits c.bytes) :
    (sh.sdsMakeRoomFor c.bytes.length.toUInt64 c.fresh).buf.length ≤ bs.length + c.bytes.length := by
  have ⟨hn, hb⟩ := not_or.mp hf
  have ⟨k, hk, he⟩ := makeRoom_of_lt h hl <| not_le.mp hn
  rw [he, length_realloc, UInt64.toNat_add]
  have := h.len
  simp only [newlen] at hk
  split at hk <;> simp <;> omega

theorem toNat_add_length (h : sh.Intact bs) (hl : bs.length + c.bytes.length < 2 ^ 31) :
    (sh.sdslen + c.bytes.length.toUInt64).toNat = bs.length + c.bytes.length := by
  have hlen := @toNat_length c.bytes (by omega)
  have hsl := h.toNat_sdslen
  rw [UInt64.toNat_add]
  omega

theorem sdscatlen_spec (h : sh.Intact bs) (hl : bs.length + c.bytes.length < 2 ^ 31) (hf : sh.Fits c.bytes) :
    ∃ sh' ∈ sh.sdscatlen c, sh'.Intact (bs ++ c.bytes) := by
  have ⟨hroom, hsize, hdata⟩ := room_spec h hl hf
  have hj := toNat_add_length h hl
  have hsl := h.toNat_sdslen
  have hlen := @toNat_length c.bytes (by omega)
  rw [sdscatlen]
  generalize sh.sdsMakeRoomFor c.bytes.length.toUInt64 c.fresh = sh' at *
  have hi : (sh.sdslen + c.bytes.length.toUInt64).toNat = sh.sdslen.toNat + c.bytes.length := by rw [hj, hsl]
  have ⟨buf₁, h₁, buf₂, h₂, hl₂, ht₂, hn₂⟩ := write_spec sh'.buf hi (by omega)
  have hav : (sh'.sdsavail.toNat : Int) = sh'.free.toInt := toNat_toSize (by omega)
  have hlt := sh'.free.toInt_lt
  have hsub : (sh'.sdsavail - c.bytes.length.toUInt64).toNat = sh'.sdsavail.toNat - c.bytes.length := by
    rw [UInt64.toNat_sub_of_le _ _ <| UInt64.le_iff_toNat_le.mpr (by omega), hlen]
  have hfree := toInt_ofSize (k := sh'.sdsavail - c.bytes.length.toUInt64) (by omega)
  refine ⟨⟨ofSize (sh.sdslen + c.bytes.length.toUInt64), ofSize (sh'.sdsavail - c.bytes.length.toUInt64), buf₂⟩, ?_, ?_⟩
  · rw [Option.mem_def] at *
    simp only [h₁, h₂, Option.bind_eq_bind, Option.bind_some, Option.pure_def]
  constructor
  case free =>
    rw [hfree]
    exact Int.natCast_nonneg _
  case len  => rw [toInt_ofSize (by omega), hj, List.length_append]
  case room =>
    rw [List.length_append, hl₂, hfree]
    omega
  case data => rw [List.length_append, ← hj, ht₂, hsl, hdata]
  case nul  => rwa [List.length_append, ← hj]

-- Otherwise bytes are written outside the buffer.
theorem sdscatlen_eq_none (h : sh.Intact bs) (hl : bs.length + c.bytes.length < 2 ^ 31) (hf : ¬sh.Fits c.bytes) :
    sh.sdscatlen c = none := by
  have hno := no_room h hl hf
  have hj := toNat_add_length h hl
  rw [sdscatlen]
  cases hw : write (sh.sdsMakeRoomFor c.bytes.length.toUInt64 c.fresh).buf sh.sdslen c.bytes
  case none => rfl
  case some buf =>
    have hn : write buf (sh.sdslen + c.bytes.length.toUInt64) [0] = none :=
      write_eq_none <| by simpa [hj, length_write hw] using Nat.lt_add_one_of_le hno
    simp only [Option.bind_eq_bind, Option.bind_some, hn]
    rfl

end Sdshdr

theorem sds_nil : ∃ sh ∈ sds fresh [], sh.Intact [] := by
  have hl : (realloc [] (0 + 1) fresh).length = 1 := length_realloc
  have hw : write (realloc [] (0 + 1) fresh) 0 [0] = some [0] := by
    have ⟨b, hb⟩ := List.length_eq_one_iff.mp hl
    rw [hb]
    rfl
  refine ⟨⟨ofSize 0, 0, [0]⟩, ?_, ?_⟩
  · simp only [sds, Sdshdr.sdsnewlen, hw]
    rfl
  · constructor <;> decide

theorem sds_snoc : sds fresh (cs ++ [c]) = (sds fresh cs).bind (·.sdscatlen c) := by
  simp only [sds, List.foldlM_append, List.foldlM_cons, List.foldlM_nil, bind_pure, Option.bind_eq_bind]
  cases Sdshdr.sdsnewlen 0 fresh <;> rfl

theorem appended_snoc : appended (cs ++ [c]) = appended cs ++ c.bytes := by
  simp [appended]

-- Strings that all fit, by induction on the calls.
theorem sds_spec (hl : (appended cs).length < 2 ^ 31)
    (hf : ∀ cs₁ c cs₂, cs = cs₁ ++ c :: cs₂ → ∀ sh ∈ sds fresh cs₁, sh.Fits c.bytes) :
    ∃ sh ∈ sds fresh cs, sh.Intact (appended cs) := by
  induction cs using List.reverseRecOn
  case nil => exact sds_nil
  case append_singleton cs c ih =>
    rw [appended_snoc, List.length_append] at hl
    have ⟨sh, hs, hi⟩ := ih (by omega) fun cs₁ c₁ cs₂ he => hf cs₁ c₁ (cs₂ ++ [c]) (by simp [he])
    have ⟨sh', hs', hi'⟩ := Sdshdr.sdscatlen_spec hi hl <| hf cs c [] rfl sh hs
    refine ⟨sh', ?_, appended_snoc ▸ hi'⟩
    rw [sds_snoc, Option.mem_def.mp hs]
    exact hs'

theorem inBounds_iff (hl : (appended cs).length < 2 ^ 31) : InBounds fresh cs ↔
    ∀ cs₁ c cs₂, cs = cs₁ ++ c :: cs₂ → ∀ sh ∈ sds fresh cs₁, sh.Fits c.bytes := by
  constructor
  case mp =>
    intro hin cs₁ c cs₂ he sh hs
    have ⟨sh₁, hs₁, hi⟩ := hin cs₁ (c :: cs₂) he
    have ⟨sh₂, hs₂, _⟩ := hin (cs₁ ++ [c]) cs₂ (by simp [he])
    have hle : (appended cs₁).length + c.bytes.length ≤ (appended cs).length := by
      simp [he, appended, ← Nat.add_assoc]
    cases Option.mem_unique hs hs₁
    by_contra hf
    rw [sds_snoc, Option.mem_def.mp hs, Option.bind_some, Sdshdr.sdscatlen_eq_none hi (by omega) hf] at hs₂
    cases hs₂
  case mpr =>
    intro hf cs₁ cs₂ he
    have hle : (appended cs₁).length ≤ (appended cs).length := by simp [he, appended]
    refine sds_spec (by omega) fun cs₃ c cs₄ h => hf cs₃ c (cs₄ ++ cs₂) ?_
    rw [he, h, List.append_assoc, List.cons_append]

theorem fits_of_le {c : Call} {sh : Sdshdr} {cs₁ cs₂ : List Call}
    (hl : (appended cs).length ≤ 2 ^ 20) (he : cs = cs₁ ++ c :: cs₂) (hs : sh ∈ sds fresh cs₁) : sh.Fits c.bytes := by
  have hle : (appended cs₁).length + c.bytes.length ≤ (appended cs).length := by
    simp [he, appended, ← Nat.add_assoc]
  have hf : ∀ cs₃ c' cs₄, cs₁ = cs₃ ++ c' :: cs₄ → ∀ sh ∈ sds fresh cs₃, sh.Fits c'.bytes := fun cs₃ c' cs₄ h _ hs =>
    @fits_of_le c' _ cs₃ (cs₄ ++ c :: cs₂) hl (by simp [he, h]) hs
  have ⟨sh', hs', hi⟩ := sds_spec (by omega) hf
  cases Option.mem_unique hs hs'
  have := hi.len
  exact .inr (by omega)
termination_by cs₁.length
decreasing_by simp [h]

-- The two calls in `main`.
theorem inBounds_main : InBounds (fun _ => 0)
    [⟨[0x68, 0x65, 0x6C, 0x6C], fun _ => 0⟩, ⟨[0x61, 0x62, 0x63, 0x64, 0x65, 0x66, 0x67, 0x61, 0x62, 0x63], fun _ => 0⟩] :=
  inBounds_iff (by decide) |>.mpr fun _ _ _ he _ hs => fits_of_le (by decide) he hs

-- A first string that is longer than the greatest allocation.
theorem not_inBounds_of_lt (hlt : 2 ^ 20 < c.bytes.length) (hl : c.bytes.length < 2 ^ 31) : ¬InBounds fresh [c] := by
  intro hin
  have ⟨sh, hs, hi⟩ := @sds_nil fresh
  have ⟨sh', hs', _⟩ := hin [c] [] rfl
  have hfree : sh.free.toInt = 0 := by
    cases hs
    rfl
  have hlen : sh.len.toInt = 0 := hi.len
  have hf : ¬sh.Fits c.bytes := by
    rw [Sdshdr.Fits, hfree, hlen]
    omega
  rw [← List.nil_append [c], sds_snoc, Option.mem_def.mp hs, Option.bind_some,
    Sdshdr.sdscatlen_eq_none hi (by simpa using hl) hf] at hs'
  cases hs'

theorem not_inBounds_of_max : ¬InBounds (fun _ => 0) [⟨List.replicate (2 ^ 20 + 1) 0, fun _ => 0⟩] := by
  refine not_inBounds_of_lt ?_ ?_ <;> rw [List.length_replicate] <;> omega

end Redis
