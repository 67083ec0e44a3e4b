import LabSystems.MapReduce.Split
import LabSystems.MapReduce.Theorems.Names
import Mathlib.Data.List.Induction
import Mathlib.Data.List.TakeWhile

namespace MapReduce

-- Lines as they are written.
def text (ls : List Bytes) : Bytes :=
  ls.flatMap (· ++ [10])

-- The files of all map jobs are created, and together they have all lines of the input.
structure Covers (nMap : Nat) (fileName : String) (b : Bytes) (s : Splitting) : Prop where
  created  : s.created = (List.range nMap).map (mapName fileName)
  contents : ∃ cs : List Bytes, (List.range nMap).map (fun m => s.files <| mapName fileName m) = cs.map some ∧
    cs.flatten = text (scanLines b)

variable {b c line : Bytes} {ls : List Bytes} {f nchunk nMap : Nat} {fileName : String} {fs : Files} {s : Splitting}

@[simp]
theorem text_nil : text [] = [] :=
  rfl

@[simp]
theorem text_cons : text (line :: ls) = line ++ 10 :: text ls := by
  simp [text]

@[simp]
theorem text_append : text (ls₁ ++ ls₂) = text ls₁ ++ text ls₂ :=
  List.flatMap_append

theorem rawLines_eq_nil : rawLines b = [] ↔ b = [] := by
  constructor
  case mpr => exact fun h => h ▸ rfl
  case mp =>
    intro h
    cases b
    case nil => rfl
    case cons c b =>
      simp only [rawLines] at h
      split at h
      case isTrue => cases h
      case isFalse => split at h <;> cases h

-- Every byte belongs to one line.
theorem text_rawLines : text (rawLines b) = if b = [] ∨ b.getLast? = some 10 then b else b ++ [10] := by
  induction b
  case nil => rfl
  case cons c b hi =>
    have hlast (hb : b ≠ []) : (c :: b).getLast? = b.getLast? := by rw [List.getLast?_cons_of_ne_nil hb]
    simp only [rawLines]
    split
    case isTrue hc =>
      subst hc
      by_cases hb : b = []
      case pos => simp [hb, rawLines]
      case neg =>
        simp [hi, hb, hlast hb]
        split <;> simp
    case isFalse hc =>
      split
      case h_1 hn =>
        have hb : b = [] := rawLines_eq_nil.mp hn
        simp [hb, hc]
      case h_2 l ls he =>
        have hb : b ≠ [] := fun hn => by simp [hn, rawLines] at he
        rw [he, text_cons] at hi
        simp [hb, hlast hb, hi]
        split <;> simp_all

theorem length_text_rawLines : (text (rawLines b)).length ≤ b.length + 1 := by
  rw [text_rawLines]
  split <;> simp

theorem length_dropCR : (dropCR line).length ≤ line.length := by
  rw [dropCR]
  split <;> simp

theorem length_text_dropCR : (text (ls.map dropCR)).length ≤ (text ls).length := by
  induction ls
  case nil => exact Nat.le_refl _
  case cons line ls hi =>
    have hle : (dropCR line).length ≤ line.length := length_dropCR
    simp
    omega

theorem length_le_text : ls.length ≤ (text ls).length := by
  induction ls
  case nil => exact Nat.le_refl _
  case cons hi =>
    simp
    omega

theorem mapName_inj (h : mapName fileName i = mapName fileName i') : i = i' := by
  have h := congrArg String.toList h
  rw [toList_mapName, toList_mapName, List.append_cancel_left_eq] at h
  exact toString_inj (List.cons.inj h).right

namespace Splitting

-- What has been written after some lines.
structure Split (fileName : String) (ls : List Bytes) (s : Splitting) : Prop where
  i        : s.i = (text ls).length
  pos      : 0 < s.m
  outfile  : s.outfile = mapName fileName (s.m - 1)
  created  : s.created = (List.range s.m).map (mapName fileName)
  contents : ∃ (cs : List Bytes) (c : Bytes), cs.length = s.m - 1 ∧ s.files s.outfile = some c ∧
    (∀ k (h : k < cs.length), s.files (mapName fileName k) = some cs[k]) ∧ cs.flatten ++ c = text ls

theorem Split.writeString (h : s.Split fileName ls) (line : Bytes) :
    Split fileName (ls ++ [line]) { s.writeString (line ++ [10]) with i := s.i + (line ++ [10]).length } := by
  have ⟨cs, c, hl, hc, hcs, ht⟩ := h.contents
  refine ⟨by simp [h.i], h.pos, h.outfile, h.created, cs, c ++ (line ++ [10]), hl, ?_, fun k hk => ?_, ?_⟩
  · simp [Splitting.writeString, hc]
  · have hne : mapName fileName k ≠ s.outfile := by
      rw [h.outfile]
      intro he
      have := mapName_inj he
      omega
    simp [Splitting.writeString, hne, hcs k hk]
  · simp [← ht]

theorem Split.create (h : s.Split fileName ls) :
    Split fileName ls { s.create (mapName fileName s.m) with m := s.m + 1 } := by
  have hpos := h.pos
  have ⟨cs, c, hl, hc, hcs, ht⟩ := h.contents
  refine ⟨h.i, by simp, by simp [Splitting.create], ?_, cs ++ [c], [], ?_, ?_, fun k hk => ?_, ?_⟩
  · simp [Splitting.create, h.created, List.range_succ]
  · simp [hl]
    omega
  · simp [Splitting.create]
  · rw [List.length_append, List.length_singleton] at hk
    have hne : mapName fileName k ≠ mapName fileName s.m := fun he => by
      have := mapName_inj he
      omega
    simp only [Splitting.create, Function.update_of_ne hne]
    by_cases hlt : k < cs.length
    case pos => rw [List.getElem_append_left hlt, hcs k hlt]
    case neg =>
      have hk : k = cs.length := by omega
      subst hk
      rw [List.getElem_concat_length rfl, ← hc, h.outfile, hl]
  · simp [ht]

theorem Split.next (h : s.Split fileName ls) (line : Bytes) :
    Split fileName (ls ++ [line]) (s.next nchunk fileName line) := by
  simp only [Splitting.next]
  split
  case isTrue  => exact h.create.writeString line
  case isFalse => exact h.writeString line

theorem m_next (h : s.Split fileName ls) :
    (s.next nchunk fileName line).m = if nchunk * s.m < (text ls).length then s.m + 1 else s.m := by
  simp only [Splitting.next, h.i]
  split <;> rfl

-- The loop over all lines.
def run (nchunk : Nat) (fileName : String) (fs : Files) (ls : List Bytes) : Splitting :=
  ls.foldl (Splitting.next nchunk fileName) <| Splitting.create ⟨fs, [], "", 1, 0⟩ (mapName fileName 0)

theorem run_snoc : run nchunk fileName fs (ls ++ [line]) = (run nchunk fileName fs ls).next nchunk fileName line :=
  List.foldl_concat ..

theorem split_run : Split fileName ls (run nchunk fileName fs ls) := by
  induction ls using List.reverseRecOn
  case nil                   => exact ⟨rfl, Nat.one_pos, rfl, rfl, [], [], rfl, Function.update_self .., nofun, rfl⟩
  case append_singleton hi => exact run_snoc ▸ hi.next _

theorem m_run_snoc : (run nchunk fileName fs (ls ++ [line])).m =
    if nchunk * (run nchunk fileName fs ls).m < (text ls).length then
      (run nchunk fileName fs ls).m + 1
    else
      (run nchunk fileName fs ls).m := by
  rw [run_snoc, m_next split_run]

-- A file is created only after so many bytes.
theorem lt_text_of_one_lt (h : 1 < (run nchunk fileName fs ls).m) :
    nchunk * ((run nchunk fileName fs ls).m - 1) < (text ls).length := by
  induction ls using List.reverseRecOn
  case nil => simp [run, create] at h
  case append_singleton ls line hi =>
    rw [m_run_snoc] at h ⊢
    rw [text_append, List.length_append]
    split
    case isTrue hlt =>
      rw [Nat.add_sub_cancel]
      omega
    case isFalse hn =>
      rw [if_neg hn] at h
      have := hi h
      omega

theorem le_m_snoc {m : Nat} (hm : 0 < m) : m ≤ (run nchunk fileName fs (ls ++ [line])).m ↔
    (1 < m → m - 1 ≤ (run nchunk fileName fs ls).m ∧ nchunk * (m - 1) < (text ls).length) := by
  have hpos : 0 < (run nchunk fileName fs ls).m := split_run.pos
  have hlast : 1 < (run nchunk fileName fs ls).m → _ := lt_text_of_one_lt
  rw [m_run_snoc]
  generalize (run nchunk fileName fs ls).m = n at *
  constructor
  case mp =>
    intro h hlt
    split at h
    case isTrue hc  => exact ⟨by omega, (Nat.mul_le_mul_left _ (by omega)).trans_lt hc⟩
    case isFalse hc => exact ⟨by omega, (Nat.mul_le_mul_left _ (by omega)).trans_lt <| hlast (by omega)⟩
  case mpr =>
    intro h
    by_cases hle : m ≤ n
    case pos => split <;> omega
    case neg =>
      have ⟨h₁, h₂⟩ := h (by omega)
      have he : m - 1 = n := by omega
      rw [if_pos <| he ▸ h₂]
      omega

-- All lines but those that are needed to create the remaining files.
theorem le_m_iff {m : Nat} (hm : 0 < m) : m ≤ (run nchunk fileName fs ls).m ↔
    ∀ k, 0 < k → k < m → nchunk * k < (text <| ls.take <| ls.length - (m - k)).length := by
  induction ls using List.reverseRecOn generalizing m
  case nil =>
    have hone : (run nchunk fileName fs []).m = 1 := rfl
    simp only [hone, List.take_nil, text_nil, List.length_nil, Nat.not_lt_zero]
    constructor
    case mp  => exact fun _ _ _ _ => by omega
    case mpr => 
      intro h
      by_contra hlt
      exact h 1 (by omega) (by omega)
  case append_singleton ls line hi =>
    have htake {k} (hk : k < m) :
        (ls ++ [line]).take ((ls ++ [line]).length - (m - k)) = ls.take (ls.length - (m - 1 - k)) := by
      rw [List.length_append, List.length_singleton, List.take_append_of_le_length (by omega)]
      congr 1
      omega
    rw [le_m_snoc hm]
    constructor
    case mp =>
      intro h k hk hkm
      have ⟨h₁, h₂⟩ := h (by omega)
      rw [htake hkm]
      by_cases he : k = m - 1
      case pos => simpa [he] using h₂
      case neg => exact hi (m := m - 1) (by omega) |>.mp h₁ k hk (by omega)
    case mpr =>
      intro h hlt
      constructor
      case left =>
        refine hi (m := m - 1) (by omega) |>.mpr fun k hk hkm => ?_
        have := h k hk (by omega)
        rwa [htake (by omega)] at this
      case right =>
        have := h (m - 1) (by omega) (by omega)
        rw [htake (by omega)] at this
        simpa using this

end Splitting

theorem split_eq (hn : 0 < nMap) (hb : fs fileName = some b) :
    split nMap fileName fs = some (Splitting.run (b.length / nMap + 1) fileName fs (scan b)) := by
  simp only [split, hb, Option.bind_eq_bind, Option.bind_some, if_neg (Nat.ne_of_gt hn)]
  rfl

theorem scan_eq_iff : scan b = scanLines b ↔ ∀ l ∈ rawLines b, l.length < maxScanTokenSize := by
  constructor
  case mp =>
    intro h l hl
    have hlen := congrArg List.length h
    rw [scan, scanLines, List.length_map, List.length_map] at hlen
    rw [← (List.takeWhile_prefix _).eq_of_length hlen] at hl
    simpa using List.mem_takeWhile_imp hl
  case mpr =>
    intro h
    rw [scan, scanLines, List.takeWhile_eq_self_iff.mpr (by simpa using h)]

-- No line is lost in the same number of bytes.
theorem scan_eq_of_text (h : text (scan b) = text (scanLines b)) : scan b = scanLines b := by
  have hp : scan b <+: scanLines b := (List.takeWhile_prefix _).map _
  have ⟨ls, he⟩ := hp
  rw [← he, text_append, List.self_eq_append_right] at h
  have hn : ls.length = 0 := by
    have : ls.length ≤ (text ls).length := length_le_text
    rw [h, List.length_nil] at this
    omega
  rw [← he, List.length_eq_zero_iff.mp hn, List.append_nil]

theorem length_scan : (text (scan b)).length ≤ b.length + 1 := by
  have hp : (rawLines b).takeWhile (·.length < maxScanTokenSize) <+: rawLines b := List.takeWhile_prefix _
  have ⟨ls, he⟩ := hp
  have hraw : (text (rawLines b)).length ≤ b.length + 1 := length_text_rawLines
  rw [← he, text_append, List.length_append] at hraw
  exact length_text_dropCR.trans (by omega)

theorem m_le (hn : 0 < nMap) : (Splitting.run (b.length / nMap + 1) fileName fs (scan b)).m ≤ nMap := by
  by_contra hlt
  have hlast : _ * (_ - 1) < (text (scan b)).length :=
    Splitting.lt_text_of_one_lt (Nat.lt_of_le_of_lt hn <| not_le.mp hlt)
  have hlen : (text (scan b)).length ≤ _ := length_scan
  have hmul : b.length < nMap * (b.length / nMap + 1) := Nat.lt_mul_div_succ b.length hn
  have hle := Nat.mul_le_mul_left (b.length / nMap + 1)
    (show nMap ≤ (Splitting.run (b.length / nMap + 1) fileName fs (scan b)).m - 1 by omega)
  rw [Nat.mul_comm] at hle
  omega

theorem Splitting.Split.files_range (h : s.Split fileName ls) : ∃ cs : List Bytes,
    (List.range s.m).map (fun m => s.files <| mapName fileName m) = cs.map some ∧ cs.flatten = text ls := by
  have ⟨cs, c, hl, hc, hcs, ht⟩ := h.contents
  have hpos := h.pos
  have hlen : s.m = cs.length + 1 := by omega
  refine ⟨cs ++ [c], List.ext_getElem (by simp [hlen]) fun k hk hk' => ?_, by simp [ht]⟩
  rw [List.getElem_map, List.getElem_range, List.getElem_map]
  rw [List.length_map, List.length_append, List.length_singleton] at hk'
  by_cases hlt : k < cs.length
  case pos => rw [List.getElem_append_left hlt, hcs k hlt]
  case neg =>
    have hk : k = cs.length := by omega
    subst hk
    rw [List.getElem_concat_length rfl, ← hc, h.outfile, hl]

theorem covers_iff (h : s.Split fileName (scan b)) : Covers nMap fileName b s ↔ scan b = scanLines b ∧ s.m = nMap := by
  have ⟨cs, hcs, ht⟩ := h.files_range
  constructor
  case mp =>
    intro ⟨hcreated, cs', hcs', ht'⟩
    have hm : s.m = nMap := by simpa using congrArg List.length (h.created.symm.trans hcreated)
    have he : cs = cs' := (List.map_inj_right fun _ _ => Option.some.inj).mp <| hcs.symm.trans <| hm ▸ hcs'
    exact ⟨scan_eq_of_text <| by rw [← ht, ← ht', he], hm⟩
  case mpr =>
    intro ⟨he, hm⟩
    exact ⟨hm ▸ h.created, cs, hm ▸ hcs, he ▸ ht⟩

end MapReduce
