import LabSystems.Posix.Read

namespace Posix

-- The buffer begins with the bytes of the file that have been delivered, and nothing outside it has been written.
structure Reading.Reassembles (file : Bytes) (len : Nat) (s : Reading) : Prop where
  data   : ∀ i < s.offset, file[i]? = some (s.memory i)
  inside : ∀ i ∈ s.written, i < len

-- Interruptions aside, no read delivers bytes after a short one.
def InOnePiece (len : Nat) (rs : List Result) : Prop :=
  match rs.filter (· ≠ .eintr) with
  | .bytes ret :: .bytes _ :: _ => len ≤ ret
  | _                           => True

namespace Reading

variable {file : Bytes} {s s' : Reading} {rs : List Result} {memory : Nat → UInt8} {len ret : Nat}

theorem sysRead_of_len_eq_zero (h : s.len = 0) : s.sysRead file rs = some s := by
  cases rs <;> simp [sysRead, h]

-- An interrupted read changes nothing.
theorem sysRead_filter : s.sysRead file (rs.filter (· ≠ .eintr)) = s.sysRead file rs := by
  induction rs generalizing s
  case nil => rfl
  case cons r rs hi =>
    if hl : s.len = 0 then
      rw [sysRead_of_len_eq_zero hl, sysRead_of_len_eq_zero hl]
    else
      cases r
      case bytes ret => simp [sysRead, hl, ← hi]
      case eof       => simp [sysRead, hl]
      case eintr     => simpa [sysRead, hl] using hi
      case error     => simp [sysRead, hl]

-- What has been written stays on the record.
theorem written_subset (h : s.sysRead file rs = some s') : s.written ⊆ s'.written := by
  induction rs generalizing s
  case nil =>
    simp only [sysRead, Option.ite_none_right_eq_some, Option.some.injEq] at h
    exact h.right ▸ List.Subset.refl _
  case cons r rs hi =>
    if hl : s.len = 0 then
      cases sysRead_of_len_eq_zero hl ▸ h
      exact List.Subset.refl _
    else
      simp only [sysRead, hl, if_false] at h
      cases r
      case eof   => exact Option.some.inj h ▸ List.Subset.refl _
      case eintr => exact hi h
      case error => exact Option.some.inj h ▸ List.Subset.refl _
      case bytes ret =>
        simp only [Option.ite_none_right_eq_some] at h
        exact fun i hm => hi h.right <| List.mem_append_left _ hm

theorem Reassembles.start : (Reading.start memory len).Reassembles file len where
  data   := fun _ h => absurd h <| Nat.not_lt_zero _
  inside := fun _ h => absurd h List.not_mem_nil

-- The first bytes go where they belong.
theorem Reassembles.first (h : (Reading.start memory len).Delivers file ret) :
    (((Reading.start memory len).deliver file ret).advance ret).Reassembles file len where
  data i hi := by
    have ⟨_, _, hf⟩ := h
    simp only [advance, deliver, Reading.start, Nat.zero_add] at hi hf ⊢
    have hlt : i < file.length := Nat.lt_of_lt_of_le hi hf
    simp [hi, hlt]
  inside i hm := by
    have ⟨_, hl, _⟩ := h
    simp only [advance, deliver, Reading.start, List.nil_append, List.mem_range'_1] at hl hm
    omega

-- The pointer is behind the buffer when there is something left to read.
theorem not_reassembles_of_second (hb : s.buf = len) (hl : s.len ≠ 0)
    (h : s.sysRead file (.bytes ret :: rs) = some s') : ¬s'.Reassembles file len := by
  intro hr
  simp only [sysRead, hl, if_false, Option.ite_none_right_eq_some] at h
  have ⟨⟨hp, _, _⟩, h⟩ := h
  have hm : s.buf ∈ s.written ++ List.range' s.buf ret :=
    List.mem_append_right _ <| List.mem_range'_1.mpr ⟨Nat.le_refl _, Nat.lt_add_of_pos_right hp⟩
  exact absurd (hr.inside _ <| written_subset h hm) (hb ▸ Nat.lt_irrefl _)

theorem reassembles_iff (h : (start memory len).sysRead file rs = some s) :
    s.Reassembles file len ↔ InOnePiece len rs := by
  rw [← sysRead_filter] at h
  rw [InOnePiece]
  have hn : .eintr ∉ rs.filter (· ≠ .eintr) := by simp
  generalize rs.filter (· ≠ .eintr) = rs at h hn
  if hl : len = 0 then
    cases sysRead_of_len_eq_zero (s := start memory len) hl ▸ h
    refine iff_of_true .start ?_
    split
    · exact hl ▸ Nat.zero_le _
    · trivial
  else
    have hs : (start memory len).len ≠ 0 := hl
    match rs with
    | []                           => simp [sysRead, hs] at h
    | .eof :: _ | .error :: _      =>
      simp only [sysRead, hs, if_false, Option.some.injEq] at h
      exact iff_of_true (h ▸ .start) trivial
    | .eintr :: _                  => exact absurd List.mem_cons_self hn
    | .bytes ret :: rs =>
      simp only [sysRead, hs, if_false, Option.ite_none_right_eq_some] at h
      have ⟨hd, h⟩ := h
      if hr : len ≤ ret then
        have he : (((start memory len).deliver file ret).advance ret).len = 0 := Nat.sub_eq_zero_of_le hr
        cases sysRead_of_len_eq_zero he ▸ h
        refine iff_of_true (.first hd) ?_
        split
        case h_1 he => simp_all
        case h_2    => trivial
      else
        have he : (((start memory len).deliver file ret).advance ret).len ≠ 0 :=
          Nat.sub_ne_zero_of_lt <| Nat.lt_of_not_le hr
        match rs with
        | []                      => simp [sysRead, he] at h
        | .eof :: _ | .error :: _ =>
          simp only [sysRead, he, if_false, Option.some.injEq] at h
          exact iff_of_true (h ▸ .first hd) trivial
        | .eintr :: _             => exact absurd (List.mem_cons_of_mem _ List.mem_cons_self) hn
        | .bytes _ :: _           => exact iff_of_false (not_reassembles_of_second (Nat.zero_add len) he h) hr

-- An interrupted read and one that fills the buffer.
theorem reassembles_interrupted : ∃ s ∈ (start (fun _ => 0) 2).sysRead [104, 105, 10] [.eintr, .bytes 2],
    s.Reassembles [104, 105, 10] 2 :=
  have h : (start (fun _ => 0) 2).sysRead [104, 105, 10] [.eintr, .bytes 2] = some _ := rfl
  ⟨_, h, (reassembles_iff h).mpr trivial⟩

-- The second byte of a file is not behind the first one, but outside the buffer.
theorem not_reassembles_two_reads : ∃ s ∈ (start (fun _ => 0) 2).sysRead [104, 105] [.bytes 1, .bytes 1],
    s.memory 1 = 0 ∧ s.memory 2 = 105 ∧ ¬s.Reassembles [104, 105] 2 :=
  ⟨_, rfl, rfl, rfl, fun h => absurd (h.inside 2 (by decide)) (by decide)⟩

end Reading
end Posix
