import LabSystems.Nsqd.Guid

namespace Nsqd

open Machine (events)

namespace Guid

variable {g g' : Guid}

theorem two_mul_toNat_lt (h : 0 ≤ g.toInt) : 2 * g.toBitVec.toNat < 2 ^ 64 :=
  BitVec.toInt_pos_iff.mp h

theorem toNat_toUInt64 (h : 0 ≤ g.toInt) : (g.toUInt64.toNat : Int) = g.toInt :=
  (BitVec.toInt_eq_toNat_of_lt <| two_mul_toNat_lt h).symm

theorem byte_of_toNat (h : g.toUInt64.toNat = n) : byte g = n.toUInt8 := by
  rw [← h, byte]
  simp

theorem toNat_sshiftRight (h : 0 ≤ g.toInt) : (g.toBitVec.sshiftRight k).toNat = g.toUInt64.toNat / 2 ^ k := by
  rw [BitVec.toNat_sshiftRight_of_msb_false <| BitVec.msb_eq_false_iff_two_mul_lt.mpr <| two_mul_toNat_lt h,
    Nat.shiftRight_eq_div_pow]
  rfl

-- A number that is not negative is printed from the most significant byte on.
theorem hex_bytes (h : 0 ≤ g.toInt) : (hex g).bytes = Bytes.hex (Bytes.ofNat 8 g.toUInt64.toNat).reverse := by
  have hb : ([56, 48, 40, 32, 24, 16, 8, 0] : List Int64).map (fun k => byte (g >>> k)) =
      [56, 48, 40, 32, 24, 16, 8, 0].map fun k => (g.toUInt64.toNat / 2 ^ k).toUInt8 := by
    simp only [List.map_cons, List.map_nil, List.cons.injEq, and_true]
    refine ⟨?_, ?_, ?_, ?_, ?_, ?_, ?_, ?_⟩
    all_goals exact byte_of_toNat <| toNat_sshiftRight h
  refine (congrArg Bytes.hex hb).trans ?_
  simp only [List.map_cons, List.map_nil, Bytes.ofNat, List.reverse_cons, List.reverse_nil, List.nil_append,
    List.cons_append, Nat.div_div_eq_div_mul]
  norm_num

theorem hex_lt (h : 0 ≤ g.toInt) (h' : 0 ≤ g'.toInt) : (hex g).bytes < (hex g').bytes ↔ g < g' := by
  rw [hex_bytes h, hex_bytes h', Bytes.hex_lt, Bytes.reverse_ofNat_lt (by simpa using g.toUInt64.toNat_lt)
    (by simpa using g'.toUInt64.toNat_lt), Int64.lt_iff_toInt_lt, ← toNat_toUInt64 h, ← toNat_toUInt64 h']
  omega

end Guid

namespace GuidFactory

variable {f : GuidFactory} {ts s : Int64} {g : Guid} {e : String}

-- A call that fails may change the sequence and the last timestamp, but not the last ID.
theorem lastID_of_error (h : (f.newGUID ts).1 = .error e) : (f.newGUID ts).2.lastID = f.lastID := by
  unfold newGUID at h ⊢
  dsimp only at h ⊢
  generalize (if f.lastTimestamp = ts then (f.sequence + 1) &&& sequenceMask else 0) = seq at h ⊢
  split_ifs at h ⊢
  all_goals rfl

theorem lastID_of_ok (h : (f.newGUID ts).1 = .ok g) : f.lastID < g ∧ (f.newGUID ts).2.lastID = g := by
  unfold newGUID at h ⊢
  dsimp only at h ⊢
  generalize (if f.lastTimestamp = ts then (f.sequence + 1) &&& sequenceMask else 0) = seq at h ⊢
  split_ifs at h ⊢ with _ _ hl
  case neg =>
    cases h
    exact ⟨Int64.not_le.mp hl, rfl⟩

end GuidFactory

abbrev GuidTransition (node : Int64) :=
  (newGUIDFactory node).Transition

variable {node : Int64}

-- The IDs that the calls have returned.
def ids (ts : List (GuidTransition node)) : List Guid :=
  events ts |>.filterMap Except.toOption

variable {ts : List (GuidTransition node)} {t : GuidTransition node} {f : GuidFactory}

theorem GuidTransition.post_eq (t : GuidTransition node) :
    t.post = (t.pre.newGUID t.act).2 ∧ t.events = [(t.pre.newGUID t.act).1] := by
  have ⟨hp, he⟩ := Prod.mk.inj <| Option.some.inj t.valid
  exact ⟨hp.symm, he.symm⟩

-- The IDs that have been returned are in order, and the last one is remembered.
structure Issued (ids : List Guid) (f : GuidFactory) : Prop where
  nonneg     : 0 ≤ f.lastID
  pos        : ∀ g ∈ ids, 0 < g
  le_last    : ∀ g ∈ ids, g ≤ f.lastID
  increasing : ids.Pairwise (· < ·)

theorem Issued.step (h : Issued (ids ts) t.pre) : Issued (ids (ts ++ [t])) t.post := by
  obtain ⟨hp, he⟩ := t.post_eq
  rw [ids, events, List.flatMap_append, List.flatMap_singleton, List.filterMap_append, he, hp]
  change Issued (ids ts ++ _) _
  cases hr : (t.pre.newGUID t.act).1
  case error e =>
    have hl := GuidFactory.lastID_of_error hr
    rw [List.filterMap_cons, Except.toOption, List.filterMap_nil, List.append_nil]
    exact ⟨hl ▸ h.nonneg, h.pos, hl ▸ h.le_last, h.increasing⟩
  case ok g =>
    obtain ⟨hlt, hl⟩ := GuidFactory.lastID_of_ok hr
    rw [List.filterMap_cons, Except.toOption, List.filterMap_nil]
    have hpos : 0 < g := Int64.lt_of_le_of_lt h.nonneg hlt
    have hle {g'} (hg : g' ∈ ids ts) : g' < g := Int64.lt_of_le_of_lt (h.le_last g' hg) hlt
    constructor
    case nonneg => exact hl ▸ Int64.le_of_lt hpos
    case pos =>
      intro g' hg
      rcases List.mem_append.mp hg with hg | hg
      case inl => exact h.pos g' hg
      case inr => exact List.mem_singleton.mp hg ▸ hpos
    case le_last =>
      intro g' hg
      rw [hl]
      rcases List.mem_append.mp hg with hg | hg
      case inl => exact Int64.le_of_lt <| hle hg
      case inr => exact List.mem_singleton.mp hg ▸ Int64.le_refl _
    case increasing =>
      refine List.pairwise_append.mpr ⟨h.increasing, List.pairwise_singleton .., fun g' hg _ hm => ?_⟩
      exact List.mem_singleton.mp hm ▸ hle hg

theorem issued_of_run (r : (newGUIDFactory node).Run ts f) : Issued (ids ts) f :=
  r.history_invariant (I := fun ts f => Issued (ids ts) f) ⟨Int64.le_refl _, nofun, nofun, .nil⟩ fun _ _ => Issued.step

-- Whatever the clock does, the IDs are positive and increasing, and so are their names.
theorem ids_increasing (r : (newGUIDFactory node).Run ts f) :
    (∀ g ∈ ids ts, 0 < g) ∧ (ids ts).Pairwise (· < ·) ∧ ((ids ts).map Guid.hex).Nodup ∧
      ((ids ts).map fun g => (Guid.hex g).bytes).Pairwise (· < ·) := by
  have h := issued_of_run r
  have hn {g} (hg : g ∈ ids ts) : 0 ≤ g.toInt := Int64.le_iff_toInt_le.mp <| Int64.le_of_lt <| h.pos g hg
  have hx : (ids ts).Pairwise fun g g' => (Guid.hex g).bytes < (Guid.hex g').bytes :=
    h.increasing.imp_of_mem fun hg hg' hl => (Guid.hex_lt (hn hg) (hn hg')).mpr hl
  refine ⟨h.pos, h.increasing, List.pairwise_map.mpr <| hx.imp fun hl he => ?_, List.pairwise_map.mpr hx⟩
  exact absurd (he ▸ hl) <| lt_irrefl _

-- The clock stands still, goes back, and goes on.
def issued : List (GuidTransition nodeID) × GuidFactory :=
  Machine.trace _ (newGUIDFactory nodeID).init [twepoch + 1, twepoch + 1, twepoch, twepoch + 200]

theorem ids_increasing_issued : (ids issued.1).length = 3 ∧ (ids issued.1).Pairwise (· < ·) :=
  ⟨by decide, ids_increasing (Machine.path_trace ..) |>.right.left⟩

end Nsqd
