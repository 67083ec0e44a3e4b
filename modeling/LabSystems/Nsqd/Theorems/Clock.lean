import LabSystems.Nsqd.Theorems.Guid

namespace Nsqd

open Machine (events)

-- The timestamps that fit into an ID.
def Fits (ts : Int64) : Prop :=
  twepoch.toInt ≤ ts.toInt ∧ ts.toInt < twepoch.toInt + 2 ^ 41

instance : Decidable (Fits ts) :=
  inferInstanceAs <| Decidable (_ ∧ _)

-- The node number has more bits than there are for it, and sets bits of the timestamp.
def overlapped (ts : Int64) : Int64 :=
  ts - twepoch ||| nodeID >>> nodeIDBits

namespace Fits

variable {ts s : Int64}

theorem toNat_lt (h : Fits ts) : (ts - twepoch).toBitVec.toNat < 2 ^ 41 := by
  have ⟨h₀, h₁⟩ := h
  have hs : (ts - twepoch).toInt = ts.toInt - twepoch.toInt := by
    rw [Int64.toInt_sub]
    exact Int.bmod_eq_of_le (by omega) (by omega)
  have hn := Guid.toNat_toUInt64 (g := ts - twepoch) <| hs ▸ by omega
  change ((ts - twepoch).toBitVec.toNat : Int) = _ at hn
  omega

theorem toInt_of_toNat {x : Int64} (h : x.toBitVec.toNat = n) (hn : n < 2 ^ 63) : x.toInt = n := by
  have he : x.toInt = x.toBitVec.toInt := rfl
  rw [he, BitVec.toInt_eq_toNat_of_lt (by omega), h]

theorem toInt_overlapped (h : Fits ts) : (overlapped ts).toInt = ((ts - twepoch).toBitVec.toNat ||| 120 : Nat) := by
  refine toInt_of_toNat ?_ <| (Nat.or_lt_two_pow h.toNat_lt (by decide)).trans (by decide)
  rw [overlapped, Int64.toBitVec_or, BitVec.toNat_or]
  rfl

-- An ID is the overlapped timestamp and what remains of the node number and the sequence.
theorem toInt_id (h : Fits ts) (hs : s.toBitVec.toNat < 2 ^ 12) :
    (GuidFactory.id nodeID ts s).toInt = (overlapped ts).toInt * 2 ^ 22 + (576 * 2 ^ 12 + s.toBitVec.toNat) := by
  have hl := h.toNat_lt
  have hx : ((ts - twepoch) <<< timestampShift).toBitVec.toNat = (ts - twepoch).toBitVec.toNat <<< 22 := by
    change ((ts - twepoch).toBitVec <<< 22).toNat = _
    rw [BitVec.toNat_shiftLeft, Nat.shiftLeft_eq]
    omega
  have hn : (nodeID <<< nodeIDShift).toBitVec.toNat = 120 <<< 22 ||| 576 <<< 12 := by decide
  have hlow : 576 <<< 12 ||| s.toBitVec.toNat = 576 * 2 ^ 12 + s.toBitVec.toNat := by
    rw [← Nat.shiftLeft_add_eq_or_of_lt hs, Nat.shiftLeft_eq]
  have hid : (GuidFactory.id nodeID ts s).toBitVec.toNat =
      ((ts - twepoch).toBitVec.toNat ||| 120) * 2 ^ 22 + (576 * 2 ^ 12 + s.toBitVec.toNat) := by
    rw [GuidFactory.id, Int64.toBitVec_or, Int64.toBitVec_or, BitVec.toNat_or, BitVec.toNat_or, hx, hn,
      ← Nat.or_assoc, ← Nat.shiftLeft_or_distrib, Nat.or_assoc, hlow,
      ← Nat.shiftLeft_add_eq_or_of_lt (by omega), Nat.shiftLeft_eq]
  have ho : (ts - twepoch).toBitVec.toNat ||| 120 < 2 ^ 41 := Nat.or_lt_two_pow hl (by decide)
  rw [toInt_of_toNat hid (by omega), h.toInt_overlapped]
  push_cast
  rfl

end Fits

-- The last ID belongs to the last timestamp.
structure Tracks (f : GuidFactory) : Prop where
  nodeID   : f.nodeID = nodeID
  fits     : Fits f.lastTimestamp
  sequence : f.sequence.toBitVec.toNat < 2 ^ 12
  lastID   : ∃ s : Int64, s.toBitVec.toNat < 2 ^ 12 ∧ f.lastID = GuidFactory.id Nsqd.nodeID f.lastTimestamp s

namespace GuidFactory

variable {f : GuidFactory} {ts : Int64}

-- A call with a new timestamp starts with the first sequence.
theorem newGUID_moves (h : f.lastTimestamp < ts) : f.newGUID ts =
    if id f.nodeID ts 0 ≤ f.lastID then
      (.error errIDBackwards, { f with sequence := 0, lastTimestamp := ts })
    else
      (.ok <| id f.nodeID ts 0, { f with sequence := 0, lastTimestamp := ts, lastID := id f.nodeID ts 0 }) := by
  have hn : ¬ts < f.lastTimestamp := Int64.not_lt.mpr <| Int64.le_of_lt h
  have he : f.lastTimestamp ≠ ts := Int64.ne_of_lt h
  simp only [newGUID, if_neg hn, he, false_and, if_false]

theorem tracks_same (h : Tracks f) : Tracks (f.newGUID f.lastTimestamp).2 ∧
    (f.newGUID f.lastTimestamp).2.lastTimestamp = f.lastTimestamp := by
  have hs : ((f.sequence + 1) &&& sequenceMask).toBitVec.toNat < 2 ^ 12 := by
    rw [Int64.toBitVec_and, BitVec.toNat_and]
    exact Nat.and_lt_two_pow _ (by decide)
  have ⟨hn, hf, _, hl⟩ := h
  have hi : ¬f.lastTimestamp < f.lastTimestamp := Int64.lt_irrefl
  simp only [newGUID, if_neg hi, if_true, true_and]
  generalize f.sequence + 1 &&& sequenceMask = seq at hs ⊢
  split_ifs
  · exact ⟨⟨hn, hf, hs, hl⟩, rfl⟩
  · exact ⟨⟨hn, hf, hs, hl⟩, rfl⟩
  · exact ⟨⟨hn, hf, hs, _, hs, hn ▸ rfl⟩, rfl⟩

theorem ok_iff (h : Tracks f) (hts : Fits ts) (hl : f.lastTimestamp < ts) :
    (∃ g, (f.newGUID ts).1 = .ok g) ↔ overlapped f.lastTimestamp < overlapped ts := by
  have ⟨s, hs, he⟩ := h.lastID
  have hlast := h.fits.toInt_id hs
  have hid := hts.toInt_id (s := 0) (by decide)
  have hle : id f.nodeID ts 0 ≤ f.lastID ↔ ¬overlapped f.lastTimestamp < overlapped ts := by
    rw [h.nodeID, he, Int64.le_iff_toInt_le, Int64.lt_iff_toInt_lt, hlast, hid]
    change _ + (_ + ((0 : Nat) : Int)) ≤ _ ↔ _
    omega
  rw [newGUID_moves hl]
  split
  case isTrue hc  => exact iff_of_false (fun ⟨_, h⟩ => nomatch h) (hle.mp hc)
  case isFalse hc => exact iff_of_true ⟨_, rfl⟩ (not_not.mp <| mt hle.mpr hc)

theorem tracks_moves (hn : f.nodeID = Nsqd.nodeID) (hts : Fits ts) (hl : f.lastTimestamp < ts)
    (h : ∃ g, (f.newGUID ts).1 = .ok g) : Tracks (f.newGUID ts).2 ∧ (f.newGUID ts).2.lastTimestamp = ts := by
  rw [newGUID_moves hl] at h ⊢
  split at h
  case isTrue  => exact h.elim nofun
  case isFalse hc =>
    have hs : (0 : Int64).toBitVec.toNat < 2 ^ 12 := by decide
    rw [if_neg hc]
    exact ⟨⟨hn, hts, hs, 0, hs, hn ▸ rfl⟩, rfl⟩

end GuidFactory

-- The timestamps differ in the bits that the node number does not set.
def Separated (clock : List Int64) : Prop :=
  clock.Pairwise fun a b => a < b → overlapped a < overlapped b

instance {clock : List Int64} : Decidable (Separated clock) :=
  inferInstanceAs <| Decidable (List.Pairwise ..)

-- What is known of a factory after its calls: nothing has happened, or the last timestamp is the greatest
-- one, and it is separated from the others.
def Follows (clock : List Int64) (f : GuidFactory) : Prop :=
  clock = [] ∧ f = { nodeID } ∨
  Tracks f ∧ f.lastTimestamp ∈ clock ∧
    ∀ a ∈ clock, a = f.lastTimestamp ∨ a < f.lastTimestamp ∧ overlapped a < overlapped f.lastTimestamp

namespace Follows

variable {f : GuidFactory} {ts : Int64} {clock : List Int64}

theorem first (hf : f = { nodeID }) (hts : Fits ts) : f.lastTimestamp < ts ∧ ∃ g, (f.newGUID ts).1 = .ok g := by
  have hn : f.nodeID = nodeID := hf ▸ rfl
  have ht : f.lastTimestamp = 0 := hf ▸ rfl
  have hl : f.lastID = 0 := hf ▸ rfl
  have hpos : f.lastTimestamp < ts := by
    have ⟨h, _⟩ := hts
    have ht₀ : (0 : Int64).toInt < twepoch.toInt := by decide
    exact Int64.lt_iff_toInt_lt.mpr <| ht ▸ by omega
  have hid : ¬GuidFactory.id nodeID ts 0 ≤ 0 := by
    have hi := hts.toInt_id (s := 0) (by decide)
    rw [hts.toInt_overlapped] at hi
    rw [Int64.le_iff_toInt_le, hi, Int64.toInt_zero]
    omega
  refine ⟨hpos, GuidFactory.id nodeID ts 0, ?_⟩
  rw [GuidFactory.newGUID_moves hpos, hn, hl, if_neg hid]

theorem ok_iff (h : Follows clock f) (hts : Fits ts) (hl : ∀ a ∈ clock, a ≤ ts) :
    (f.lastTimestamp < ts → ∃ g, (f.newGUID ts).1 = .ok g) ↔ ∀ a ∈ clock, a < ts → overlapped a < overlapped ts := by
  rcases h with ⟨rfl, rfl⟩ | ⟨ht, hm, ha⟩
  case inl => exact iff_of_true (fun _ => (first rfl hts).right) nofun
  case inr =>
    rcases Int64.lt_or_eq_of_le (hl _ hm) with hlt | rfl
    case inl =>
      rw [forall_prop_of_true hlt, GuidFactory.ok_iff ht hts hlt]
      constructor
      case mp =>
        intro ho a hma _
        rcases ha a hma with rfl | ⟨_, hoa⟩
        case inl => exact ho
        case inr => exact Int64.lt_trans hoa ho
      case mpr => exact fun h => h _ hm hlt
    case inr =>
      refine iff_of_true (fun h => absurd h Int64.lt_irrefl) fun a hma hlt => ?_
      exact (ha a hma).elim (fun he => absurd (he ▸ hlt) Int64.lt_irrefl) And.right

theorem step (h : Follows clock f) (hts : Fits ts) (hl : ∀ a ∈ clock, a ≤ ts)
    (hok : f.lastTimestamp < ts → ∃ g, (f.newGUID ts).1 = .ok g) : Follows (clock ++ [ts]) (f.newGUID ts).2 := by
  have ho := (h.ok_iff hts hl).mp hok
  refine .inr ?_
  rcases h with ⟨rfl, rfl⟩ | ⟨ht, hm, ha⟩
  case inl =>
    have ⟨hpos, hg⟩ := first rfl hts
    have ⟨ht, he⟩ := GuidFactory.tracks_moves (f := { nodeID }) rfl hts hpos hg
    refine ⟨ht, by simp [he], fun a hma => .inl ?_⟩
    rw [he]
    exact List.mem_singleton.mp hma
  case inr =>
    rcases Int64.lt_or_eq_of_le (hl _ hm) with hlt | rfl
    case inl =>
      have ⟨ht', he⟩ := GuidFactory.tracks_moves ht.nodeID hts hlt <| hok hlt
      refine ⟨ht', by simp [he], fun a hma => ?_⟩
      rw [he]
      rcases List.mem_append.mp hma with hma | hma
      case inl =>
        have hat : a < ts := (ha a hma).elim (fun h => h ▸ hlt) fun h => Int64.lt_trans h.left hlt
        exact .inr ⟨hat, ho a hma hat⟩
      case inr => exact .inl <| List.mem_singleton.mp hma
    case inr =>
      have ⟨ht', he⟩ := GuidFactory.tracks_same ht
      refine ⟨ht', by simp [he], fun a hma => ?_⟩
      rw [he]
      rcases List.mem_append.mp hma with hma | hma
      case inl => exact ha a hma
      case inr => exact .inl <| List.mem_singleton.mp hma

end Follows

-- Every call whose timestamp is new succeeds.
def Moves (ts : List (GuidTransition nodeID)) : Prop :=
  ∀ t ∈ ts, t.pre.lastTimestamp < t.act → ∃ g, t.events = [.ok g]

def clock (ts : List (GuidTransition nodeID)) : List Int64 :=
  ts.map (·.act)

section

variable {ts : List (GuidTransition nodeID)} {t : GuidTransition nodeID} {f : GuidFactory}

theorem moves_snoc : Moves (ts ++ [t]) ↔
    Moves ts ∧ (t.pre.lastTimestamp < t.act → ∃ g, (t.pre.newGUID t.act).1 = .ok g) := by
  simp only [Moves, List.forall_mem_append, List.forall_mem_singleton, t.post_eq.right, List.cons.injEq, and_true]

theorem clock_snoc : clock (ts ++ [t]) = clock ts ++ [t.act] :=
  List.map_append

theorem separated_snoc {a : Int64} {as : List Int64} :
    Separated (as ++ [a]) ↔ Separated as ∧ ∀ b ∈ as, b < a → overlapped b < overlapped a := by
  simp [Separated, List.pairwise_append]

-- A clock that does not go back gives an ID whenever it has moved if, and only if, it moves in the bits
-- that the node number does not set.
theorem moves_iff (r : (newGUIDFactory nodeID).Run ts f) (forward : (clock ts).Pairwise (· ≤ ·))
    (fits : ∀ a ∈ clock ts, Fits a) : Moves ts ↔ Separated (clock ts) := by
  suffices h : (Moves ts ↔ Separated (clock ts)) ∧ (Moves ts → Follows (clock ts) f) from h.left
  induction r
  case nil => exact ⟨iff_of_true nofun .nil, fun _ => .inl ⟨rfl, rfl⟩⟩
  case snoc t p hi =>
    rw [clock_snoc] at forward fits
    have ⟨forward, _, hl⟩ := List.pairwise_append.mp forward
    have ⟨fits, ft⟩ := List.forall_mem_append.mp fits
    have ht := List.forall_mem_singleton.mp ft
    have hl {a} (ha : a ∈ clock _) := hl a ha _ <| List.mem_singleton_self _
    have ⟨hi, hf⟩ := hi forward fits
    rw [moves_snoc, clock_snoc, separated_snoc, ← hi, (GuidTransition.post_eq t).left]
    exact ⟨and_congr_right fun hm => (hf hm).ok_iff ht fun _ => hl, fun h => (hf h.left).step ht (fun _ => hl) h.right⟩

end

theorem fits_of_all {l : List Int64} (h : l.all fun a => decide (Fits a)) : ∀ a ∈ l, Fits a :=
  fun a ha => of_decide_eq_true <| List.all_eq_true.mp h a ha

-- The clock stands still, and then moves by 128.
def moved : List (GuidTransition nodeID) × GuidFactory :=
  Machine.trace _ (newGUIDFactory nodeID).init [twepoch + 7, twepoch + 7, twepoch + 135]

theorem moves_moved : Moves moved.1 :=
  moves_iff (Machine.path_trace ..) (by decide) (fits_of_all <| by decide) |>.mpr <| by decide

-- The clock moves by one.
def unmoved : List (GuidTransition nodeID) × GuidFactory :=
  Machine.trace _ (newGUIDFactory nodeID).init [twepoch + 7, twepoch + 8]

theorem not_moves : (clock unmoved.1).Pairwise (· ≤ ·) ∧ (∀ a ∈ clock unmoved.1, Fits a) ∧ ¬Moves unmoved.1 ∧
    events unmoved.1 = [.ok 535035904, .error errIDBackwards] := by
  refine ⟨by decide, fits_of_all <| by decide, fun h => ?_, by decide⟩
  have ⟨_, he⟩ := h _ (List.mem_cons_of_mem _ <| List.mem_singleton_self _) (by decide)
  cases he

end Nsqd
