import LabSystems.Framing.Reader
import LabSystems.Ssdb.Link

namespace Ssdb

open Framing (Reader)

namespace Buffer

variable {heap : Nat → UInt8} {b b' : Buffer}

-- A chunk that is appended comes after the data.
theorem data_append (h : (b.append heap p).2 ≠ -1) : (b.append heap p).1.data = b.data ++ p := by
  fun_induction append heap b p
  case case1       => exact absurd rfl h
  case case2 hg hi => rw [hi h, (grow_eq_some hg).right.right]
  case case3       => rfl

theorem data_nice : b.nice.data = b.data := by
  unfold nice
  split <;> rfl

theorem data_reserve : (b.reserve heap).1.data = b.data := by
  simp only [reserve]
  split
  case isFalse => rfl
  case isTrue  =>
    split
    case isFalse => exact data_nice
    case isTrue  =>
      split
      case h_1    => exact data_nice
      case h_2 hg => exact (grow_eq_some hg).right.right.trans data_nice

-- There is memory for twice the data, if that is not too much.
theorem reserve_ne (h : b.size < 2 ^ 29) : (b.reserve heap).2 ≠ -1 := by
  have grow {b : Buffer} (hg : b.grow heap = none) : 2 ^ 30 ≤ b.total := by
    unfold Buffer.grow newTotal at hg
    split_ifs at hg
    all_goals omega
  simp only [reserve]
  split_ifs with hs hn
  case pos =>
    split
    case h_2 => simp
    case h_1 hg =>
      have hg := grow hg
      unfold nice at hg hn
      split at hg
      case isTrue hm =>
        rw [if_pos hm] at hn
        simp only [total, space, size, List.length_nil, List.length_drop, List.length_append] at *
        omega
      case isFalse hm =>
        simp only [total, space, size] at *
        omega
  all_goals simp

-- What is left of the data at a place.
structure From (b : Buffer) (head : Int) (l : Bytes) : Prop where
  nonneg : 0 ≤ head
  drop   : b.data.drop head.toNat = l
  le     : head.toNat ≤ b.data.length

namespace From

variable {head : Int}

theorem zero (h : b.data = l) : b.From 0 l :=
  ⟨le_refl _, h, Nat.zero_le _⟩

theorem skip (h : b.From head (l ++ l')) : b.From (head + l.length) l' where
  nonneg := Int.add_nonneg h.nonneg <| Int.natCast_nonneg _
  drop   := by
    rw [Int.toNat_add h.nonneg (Int.natCast_nonneg _), Int.toNat_natCast, ← List.drop_drop, h.drop, List.drop_left]
  le     := by
    have hl := congrArg List.length h.drop
    have hn := h.nonneg
    have hle := h.le
    simp only [List.length_drop, List.length_append] at hl
    omega

theorem length (h : b.From head l) : head + l.length = b.size := by
  have hl := congrArg List.length h.drop
  have hn := h.nonneg
  have hle := h.le
  simp only [List.length_drop] at hl
  unfold size
  omega

theorem memory (h : b.From head l) : b.memory.drop head.toNat = l ++ b.after := by
  rw [Buffer.memory, List.drop_append_of_le_length h.le, h.drop]

theorem view {n : Int} (h : b.From head l) (hn : n ≤ l.length) : b.view ⟨head, n⟩ = l.take n.toNat := by
  have hl : n.toNat ≤ l.length := by omega
  rw [Buffer.view, h.memory, List.take_append_of_le_length hl]

theorem byte (h : b.From head (c :: l)) : b.byte head = c := by
  have hm := congrArg (·[0]?) h.memory
  simp only [List.getElem?_drop, Nat.add_zero, List.cons_append, List.getElem?_cons_zero] at hm
  rw [Buffer.byte, List.getD_eq_getElem?_getD, hm, Option.getD_some]

theorem memchr (h : b.From head l) : b.memchr c head l.length = (l.findIdx? (· = c)).map fun (i : Nat) => head + i := by
  rw [Buffer.memchr, h.view (le_refl _), Int.toNat_natCast, List.take_length]

end From

end Buffer

namespace Link

variable {double : Bytes → Int64} {heap : Nat → UInt8} {b : Buffer}

-- What a link reads. A call that returns NULL, or an empty request, is the last one.
def reader (double : Bytes → Int64) (heap : Nat → UInt8) (message : Call → Option μ) : Reader Buffer Call μ UInt8 where
  data       := Buffer.data
  read input :=
    let r := recvReq double heap input
    (r.1, if r.1.req = none then none else some r.2)
  stops call := call.req = none ∨ call.req = some []
  message    := message

theorem drain_reads (message : Call → Option μ) :
    (reader double heap message).Reads b (drain double heap b).1 (drain double heap b).2 := by
  fun_induction drain double heap b
  case case1 b r h =>
    have he : ((reader double heap message).read b).2 = none := if_pos h
    exact he ▸ .stop (.inl h)
  case case2 b r h =>
    have he : ((reader double heap message).read b).2 = some r.2 := if_neg <| by simp [r, h]
    exact he ▸ .stop (.inr h)
  case case3 b r _ _ h rest hi =>
    have he : ((reader double heap message).read b).2 = some r.2 := if_neg <| by simp [r, h]
    refine .next ?_ he hi
    simp only [reader]
    simp [r] at h
    simp [h]

end Link

abbrev LinkTransition (double : Bytes → Int64) (heap : Nat → UInt8) :=
  (link double heap).Transition

-- The chunk has been appended to the input.
def LinkTransition.Appends (t : LinkTransition double heap) : Prop :=
  ∀ b ∈ t.pre, (b.append heap t.act).2 ≠ -1

instance {t : LinkTransition double heap} : Decidable t.Appends :=
  inferInstanceAs <| Decidable <| ∀ b ∈ t.pre, (b.append heap t.act).2 ≠ -1

namespace Link

open Machine (events)

variable {double : Bytes → Int64} {heap : Nat → UInt8} {message : Call → Option μ} {Rest : List μ → Bytes → Prop}
  {Good : Call → Prop} {ms : List μ} {ts : List (LinkTransition double heap)} {s : Option Buffer}

-- What has been read in a run, when more data is going to come.
structure Received (message : Call → Option μ) (Rest : List μ → Bytes → Prop) (Good : Call → Prop) (ms : List μ)
    (calls : List Call) (s : Option Buffer) (later : Bytes) : Prop where
  good : ∀ c ∈ calls, Good c
  rest : ∃ ms', ms = calls.filterMap message ++ ms' ∧ (later = [] → ms' = []) ∧ (s = none → later ≠ []) ∧
    ∀ b, s = some b → Rest ms' (b.data ++ later)

theorem Received.step (h : (reader double heap message).Correct Rest Good) (t : LinkTransition double heap)
    (ha : t.Appends) (hr : Received message Rest Good ms calls t.pre (t.act ++ later)) :
    Received message Rest Good ms (calls ++ t.events) t.post later := by
  have ⟨hg, ms₁, he, hl, _, hrest⟩ := hr
  have ⟨b, hb, hv⟩ := Option.map_eq_some_iff.mp t.valid
  have hpost : t.post = (onRead double heap b t.act).2 := (congrArg Prod.fst hv).symm
  have hevents : t.events = (onRead double heap b t.act).1 := (congrArg Prod.snd hv).symm
  have hrest := hrest b hb
  rw [hpost, hevents, onRead]
  split
  case isTrue hn =>
    rw [hn, List.nil_append] at hl hrest
    refine ⟨by simpa using hg, ms₁, by simpa using he, hl, nofun, fun b' hb' => ?_⟩
    cases hb'
    exact hrest
  case isFalse =>
    have hd := Buffer.data_append (ha b hb)
    rw [← List.append_assoc, ← hd] at hrest
    have ⟨hg', ms₂, he', hl', hn', hrest'⟩ := h.reads (drain_reads message) hrest
    refine ⟨fun c hc => (List.mem_append.mp hc).elim (hg c) (hg' c), ms₂, ?_, hl', hn', hrest'⟩
    rw [List.filterMap_append, List.append_assoc, he, he']
    rfl

-- All messages are read that are in the chunks.
theorem received_of_run (h : (reader double heap message).Correct Rest Good) (hn : ∀ ms, Rest ms [] → ms = [])
    (r : (link double heap).Run ts s) (ha : ∀ t ∈ ts, LinkTransition.Appends t)
    (hs : Rest ms (ts.flatMap (·.act))) :
    (∀ c ∈ events ts, Good c) ∧ (events ts).filterMap message = ms ∧ ∃ b, s = some b ∧ Rest [] b.data := by
  have hr : ∀ later, Rest ms (ts.flatMap (·.act) ++ later) → Received message Rest Good ms (events ts) s later := by
    refine r.history_invariant (I := fun ts s => (∀ t ∈ ts, LinkTransition.Appends t) → ∀ later,
      Rest ms (ts.flatMap (·.act) ++ later) → Received message Rest Good ms (events ts) s later) ?_ ?_ ha
    case refine_1 =>
      refine fun _ later hs => ⟨by simp, ms, rfl, fun hl => hn ms <| by simpa [hl] using hs, nofun, fun b hb => ?_⟩
      cases hb
      exact hs
    case refine_2 =>
      intro ts t hi ha later hs
      have hi := hi (fun u hu => ha u <| List.mem_append_left _ hu) (t.act ++ later) (by simpa using hs)
      simpa using hi.step h t (ha t <| by simp)
  have ⟨hg, ms', he, hl, hsome, hrest⟩ := hr [] (by simpa using hs)
  have hm := hl rfl
  cases s
  case none => exact absurd rfl (hsome rfl)
  case some b =>
    refine ⟨hg, by simpa [hm] using he.symm, b, rfl, ?_⟩
    simpa [hm] using hrest b rfl

end Link

end Ssdb
