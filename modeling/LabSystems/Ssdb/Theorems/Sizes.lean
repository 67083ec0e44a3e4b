import Mathlib.Data.Finset.Card
import LabSystems.Ssdb.Theorems.Step

namespace Ssdb

open Ordered (Map Write)

namespace SSDBImpl

-- The number of records of a hash.
def fields (s : SSDBImpl) (name : Bytes) : Nat :=
  s.ldb.keys.filter (encodeHashKey name [] <+: ·) |>.card

-- The number that is stored as the size of a hash.
def storedSize (s : SSDBImpl) (name : Bytes) : Int :=
  match s.ldb.get (encodeHsizeKey name) with
  | none     => 0
  | some val => (ofMemory val).toInt64.toInt

def Sized (s : SSDBImpl) : Prop :=
  ∀ name, s.storedSize name = s.fields name

-- A call adds a field but does not count it: the call to LevelDB that looks for the field has failed,
-- so that the field does not seem to be new, or the one that looks for the size has failed, or there
-- is no greater size.
def Drifts (s : SSDBImpl) : Action → Prop
  | .hset calls name key val _ =>
    Accepted name key ∧ calls.write = true ∧ s.ldb.get (encodeHashKey name key) = none ∧
      if calls.hget then calls.hsize = false ∨ s.fields name = 2 ^ 63 - 1 else val ≠ []
  | _ => False

instance {s : SSDBImpl} : DecidablePred s.Drifts
  | .hset calls name key val _ =>
    inferInstanceAs <| Decidable (Accepted name key ∧ calls.write = true ∧ s.ldb.get (encodeHashKey name key) = none ∧
      if calls.hget then calls.hsize = false ∨ s.fields name = 2 ^ 63 - 1 else val ≠ [])
  | .set .. | .del .. | .reopen => isFalse id

-- All sizes are stored as 64-bit integers.
def Sizes (s : SSDBImpl) : Prop :=
  ∀ name val, s.ldb.get (encodeHsizeKey name) = some val → val.length = 8

end SSDBImpl

section

variable {s s' : SSDBImpl} {writes : List (Write Bytes Bytes)}

namespace SSDBImpl

theorem toInt_hsize (h : s.Sizes) (hs : s.storedSize name = s.fields name) :
    (s.hsize true name).toInt = s.fields name := by
  rw [← hs]
  unfold hsize ldbGet storedSize
  rw [storedSize] at hs
  cases hg : s.ldb.get (encodeHsizeKey name)
  case none => rfl
  case some val =>
    simp only [hg] at hs
    have hl : ¬(ofMemory val).toInt64 < 0 := by
      rw [Int64.lt_iff_toInt_lt, hs]
      exact Int.not_lt.mpr <| Int.natCast_nonneg _
    simp [h name val hg, hl]

-- The effect of the write of `incrHsize`.
theorem storedSize_sizeWrite {m : DB} (hg : s'.ldb.get (encodeHsizeKey name) =
    ((s.sizeWrite ok name).apply m).get (encodeHsizeKey name)) :
    s'.storedSize name = (s.hsize ok name + 1).toInt := by
  unfold storedSize
  rw [hg, sizeWrite]
  by_cases hz : s.hsize ok name + 1 = 0
  case pos => simp [hz, Write.apply]
  case neg => simp [hz, Write.apply]

theorem length_sizeWrite {m : DB} (hk : k = (s.sizeWrite ok name).key)
    (hg : ((s.sizeWrite ok name).apply m).get k = some val) : val.length = 8 := by
  rw [hk, sizeWrite] at hg
  split at hg
  case isTrue  => simp [Write.apply] at hg
  case isFalse =>
    simp only [Write.apply, Write.key_put, Map.get_insert_self, Option.some.injEq] at hg
    exact hg ▸ length_memory

theorem storedSize_congr (h : s'.ldb.get (encodeHsizeKey name) = s.ldb.get (encodeHsizeKey name)) :
    s'.storedSize name = s.storedSize name := by
  rw [storedSize, h, storedSize]

theorem head?_of_prefix (h : encodeHashKey name [] <+: k) : k.head? = some DataType.hash := by
  have ⟨_, h⟩ := h
  exact h ▸ rfl

theorem fields_congr (h : ∀ k, k.head? = some DataType.hash → s'.ldb.get k = s.ldb.get k) :
    s'.fields name = s.fields name := by
  unfold fields
  congr 1
  ext k
  simp only [Finset.mem_filter, Map.mem_keys]
  exact and_congr_left fun hp => by rw [h k <| head?_of_prefix hp]

-- A record that is put adds a field to its hash if it is new.
theorem fields_put (ha : Accepted name key) (h : ∀ k, k.head? = some DataType.hash →
    s'.ldb.get k = if k = encodeHashKey name key then some val else s.ldb.get k)
    (name' : Bytes) : s'.fields name' = if name' = name ∧ s.ldb.get (encodeHashKey name key) = none then
      s.fields name' + 1 else s.fields name' := by
  have mem {k : Bytes} (hp : encodeHashKey name' [] <+: k) :
      (s'.ldb.get k).isSome ↔ k = encodeHashKey name key ∨ (s.ldb.get k).isSome := by
    rw [h k <| head?_of_prefix hp]
    split <;> simp [*]
  unfold fields
  split
  case isTrue hn =>
    have ⟨hn, hg⟩ := hn
    subst hn
    rw [← Finset.card_insert_of_notMem (a := encodeHashKey name' key) (by simp [Map.mem_keys, hg])]
    congr 1
    ext k
    simp only [Finset.mem_filter, Finset.mem_insert, Map.mem_keys]
    constructor
    case mp => exact fun ⟨hk, hp⟩ => (mem hp |>.mp hk).imp_right fun hk => ⟨hk, hp⟩
    case mpr =>
      intro hk
      have hp : encodeHashKey name' [] <+: k := by
        cases hk
        case inl hk => exact hk ▸ (encodeHashKey_starts ha.name_le ha.key_le).mpr rfl
        case inr hk => exact hk.right
      exact ⟨(mem hp).mpr <| hk.imp_right (·.left), hp⟩
  case isFalse hn =>
    congr 1
    ext k
    simp only [Finset.mem_filter, Map.mem_keys]
    refine and_congr_left fun hp => ?_
    rw [mem hp, or_iff_right_of_imp]
    rintro rfl
    have he := encodeHashKey_starts ha.name_le ha.key_le |>.mp hp
    exact Option.isSome_iff_ne_none.mpr fun hg => hn ⟨he, hg⟩

theorem Sizes.keep (h : s.Sizes) (hk : s'.ldb = s.ldb) : s'.Sizes :=
  fun name val hg => h name val <| hk ▸ hg

theorem Sizes.hsetNew (hs : s.Sizes)
    (h : s.Appends [.put (encodeHashKey name key) val, s.sizeWrite ok name] type cmd k s') : s'.Sizes := by
  intro name' val' hg
  by_cases hk : encodeHsizeKey name' = (s.sizeWrite ok name).key
  case pos => exact length_sizeWrite hk <| h.get_of_head? head?_encodeHsizeKey (by decide) ▸ hg
  case neg =>
    rw [h.get_other head?_encodeHsizeKey (by decide) fun w hm => ?_] at hg
    · exact hs name' val' hg
    · simp only [List.mem_cons, List.not_mem_nil, or_false] at hm
      cases hm
      case inl he => exact he ▸ ne_of_head? rfl head?_encodeHashKey (by decide)
      case inr he => exact he ▸ hk

theorem sized_congr (hk : s'.ldb = s.ldb) : s'.Sized ↔ s.Sized := by
  simp only [Sized, storedSize, fields, hk]

theorem sized_hsetNew (hz : s.Sizes) (hs : s.Sized) (ha : Accepted name key)
    (hn : s.ldb.get (encodeHashKey name key) = none)
    (h : s.Appends [.put (encodeHashKey name key) val, s.sizeWrite ok name] type cmd k s') :
    s'.Sized ↔ ok = true ∧ s.fields name ≠ 2 ^ 63 - 1 := by
  have hw : ∀ w ∈ [s.sizeWrite ok name], w.key.head? = some DataType.hsize := by simp [sizeWrite_key]
  have hf := fields_put ha fun k hk => h.get_hash hk hw
  have hsize := storedSize_sizeWrite <| h.get_of_head? head?_encodeHsizeKey (by decide)
  have other (name' : Bytes) (hne : name' ≠ name) : s'.storedSize name' = s'.fields name' := by
    rw [hf, if_neg fun h => hne h.left, ← hs]
    refine storedSize_congr <| h.get_other rfl (by decide) fun w hm => ?_
    simp only [List.mem_cons, List.not_mem_nil, or_false] at hm
    cases hm
    case inl he => exact he ▸ ne_of_head? rfl head?_encodeHashKey (by decide)
    case inr he =>
      rw [he, sizeWrite_key, ne_eq, encodeHsizeKey_inj]
      exact hne
  have self : s'.Sized ↔ s'.storedSize name = s'.fields name := by
    refine ⟨fun h => h name, fun h name' => ?_⟩
    by_cases hne : name' = name
    case pos => exact hne ▸ h
    case neg => exact other name' hne
  rw [self, hsize, hf, if_pos ⟨rfl, hn⟩]
  cases ok
  case false =>
    have hz : (s.hsize false name + 1).toInt = 0 := by simp [SSDBImpl.hsize, ldbGet]
    rw [hz]
    exact iff_of_false (by omega) (by simp)
  case true =>
    have ht := toInt_hsize hz <| hs name
    have hlt := (s.hsize true name).toInt_lt
    rw [Int64.toInt_add, ht, Int64.toInt_one, Int.bmod]
    simp only [true_and]
    split <;> omega

theorem ret_hget : (s.hget ok name key).ret = 0 ↔
    ok = true ∧ s.ldb.get (encodeHashKey name key) = none := by
  unfold hget ldbGet
  cases ok <;> cases s.ldb.get (encodeHashKey name key) <;> simp [GetResult.ret]

-- If a field is not there, but is not known to be new, then the search for it has failed.
theorem hget_of_ret_ne (hr : (s.hget ok name key).ret ≠ 0)
    (hn : s.ldb.get (encodeHashKey name key) = none) :
    ok = false ∧ (s.hget ok name key).val = [] := by
  cases ok
  case false => exact ⟨rfl, rfl⟩
  case true  => exact absurd (ret_hget.mpr ⟨rfl, hn⟩) hr

-- Writes to the keys of the other map.
theorem sized_kv {w : Write Bytes Bytes} (h : s.Appends [w] type cmd k s')
    (hw : w.key.head? = some DataType.kv) : s'.Sized ↔ s.Sized := by
  have other (key : Bytes) (hk : key.head? = some DataType.hash ∨ key.head? = some DataType.hsize) :
      s'.ldb.get key = s.ldb.get key := by
    rcases hk with hk | hk <;> refine h.get_other hk (by decide) fun w' hm => ?_ <;>
      exact List.mem_singleton.mp hm ▸ ne_of_head? hk hw (by decide)
  have size (name : Bytes) := storedSize_congr <| other (encodeHsizeKey name) (.inr rfl)
  have field (name : Bytes) : s'.fields name = s.fields name :=
    fields_congr fun k hk => other k (.inl hk)
  simp only [Sized, size, field]

theorem sized_hsetOver (hs : s.Sized) (ha : Accepted name key)
    (h : s.Appends [.put (encodeHashKey name key) val] type cmd k s') :
    s'.Sized ↔ s.ldb.get (encodeHashKey name key) ≠ none := by
  have hf := fields_put ha fun k hk => h.get_hash hk (by simp)
  have size (name' : Bytes) : s'.storedSize name' = s.storedSize name' :=
    storedSize_congr <| h.get_other rfl (by decide) fun w hm =>
      List.mem_singleton.mp hm ▸ ne_of_head? rfl head?_encodeHashKey (by decide)
  constructor
  case mp =>
    intro hs' hn
    have he := hs' name
    rw [size, hs, hf, if_pos ⟨rfl, hn⟩] at he
    omega
  case mpr =>
    intro hn name'
    rw [size, hs, hf, if_neg fun h => hn h.right]

end SSDBImpl

theorem Step.sizes (h : Step s a s') (hs : s.Sizes) : s'.Sizes := by
  cases h
  case setKeep hk | delKeep hk | hsetRefused hk | hsetFailed hk | hsetSame hk => exact hs.keep hk.ldb
  case reopen => exact hs.keep rfl
  case set ha | del ha | hsetOver ha =>
    intro name val hg
    rw [ha.get_other head?_encodeHsizeKey (by decide) fun w hm => ?_] at hg
    · exact hs name val hg
    · exact List.mem_singleton.mp hm ▸ ne_of_head? rfl rfl (by decide)
  case hsetNew ha => exact hs.hsetNew ha

theorem Step.sized (h : Step s a s') (hz : s.Sizes) (hs : s.Sized) : s'.Sized ↔ ¬s.Drifts a := by
  cases h
  case setKeep hk | delKeep hk => exact iff_of_true (SSDBImpl.sized_congr hk.ldb |>.mpr hs) id
  case reopen => exact iff_of_true (SSDBImpl.sized_congr rfl |>.mpr hs) id
  case set ha => exact iff_of_true (SSDBImpl.sized_kv ha rfl |>.mpr hs) id
  case del ha => exact iff_of_true (SSDBImpl.sized_kv ha rfl |>.mpr hs) id
  case hsetRefused hr hk =>
    exact iff_of_true (SSDBImpl.sized_congr hk.ldb |>.mpr hs) fun ⟨ha, _⟩ => hr ha
  case hsetFailed hf hk =>
    refine iff_of_true (SSDBImpl.sized_congr hk.ldb |>.mpr hs) fun ⟨_, hw, _⟩ => ?_
    cases hf.symm.trans hw
  case hsetSame hac ht hs' hk =>
    refine iff_of_true (SSDBImpl.sized_congr hk.ldb |>.mpr hs) fun ⟨_, _, hn, hd⟩ => ?_
    have ⟨hf, hv⟩ := SSDBImpl.hget_of_ret_ne ht hn
    rw [hv] at hs'
    simp [hf, ← hs'] at hd
  case hsetOver hac hw ht hv ha =>
    rw [SSDBImpl.sized_hsetOver hs hac ha, SSDBImpl.Drifts, not_iff_not]
    refine ⟨fun hn => ⟨hac, hw, hn, ?_⟩, fun ⟨_, _, hn, _⟩ => hn⟩
    have ⟨hf, he⟩ := SSDBImpl.hget_of_ret_ne ht hn
    rw [hf] at he
    simpa [hf, he, eq_comm] using hv
  case hsetNew hac hw hr ha =>
    have ⟨hg, hn⟩ := SSDBImpl.ret_hget.mp hr
    rw [SSDBImpl.sized_hsetNew hz hs hac hn ha, SSDBImpl.Drifts]
    simp [hac, hw, hn, hg]

theorem sizes_of_run (r : ssdb.Run ts s) : s.Sizes :=
  r.invariant (I := SSDBImpl.Sizes) (fun _ _ hg => by cases hg) fun t => Step.of t |>.sizes

theorem SSDBImpl.Sized.init : Sized (.open .empty) :=
  fun _ => rfl

theorem sized_of_post (r : ssdb.Run ts s) (h : ∀ t ∈ ts, t.post.Sized) : s.Sized := by
  cases r
  case nil      => exact .init
  case snoc t _ => exact h t <| by simp

-- The stored sizes are right as long as no call adds a field without counting it.
theorem sized_iff (r : ssdb.Run ts s) :
    (∀ t ∈ ts, t.post.Sized) ↔ ∀ t ∈ ts, ¬t.pre.Drifts t.act := by
  induction r
  case nil => simp
  case snoc ts t r hi =>
    simp only [List.forall_mem_append, List.forall_mem_singleton, ← hi]
    exact and_congr_right fun h => Step.of t |>.sized (sizes_of_run r) <| sized_of_post r h

-- The search for a field fails, and the field is added to an empty hash.
theorem not_sized_hget : ¬∀ (ts : List Transition) (s : SSDBImpl), ssdb.Run ts s → s.Sized := by
  intro h
  have hs := h _ _ (ssdb.path_trace (.open .empty) [.hset ⟨false, true, true⟩ [110] [102] [1] BinlogType.sync]) [110]
  exact absurd hs (by decide)

-- Two calls on the same field, the second of which fails to find it.
def stored : List Transition × SSDBImpl :=
  ssdb.trace (.open .empty)
    [.hset ⟨true, true, true⟩ [110] [102] [1] BinlogType.sync, .hset ⟨false, true, true⟩ [110] [102] [] BinlogType.sync]

theorem sized_stored : stored.1.length = 2 ∧ stored.2.Sized :=
  ⟨rfl, (sized_iff <| ssdb.path_trace ..).mpr (by decide) _ <| stored.1.getLast_mem (by decide)⟩

end

end Ssdb
