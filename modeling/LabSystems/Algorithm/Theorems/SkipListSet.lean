import LabSystems.Algorithm.Theorems.SkipList
import Mathlib.Order.BooleanAlgebra.Set

namespace Algorithm.SkipList

open Linked
open Machine (events)

variable {s s' : SkipList} {es lo hi : List Entry} {e : Entry} {x y z : Addr} {i j : Nat} {k : Int32}

-- What a call of `remove` does that takes out a node.
structure Removed (s s' : SkipList) (lo : List Entry) (e : Entry) : Prop where
  head   : s'.head = s.head
  key    : ∀ z, z ≠ e.addr → s'.key z = s.key z
  room   : ∀ z, z ≠ e.addr → s'.room z = s.room z
  linked : ∀ i ≤ e.height, s'.forward (s.pred lo i) i = s.forward e.addr i ∧
    ∀ z, z ≠ e.addr → z ≠ s.pred lo i → s'.forward z i = s.forward z i
  others : ∀ i, e.height < i → ∀ z, z ≠ e.addr → s'.forward z i = s.forward z i

namespace Valid

theorem not_mem_middle (h : s.Valid (lo ++ e :: hi)) : e.addr ∉ s.head :: (lo ++ hi).map (·.addr) := by
  have hperm : (s.head :: (lo ++ e :: hi).map (·.addr)).Perm <| e.addr :: s.head :: (lo ++ hi).map (·.addr) :=
    ((List.perm_middle.map _).cons _).trans <| List.Perm.swap ..
  exact (List.nodup_cons.mp <| hperm.nodup_iff.mp h.nodup).left

-- The node is after its place in exactly the lists that it is in.
theorem forward_pred_eq_iff (h : s.Valid (lo ++ e :: hi)) (hi' : i ≤ MAX_LEVEL) :
    s.forward (s.pred lo i) i = some e.addr ↔ i ≤ e.height := by
  rw [h.forward_pred hi']
  by_cases hle : i ≤ e.height
  case pos => simp [addrs, hle]
  case neg =>
    have hskip : addrs i (e :: hi) = addrs i hi := by simp [addrs, hle]
    have hm : (addrs i hi).headD s.head ∈ s.head :: (lo ++ hi).map (·.addr) := by
      cases hl : addrs i hi
      case nil      => exact List.mem_cons_self
      case cons y l =>
        have hy : y ∈ addrs i hi := hl ▸ List.mem_cons_self
        rw [List.map_append]
        exact List.mem_cons_of_mem _ <| List.mem_append_right _ <| addrs_sublist.subset hy
    rw [hskip, Option.some.injEq]
    exact ⟨fun he => absurd (he ▸ hm) h.not_mem_middle, fun hle' => absurd hle' hle⟩

theorem pred_ne (h : s.Valid (lo ++ e :: hi)) : s.pred lo i ≠ e.addr := by
  have hm : s.pred lo i ∈ s.head :: addrs i lo := List.getLastD_mem_cons
  refine fun he => h.not_mem_middle <| he ▸ List.mem_cons.mpr ((List.mem_cons.mp hm).imp_right fun hm => ?_)
  rw [List.map_append]
  exact List.mem_append_left _ <| addrs_sublist.subset hm

theorem addrs_middle (hle : i ≤ e.height) : addrs i (lo ++ e :: hi) = addrs i lo ++ e.addr :: addrs i hi := by
  simp [addrs, hle]

theorem forward_isSome (h : s.Valid (lo ++ e :: hi)) (hi' : i ≤ MAX_LEVEL) (hle : i ≤ e.height) :
    (s.forward e.addr i).isSome := by
  have hc := h.chain i hi'
  rw [addrs_middle hle] at hc
  rw [hc.drop.right.next_eq]
  rfl

theorem unlink_spec {t : SkipList} (h : s.Valid (lo ++ e :: hi)) (hi' : i + n = s.level + 1) (ht : Frame s t)
    (hf : ∀ j ≥ i, ∀ z, t.forward z j = s.forward z j) :
    ∃ t' ∈ t.unlink ((List.range (s.level + 1)).map (s.pred lo)) e.addr (List.range' i n), Frame t t' ∧
      ∀ z j, t'.forward z j = if i ≤ j ∧ j ≤ e.height ∧ z = s.pred lo j then s.forward e.addr j else t.forward z j := by
  have hheight := (h.height e <| by simp).right
  have hlevel := h.level
  induction n generalizing i t
  case zero =>
    refine ⟨t, rfl, .refl t, fun z j => ?_⟩
    rw [if_neg (by omega)]
  case succ n hind =>
    rw [List.range'_succ, unlink]
    simp only [getElem?_preds (show i < s.level + 1 by omega), Option.bind_eq_bind, Option.bind_some]
    by_cases hle : i ≤ e.height
    case neg =>
      have hne : s.forward (s.pred lo i) i ≠ some e.addr := fun he => hle <| (h.forward_pred_eq_iff (by omega)).mp he
      rw [h.forward_pred (by omega)] at hne
      refine ⟨t, ?_, .refl t, fun z j => ?_⟩
      · simp only [hf i (Nat.le_refl i), h.forward_pred (show i ≤ MAX_LEVEL by omega), Option.bind_some]
        rw [if_pos <| by simpa using hne]
        rfl
      · rw [if_neg (by omega)]
    case pos =>
      have hp := (h.forward_pred_eq_iff (i := i) (by omega)).mpr hle
      have ⟨y, hy⟩ := Option.isSome_iff_exists.mp <| h.forward_isSome (by omega) hle
      have ⟨t₁, ht₁, hframe₁, hfor₁⟩ := setForward_spec (s := t) (x := s.pred lo i) (i := i) (y := y) <|
        ht.room _ ▸ h.room_pred (by omega)
      have ⟨t', ht', hframe', hfor'⟩ := hind (i := i + 1) (t := t₁) (by omega) (ht.trans hframe₁) fun j hj z => by
        rw [hfor₁, if_neg (by omega), hf j (by omega)]
      refine ⟨t', ?_, hframe₁.trans hframe', fun z j => ?_⟩
      · simp [hf i (Nat.le_refl i), hp, hy, Option.mem_def.mp ht₁]
        exact ht'
      · rw [hfor', hfor₁]
        by_cases hj : j = i
        case pos =>
          subst hj
          rw [if_neg (by omega)]
          simp [hle, hy]
        case neg =>
          have hlt : i + 1 ≤ j ↔ i ≤ j := by omega
          simp only [hlt, hj, and_false, if_false]

theorem remove_absent (h : s.Valid (lo ++ hi)) (hlo : ∀ e ∈ lo, e.key < k) (hhi : ∀ e ∈ hi, ¬e.key < k)
    (hk : k < Int32.maxValue) (hm : k ∉ (lo ++ hi).map (·.key)) : s.remove k = some s := by
  have ⟨ky, hky, _⟩ := h.headD_key (i := 0) hhi hk
  have hne : ¬ky = k := fun he => hm <| (h.mem_keys_iff hlo hhi).mpr <| (h.key_next_iff hk).mp <| he ▸ hky
  simp only [remove, h.search_spec hlo hhi hk, Option.bind_eq_bind, Option.bind_some,
    getElem?_preds (Nat.zero_lt_succ _), h.forward_pred (Nat.zero_le _), Option.mem_def.mp hky, if_neg hne]
  rfl

theorem lower_spec (hn : s.head ∉ es.map (·.addr)) (hc : ∀ i ≤ MAX_LEVEL, s.ChainAt i s.head (addrs i es))
    (hl : l ≤ MAX_LEVEL) (hh : ∀ e ∈ es, e.height ≤ l) : ∃ l' ∈ s.lower l, l' ≤ l ∧ ∀ e ∈ es, e.height ≤ l' := by
  induction l
  case zero => exact ⟨0, rfl, Nat.le_refl 0, hh⟩
  case succ l hi =>
    rw [lower, (hc (l + 1) hl).next_eq, Option.bind_eq_bind, Option.bind_some]
    cases ha : addrs (l + 1) es
    case nil =>
      have hh' : ∀ e ∈ es, e.height ≤ l := by
        intro e he
        by_contra hlt
        have hm : e.addr ∈ addrs (l + 1) es := mem_addrs.mpr ⟨e, he, by omega, rfl⟩
        rw [ha] at hm
        cases hm
      have ⟨l', hl', hle, hh'⟩ := hi (by omega) hh'
      exact ⟨l', by simpa using hl', by omega, hh'⟩
    case cons y ys =>
      have hy : y ≠ s.head := by
        intro he
        have hm : y ∈ addrs (l + 1) es := ha ▸ List.mem_cons_self
        exact hn <| he ▸ addrs_sublist.subset hm
      exact ⟨l + 1, by simp [hy], Nat.le_refl _, hh⟩

end Valid

namespace Removed

theorem chain (h : Removed s s' lo e) (hs : s.Valid (lo ++ e :: hi)) (hi' : i ≤ MAX_LEVEL) :
    s'.ChainAt i s'.head (addrs i (lo ++ hi)) := by
  have hc := hs.chain i hi'
  have hmem {z} (hz : z ∈ s.head :: addrs i (lo ++ hi)) : z ≠ e.addr := fun he =>
    hs.not_mem_middle <| he ▸ List.mem_cons.mpr ((List.mem_cons.mp hz).imp_right fun hm => addrs_sublist.subset hm)
  rw [ChainAt, h.head]
  by_cases hle : i ≤ e.height
  case pos =>
    obtain ⟨hp, hz⟩ := h.linked i hle
    have hnodup := hs.nodup.sublist <| (addrs_sublist (i := i)).cons_cons s.head
    rw [Valid.addrs_middle hle] at hc hnodup
    rw [addrs_append] at hmem ⊢
    exact hc.remove hnodup hp fun y hy hne => hz y (hmem hy) hne
  case neg =>
    have hskip : addrs i (lo ++ e :: hi) = addrs i (lo ++ hi) := by simp [addrs, hle]
    have hz := h.others i (by omega)
    rw [hskip] at hc
    exact hc.congr (hz _ <| hmem List.mem_cons_self) fun y hy => hz y <| hmem <| List.mem_cons_of_mem _ hy

theorem valid (h : Removed s s' lo e) (hs : s.Valid (lo ++ e :: hi)) (hl : l ≤ MAX_LEVEL)
    (hh : ∀ e ∈ lo ++ hi, e.height ≤ l) : Valid { s' with level := l } (lo ++ hi) := by
  have hsub : (lo ++ hi).Sublist (lo ++ e :: hi) := (List.sublist_cons_self e hi).append_left lo
  have hmem {z} (hz : z ∈ s.head :: (lo ++ hi).map (·.addr)) : z ≠ e.addr := fun he => hs.not_mem_middle <| he ▸ hz
  have haddr {e'} (he : e' ∈ lo ++ hi) : e'.addr ≠ e.addr :=
    hmem <| List.mem_cons_of_mem _ <| List.mem_map_of_mem he
  constructor
  case headKey  => exact h.head ▸ (h.key _ <| hmem List.mem_cons_self).trans hs.headKey
  case headRoom => exact h.head ▸ (h.room _ <| hmem List.mem_cons_self) ▸ hs.headRoom
  case level    => exact hl
  case sorted   => exact hs.sorted.sublist hsub
  case nodup    => exact h.head ▸ hs.nodup.sublist ((hsub.map _).cons_cons _)
  case key      => 
    intro e' he
    have ⟨hk, hmax⟩ := hs.key e' <| hsub.subset he
    exact ⟨(h.key _ <| haddr he).trans hk, hmax⟩
  case height   =>
    intro e' he
    exact ⟨(h.room _ <| haddr he) ▸ (hs.height e' <| hsub.subset he).left, hh e' he⟩
  case chain    => exact fun i hi' => h.chain hs hi'

end Removed

-- A node that is in the list is taken out.
theorem Valid.remove_present (h : s.Valid (lo ++ e :: hi)) (hlo : ∀ e' ∈ lo, e'.key < e.key)
    (hhi : ∀ e' ∈ e :: hi, ¬e'.key < e.key) (hk : e.key < Int32.maxValue) :
    ∃ s' ∈ s.remove e.key, s'.Valid (lo ++ hi) := by
  obtain ⟨s₁, hs₁, hframe, hfor⟩ := h.unlink_spec (i := 0) (Nat.zero_add _) (.refl s) fun _ _ _ => rfl
  have hnot := h.not_mem_middle
  have hfree : ∀ z, z ≠ e.addr → (s₁.nodeFree e.addr).mem.lookup z = s₁.mem.lookup z :=
    fun z hz => AList.lookup_erase_ne hz
  have hremoved : Removed s (s₁.nodeFree e.addr) lo e := by
    have hforward : ∀ z i, z ≠ e.addr → (s₁.nodeFree e.addr).forward z i = s₁.forward z i :=
      fun z i hz => by rw [forward, forward, hfree z hz]
    constructor
    case head   => exact hframe.head
    case key    => exact fun z hz => by rw [SkipList.key, hfree z hz]; exact hframe.key z
    case room   => exact fun z hz => by rw [SkipList.room, hfree z hz]; exact hframe.room z
    case linked =>
      intro i hle
      refine ⟨?_, fun z hz hne => ?_⟩
      · rw [hforward _ i h.pred_ne, hfor, if_pos ⟨Nat.zero_le i, hle, rfl⟩]
      · rw [hforward z i hz, hfor, if_neg fun hc => hne hc.2.2]
    case others =>
      intro i hlt z hz
      rw [hforward z i hz, hfor, if_neg (by omega)]
  have hsub : (lo ++ hi).Sublist (lo ++ e :: hi) := (List.sublist_cons_self e hi).append_left lo
  have hhead : (s₁.nodeFree e.addr).head ∉ (lo ++ hi).map (·.addr) :=
    hframe.head.symm ▸ (List.nodup_cons.mp <| h.nodup.sublist <| (hsub.map (·.addr)).cons_cons s.head).left
  obtain ⟨l, hl, hle, hh⟩ := lower_spec hhead (fun i hi' => hremoved.chain h hi') h.level
    fun e' he => (h.height e' <| hsub.subset he).right
  refine ⟨{ s₁.nodeFree e.addr with level := l }, ?_, hremoved.valid h (Nat.le_trans hle h.level) hh⟩
  have hnext := (h.forward_pred_eq_iff (Nat.zero_le _)).mpr (Nat.zero_le _)
  have hkey := (h.key e <| by simp).left
  have hlevel : (s₁.nodeFree e.addr).level = s.level := hframe.level
  rw [Option.mem_def, ← List.range_eq_range'] at hs₁
  simp only [remove, h.search_spec hlo hhi hk, Option.bind_eq_bind, Option.bind_some,
    getElem?_preds (Nat.zero_lt_succ _), hnext, hkey, if_true, hs₁, hlevel, Option.mem_def.mp hl]
  rfl

-- The lists of all levels, from the highest to that of all keys, are parts of each other.
def IsSet (s : SkipList) (S : Set Int32) : Prop :=
  ∃ (chain : Nat → List Addr) (keys : List Int32),
    (∀ i ≤ MAX_LEVEL, s.head ∉ chain i ∧ s.ChainAt i s.head (chain i)) ∧
      (∀ i < MAX_LEVEL, (chain (i + 1)).Sublist (chain i)) ∧
        (chain 0).map s.key = keys.map some ∧ keys.Pairwise (· < ·) ∧ ∀ k, k ∈ keys ↔ k ∈ S

-- The node with the key is found if there is one.
def Finds (s : SkipList) (S : Set Int32) (k : Int32) : Prop :=
  ∃ r ∈ s.find k, (k ∈ S → ∃ x ∈ r, s.key x = some k) ∧ (k ∉ S → r = none)

-- The keys that have been inserted and not been removed since.
def keep (S : Set Int32) : Action → Set Int32
  | .insert k _ _ => S ∪ {k.val}
  | .remove k     => S \ {k.val}

def kept (as : List Action) : Set Int32 :=
  as.foldl keep ∅

theorem Valid.key_pred_ne (h : s.Valid (lo ++ hi)) (hlo : ∀ e ∈ lo, e.key < k) (hk : k < Int32.maxValue) :
    s.key (s.pred lo i) ≠ some k := by
  have hm : s.pred lo i ∈ s.head :: addrs i lo := List.getLastD_mem_cons
  intro hkey
  cases List.mem_cons.mp hm
  case inl he =>
    rw [he, h.headKey] at hkey
    exact Int32.ne_of_lt hk (Option.some.inj hkey).symm
  case inr hm =>
    have ⟨e, he, _, ha⟩ := mem_addrs.mp hm
    rw [← ha, (h.key e <| List.mem_append_left _ he).left] at hkey
    exact Int32.ne_of_lt (hlo e he) (Option.some.inj hkey)

-- A call that puts a new key before a smaller one.
def Misplaces (s : SkipList) (S : Set Int32) : Action → Prop
  | .insert k rand _ => k.val ∉ S ∧ s.Misplaced k.val (randLevel rand)
  | .remove _        => False

def Represents (s : SkipList) (S : Set Int32) : Prop :=
  ∃ es, s.Valid es ∧ ∀ k, k ∈ es.map (·.key) ↔ k ∈ S

variable {S : Set Int32} {a : Action}

theorem Represents.isSet (h : s.Represents S) : s.IsSet S := by
  have ⟨es, hv, hS⟩ := h
  refine ⟨fun i => addrs i es, es.map (·.key), fun i hi => ⟨fun hm => ?_, hv.chain i hi⟩,
    fun i _ => addrs_succ_sublist, ?_, List.pairwise_map.mpr hv.sorted, hS⟩
  · exact (List.nodup_cons.mp hv.nodup).left <| addrs_sublist.subset hm
  · rw [show (fun i => addrs i es) 0 = es.map (·.addr) from addrs_zero, List.map_map, List.map_map]
    exact List.map_congr_left fun e he => (hv.key e he).left

theorem Represents.finds_iff (h : s.Represents S) (hk : k < Int32.maxValue) : s.Finds S k ↔ k ∉ S := by
  have ⟨es, hv, hS⟩ := h
  have ⟨lo, hi, he, hlo, hhi⟩ := exists_split hv.sorted k
  subst he
  have ⟨ky, hky, _⟩ := hv.headD_key (i := 0) hhi hk
  have hiff : ky = k ↔ k ∈ S := by
    rw [← hS k, hv.mem_keys_iff hlo hhi, ← hv.key_next_iff hk, Option.mem_def.mp hky, Option.some.injEq]
  have hfind : s.find k = some (if ky = k then some (s.pred lo 0) else none) := by
    simp only [find, hv.search_spec hlo hhi hk, Option.bind_eq_bind, Option.bind_some,
      Valid.getElem?_preds (Nat.zero_lt_succ _), hv.forward_pred (Nat.zero_le _), Option.mem_def.mp hky]
    split <;> rfl
  rw [Finds, hfind]
  simp only [Option.mem_def, Option.some.injEq, exists_eq_left']
  constructor
  case mp =>
    intro ⟨hin, _⟩ hk'
    have ⟨x, hx, hkey⟩ := hin hk'
    rw [if_pos <| hiff.mpr hk'] at hx
    exact hv.key_pred_ne hlo hk <| Option.some.inj hx ▸ hkey
  case mpr => exact fun hn => ⟨fun hk' => absurd hk' hn, fun _ => if_neg fun he => hn <| hiff.mp he⟩

theorem represents_init : skipListInit.Represents ∅ := by
  refine ⟨[], ⟨rfl, by decide, by decide, .nil, by simp, nofun, nofun, fun i hi => ?_⟩, fun _ => iff_of_false nofun nofun⟩
  have hlen : i < (List.replicate (MAX_LEVEL + 1) (some 0)).length := by simpa using Nat.lt_succ_of_le hi
  have hlookup : skipListInit.mem.lookup 0 = some ⟨Int32.maxValue,
      List.replicate (MAX_LEVEL + 1) (some 0) ++ List.replicate (MAX_LEVEL + 1) none⟩ := AList.lookup_insert _
  rw [ChainAt, show addrs i [] = [] from rfl, Chain, forward, show skipListInit.head = 0 from rfl, hlookup]
  simp [List.getElem?_append_left hlen, Nat.lt_succ_of_le hi]

-- The sublist relation along all levels.
theorem chain_sublist {chain : Nat → List Addr} (h : ∀ i < MAX_LEVEL, (chain (i + 1)).Sublist (chain i))
    (hi : i ≤ MAX_LEVEL) : (chain i).Sublist (chain 0) := by
  induction i
  case zero        => exact List.Sublist.refl _
  case succ i hind => exact (h i hi).trans <| hind <| Nat.le_of_succ_le hi

-- A node that is at the front of a list has the smallest key in it.
theorem IsSet.key_lt (h : s.IsSet S) (hi : i ≤ MAX_LEVEL) {l : List Addr} (hc : s.ChainAt i s.head (x :: l))
    (hn : s.head ∉ x :: l) (hy : y ∈ l) (hx : s.key x = some k) (hky : s.key y = some ky) : k < ky := by
  have ⟨chain, keys, hchain, hsub, hmap, hsorted, _⟩ := h
  have ⟨hn', hc'⟩ := hchain i hi
  have hp : (keys.map some).Pairwise fun a b => ∀ k ∈ a, ∀ k' ∈ b, k < k' := by
    refine List.pairwise_map.mpr <| hsorted.imp fun hlt k hk k' hk' => ?_
    cases hk
    cases hk'
    exact hlt
  rw [← hmap] at hp
  have hp := (List.pairwise_map.mp hp).sublist <| chain_sublist hsub hi
  rw [← hc.unique hc' hn hn'] at hp
  exact (List.pairwise_cons.mp hp).left y hy k hx ky hky

theorem Represents.insert (h : s.Represents S) (key : Key) (rand : Nat → Bool) (hx : x ∉ s.mem) :
    ∃ s' ∈ s.insert key.val rand x,
    (¬Misplaces s S (.insert key rand x) → s'.Represents (S ∪ {key.val})) ∧
      (Misplaces s S (.insert key rand x) → ∀ S', ¬s'.IsSet S') := by
  have ⟨es, hv, hS⟩ := h
  have ⟨lo, hi, he, hlo, hhi⟩ := exists_split hv.sorted key.val
  subst he
  by_cases hm : key.val ∈ (lo ++ hi).map (·.key)
  case pos =>
    have hS' : S ∪ {key.val} = S := Set.union_eq_self_of_subset_right <| Set.singleton_subset_iff.mpr <| (hS _).mp hm
    refine ⟨s, hv.insert_present hlo hhi key.property hm, fun _ => ?_, fun hmis => absurd ((hS _).mp hm) hmis.left⟩
    exact hS'.symm ▸ h
  case neg =>
    have ⟨s', hs', hins⟩ := hv.insert_absent rand hlo hhi key.property hm hx
    have hnot := hv.not_mem hx
    have hmis_iff : Misplaces s S (.insert key rand x) ↔ s.level < randLevel rand ∧ addrs s.level lo ≠ [] := by
      rw [← hv.misplaced_iff hlo hhi key.property]
      exact and_iff_right fun hk => hm <| (hS _).mpr hk
    rw [hmis_iff]
    refine ⟨s', hs', fun hmis => ⟨_, hins.valid hv hlo (fun e' he' => ?_) key.property randLevel_le hnot fun i _ =>
      place_eq hmis, fun k' => ?_⟩, fun ⟨hlt, hne⟩ S' hset => ?_⟩
    · have hne : e'.key ≠ key.val := fun he => hm <| List.mem_map.mpr ⟨e', List.mem_append_right _ he', he⟩
      exact Int32.lt_of_le_of_ne (Int32.not_lt.mp <| hhi e' he') hne.symm
    · rw [Set.mem_union, Set.mem_singleton_iff, ← hS k']
      simp only [List.map_append, List.map_cons, List.mem_append, List.mem_cons]
      rw [or_assoc, or_comm (a := k' = key.val)]
    · have ⟨y, l, hl⟩ := List.exists_cons_of_ne_nil hne
      have ⟨e, he, _, hy⟩ := mem_addrs.mp (hl ▸ List.mem_cons_self : y ∈ addrs s.level lo)
      have hplace : s.place lo (randLevel rand) s.level = s.head := if_pos ⟨hlt, Nat.le_refl _⟩
      have hchain : s'.ChainAt s.level s.head (x :: addrs s.level (lo ++ hi)) :=
        hins.chain hv hnot (Nat.le_of_lt hlt) hv.level (List.nil_append _).symm hplace
      have hym : y ∈ addrs s.level (lo ++ hi) := mem_addrs.mpr ⟨e, List.mem_append_left _ he, by omega, hy⟩
      have hsub : s.head :: addrs s.level (lo ++ hi) ⊆ s.head :: (lo ++ hi).map (·.addr) :=
        (addrs_sublist.cons_cons _).subset
      have hne : y ≠ x := fun he => hnot <| he ▸ hsub (List.mem_cons_of_mem _ hym)
      have hhead : s.head ∉ x :: addrs s.level (lo ++ hi) := by
        intro hmem
        cases List.mem_cons.mp hmem
        case inl he  => exact hnot <| he ▸ List.mem_cons_self
        case inr hmem => exact (List.nodup_cons.mp hv.nodup).left <| addrs_sublist.subset hmem
      have hkey : s'.key y = some e.key := (hins.key y hne).trans <| hy ▸ (hv.key e <| List.mem_append_left _ he).left
      have hgt := hset.key_lt hv.level (hins.head.symm ▸ hchain) (hins.head.symm ▸ hhead) hym hins.keyNew hkey
      exact Int32.lt_irrefl <| Int32.lt_trans hgt <| hlo e he

theorem Represents.remove (h : s.Represents S) (key : Key) :
    ∃ s' ∈ s.remove key.val, s'.Represents (S \ {key.val}) := by
  have ⟨es, hv, hS⟩ := h
  have ⟨lo, hi, he, hlo, hhi⟩ := exists_split hv.sorted key.val
  subst he
  by_cases hm : key.val ∈ (lo ++ hi).map (·.key)
  case neg =>
    have hS' : S \ {key.val} = S := Set.sdiff_singleton_eq_self fun hk => hm <| (hS _).mpr hk
    exact ⟨s, hv.remove_absent hlo hhi key.property hm, hS'.symm ▸ h⟩
  case pos =>
    have ⟨e, hi', he, hk⟩ := (hv.mem_keys_iff hlo hhi).mp hm
    subst he
    rw [← hk] at hlo hhi ⊢
    have ⟨s', hs', hv'⟩ := hv.remove_present hlo hhi (hk ▸ key.property)
    refine ⟨s', hs', _, hv', fun k' => ?_⟩
    have ⟨_, hsorted, _⟩ := List.pairwise_append.mp hv.sorted
    have hne : ∀ e' ∈ lo ++ hi', e'.key ≠ e.key := by
      intro e' he
      cases List.mem_append.mp he
      case inl he => exact Int32.ne_of_lt (hlo e' he)
      case inr he => exact (Int32.ne_of_lt <| (List.pairwise_cons.mp hsorted).left e' he).symm
    rw [Set.mem_sdiff, ← hS k', Set.mem_singleton_iff]
    constructor
    case mp =>
      intro hmem
      have ⟨e', he, hk'⟩ := List.mem_map.mp hmem
      refine ⟨List.mem_map.mpr ⟨e', ?_, hk'⟩, hk' ▸ hne e' he⟩
      exact ((List.sublist_cons_self e hi').append_left lo).subset he
    case mpr =>
      intro ⟨hmem, hk'⟩
      have ⟨e', he, hk''⟩ := List.mem_map.mp hmem
      refine List.mem_map.mpr ⟨e', ?_, hk''⟩
      cases List.mem_cons.mp <| List.perm_middle.mem_iff.mp he
      case inl he => exact absurd (hk''.symm.trans <| congrArg _ he) hk'
      case inr he => exact he

-- A call of `malloc` that can be made.
def Action.Allocates (s : SkipList) : Action → Prop
  | .insert _ _ x => x ∉ s.mem
  | .remove _     => True

-- Every call returns, and only misplaced keys are a problem.
theorem Represents.step (h : s.Represents S) (ha : a.Allocates s) : ∃ s' ∈ s.step a,
    (¬Misplaces s S a → s'.Represents (keep S a)) ∧ (Misplaces s S a → ∀ S', ¬s'.IsSet S') := by
  cases a
  case insert key rand x =>
    have ⟨s', hs', hr⟩ := h.insert key rand ha
    exact ⟨s', (if_neg ha).trans hs', hr⟩
  case remove key =>
    have ⟨s', hs', hr⟩ := h.remove key
    exact ⟨s', hs', fun _ => hr, nofun⟩

theorem allocates (hs : s.step a = some s') : a.Allocates s := by
  cases a
  case remove => trivial
  case insert =>
    simp only [SkipList.step] at hs
    split at hs
    case isTrue    => cases hs
    case isFalse h => exact h

section

variable {ts : List skipList.Transition}

-- No call of a run misplaces a key.
def NoneMisplaced (ts : List skipList.Transition) : Prop :=
  ∀ ts₁ t, ts₁ ++ [t] <+: ts → ¬Misplaces t.pre (kept <| ts₁.map (·.act)) t.act

theorem noneMisplaced_nil : NoneMisplaced [] :=
  fun _ _ h => by simpa using List.prefix_nil.mp h

theorem noneMisplaced_snoc {t : skipList.Transition} :
    NoneMisplaced (ts ++ [t]) ↔ NoneMisplaced ts ∧ ¬Misplaces t.pre (kept <| ts.map (·.act)) t.act := by
  constructor
  case mp => exact fun h => ⟨fun ts₁ u hp => h ts₁ u <| hp.trans <| List.prefix_append .., h ts t <| List.prefix_refl _⟩
  case mpr =>
    intro ⟨h, hl⟩ ts₁ u hp
    cases List.prefix_concat_iff.mp hp
    case inl he =>
      have ⟨he, hu⟩ := List.append_inj' he rfl
      injection hu with hu
      subst he hu
      exact hl
    case inr hp => exact h ts₁ u hp

theorem step_transition (t : skipList.Transition) : t.pre.step t.act = some t.post := by
  have ⟨s', hs', he⟩ := Option.map_eq_some_iff.mp t.valid
  have he : s' = t.post := congrArg Prod.fst he
  exact he ▸ hs'

theorem kept_snoc {t : skipList.Transition} :
    kept ((ts ++ [t]).map (·.act)) = keep (kept <| ts.map (·.act)) t.act := by
  simp [kept]

theorem represents_of (p : skipList.Run ts s) (hn : NoneMisplaced ts) : s.Represents (kept <| ts.map (·.act)) := by
  induction p
  case nil => exact represents_init
  case snoc ts t _ hi =>
    have ⟨hn, hl⟩ := noneMisplaced_snoc.mp hn
    have hs := step_transition t
    have ⟨s', hs', hgood, _⟩ := (hi hn).step <| allocates hs
    cases Option.mem_unique hs' hs
    exact kept_snoc ▸ hgood hl

theorem isSet_throughout_iff (p : skipList.Run ts s) :
    (skipList.Throughout skipList.init ts fun ts s => s.IsSet <| kept <| ts.map (·.act)) ↔ NoneMisplaced ts := by
  induction p
  case nil => exact iff_of_true (Machine.throughout_nil.mpr represents_init.isSet) noneMisplaced_nil
  case snoc ts t p hi =>
    rw [Machine.throughout_snoc p, noneMisplaced_snoc, hi]
    refine and_congr_right fun hn => ?_
    have hs := step_transition t
    have ⟨s', hs', hgood, hbad⟩ := (represents_of p hn).step <| allocates hs
    cases Option.mem_unique hs' hs
    constructor
    case mp  => exact fun hset hm => hbad hm _ hset
    case mpr => exact fun hm => kept_snoc ▸ (hgood hm).isSet

def OnlyRemoves (ts : List skipList.Transition) : Prop :=
  ∀ t ∈ ts, ∃ key, t.act = .remove key

theorem OnlyRemoves.kept (h : OnlyRemoves ts) : SkipList.kept (ts.map (·.act)) = ∅ := by
  induction ts using List.reverseRecOn
  case nil => rfl
  case append_singleton ts t hi =>
    have ⟨key, hkey⟩ := h t <| by simp
    rw [kept_snoc, hi fun u hu => h u <| List.mem_append_left _ hu, hkey, keep]
    exact Set.empty_sdiff _

theorem OnlyRemoves.noneMisplaced (h : OnlyRemoves ts) : NoneMisplaced ts := by
  intro ts₁ t hp
  have ⟨key, hkey⟩ := h t <| hp.subset <| by simp
  rw [hkey]
  exact id

theorem OnlyRemoves.of_prefix (h : OnlyRemoves ts) (hp : ts₁ <+: ts) : OnlyRemoves ts₁ :=
  fun t ht => h t <| hp.subset ht

-- A key that has been inserted is not found.
theorem onlyRemoves_iff (p : skipList.Run ts s) :
    (skipList.Throughout skipList.init ts fun ts s => s.IsSet (kept <| ts.map (·.act)) ∧
      ∀ key : Key, s.Finds (kept <| ts.map (·.act)) key) ↔ OnlyRemoves ts := by
  constructor
  case mpr =>
    intro h ts₁ u hp p₁
    have hr := represents_of p₁ (h.of_prefix hp).noneMisplaced
    refine ⟨hr.isSet, fun key => (hr.finds_iff key.property).mpr ?_⟩
    rw [(h.of_prefix hp).kept]
    exact Set.notMem_empty _
  case mp =>
    intro h t ht
    have ⟨ts₁, ts₂, he⟩ := List.append_of_mem ht
    have hp : ts₁ ++ [t] <+: ts := ⟨ts₂, by simp [he]⟩
    have p₁ : skipList.Run (ts₁ ++ [t]) t.post := (he ▸ p).split_cons.left.snoc t
    have hn : NoneMisplaced (ts₁ ++ [t]) :=
      (isSet_throughout_iff p₁).mp fun ts₂ u hp₂ p₂ => (h ts₂ u (hp₂.trans hp) p₂).left
    cases ha : t.act
    case remove key => exact ⟨key, rfl⟩
    case insert key rand x =>
      have hkey := ((represents_of p₁ hn).finds_iff key.property).mp <| (h _ _ hp p₁).right key
      rw [kept_snoc, ha] at hkey
      exact absurd (Set.mem_union_right _ rfl) hkey

-- The lists are right as long as no key is misplaced, and then every call returns, but a key is
-- found only if it is not there.
theorem set_iff (p : skipList.Run ts s) :
    ((skipList.Throughout skipList.init ts fun ts s => s.IsSet <| kept <| ts.map (·.act)) ↔ NoneMisplaced ts) ∧
      (NoneMisplaced ts → (∀ a, a.Allocates s → (s.step a).isSome) ∧
        ∀ key : Key, s.Finds (kept <| ts.map (·.act)) key ↔ key.val ∉ kept (ts.map (·.act))) ∧
      ((skipList.Throughout skipList.init ts fun ts s => s.IsSet (kept <| ts.map (·.act)) ∧
        ∀ key : Key, s.Finds (kept <| ts.map (·.act)) key) ↔ ∀ t ∈ ts, ∃ key, t.act = .remove key) := by
  refine ⟨isSet_throughout_iff p, fun hn => ⟨fun a ha => ?_, fun key => ?_⟩, onlyRemoves_iff p⟩
  · have ⟨s', hs', _⟩ := (represents_of p hn).step ha
    exact Option.isSome_of_mem hs'
  · exact (represents_of p hn).finds_iff key.property

-- Of two keys, the one that is in two lists is removed.
def grown : List skipList.Transition × SkipList :=
  skipList.trace skipList.init
    [.insert ⟨5, by decide⟩ (fun i => i < 1) 1, .insert ⟨3, by decide⟩ (fun _ => false) 2, .remove ⟨5, by decide⟩]

theorem noneMisplaced_grown : NoneMisplaced grown.1 := by
  have h₁ := noneMisplaced_snoc (t := grown.1.get ⟨0, by decide⟩) |>.mpr
    ⟨noneMisplaced_nil, fun h => absurd h.right <| by decide⟩
  have h₂ := noneMisplaced_snoc (t := grown.1.get ⟨1, by decide⟩) |>.mpr ⟨h₁, fun h => absurd h.right <| by decide⟩
  exact noneMisplaced_snoc (t := grown.1.get ⟨2, by decide⟩) |>.mpr ⟨h₂, id⟩

theorem set_grown : (skipList.Throughout skipList.init grown.1 fun ts s => s.IsSet <| kept <| ts.map (·.act)) ∧
    ¬grown.2.Finds (kept <| grown.1.map (·.act)) 3 := by
  have p : skipList.Run grown.1 grown.2 := skipList.path_trace ..
  have ⟨hs, hf, _⟩ := set_iff p
  have hm : (3 : Int32) ∈ kept (grown.1.map (·.act)) := ⟨.inr rfl, by decide⟩
  exact ⟨hs.mpr noneMisplaced_grown, fun h => (hf noneMisplaced_grown).right ⟨3, by decide⟩ |>.mp h hm⟩

-- The key 25 is put before the key 10 in the list of all keys.
theorem not_isSet_of_misplaced : ¬∃ S, (skipList.trace skipList.init
    [.insert ⟨10, by decide⟩ (fun _ => false) 1, .insert ⟨25, by decide⟩ (fun i => i < 1) 2]).2.IsSet S := by
  intro ⟨S, h⟩
  have hlt : (25 : Int32) < 10 :=
    h.key_lt (i := 0) (x := 2) (y := 1) (l := [1]) (Nat.zero_le _) ⟨rfl, rfl, rfl⟩ (by decide) (by decide) rfl rfl
  revert hlt
  decide

end

end Algorithm.SkipList
