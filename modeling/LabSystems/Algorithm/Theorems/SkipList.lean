import LabSystems.Algorithm.SkipList
import LabSystems.Linked.Basic

namespace Algorithm.SkipList

open Linked

-- A node with the highest of the lists that it is in.
structure Entry where
  addr   : Addr
  key    : Int32
  height : Nat

-- The nodes in the list at a level.
def addrs (i : Nat) (es : List Entry) : List Addr :=
  (es.filter (i ≤ ·.height)).map (·.addr)

-- The number of pointers that a node has memory for.
def room (s : SkipList) (x : Addr) : Nat :=
  ((s.mem.lookup x).map (·.forward.length)).getD 0

abbrev ChainAt (s : SkipList) (i : Nat) (x : Addr) (l : List Addr) : Prop :=
  Chain (s.forward · i) x l s.head

-- The lists of all levels are made from the nodes in the order of their keys.
structure Valid (s : SkipList) (es : List Entry) : Prop where
  headKey  : s.key s.head = some Int32.maxValue
  headRoom : MAX_LEVEL < s.room s.head
  level    : s.level ≤ MAX_LEVEL
  sorted   : es.Pairwise (·.key < ·.key)
  nodup    : (s.head :: es.map (·.addr)).Nodup
  key      : ∀ e ∈ es, s.key e.addr = some e.key ∧ e.key < Int32.maxValue
  height   : ∀ e ∈ es, e.height < s.room e.addr ∧ e.height ≤ s.level
  chain    : ∀ i ≤ MAX_LEVEL, s.ChainAt i s.head (addrs i es)

-- What remains when pointers are written.
structure Frame (s s' : SkipList) : Prop where
  head  : s'.head = s.head
  level : s'.level = s.level
  key   : ∀ z, s'.key z = s.key z
  room  : ∀ z, s'.room z = s.room z

variable {s s' : SkipList} {es es₁ es₂ : List Entry} {x y z : Addr} {i j : Nat} {k : Int32}

theorem Frame.refl (s : SkipList) : Frame s s :=
  ⟨rfl, rfl, fun _ => rfl, fun _ => rfl⟩

theorem Frame.trans (h : Frame s s') (h' : Frame s' s'') : Frame s s'' :=
  ⟨h'.head.trans h.head, h'.level.trans h.level, fun z => (h'.key z).trans <| h.key z,
    fun z => (h'.room z).trans <| h.room z⟩

theorem mem_of_key (h : s.key x = some k) : x ∈ s.mem := by
  rw [← AList.lookup_isSome]
  cases hl : s.mem.lookup x
  case none => simp [SkipList.key, hl] at h
  case some => rfl

theorem setForward_spec (h : i < s.room x) : ∃ s' ∈ s.setForward x i y, Frame s s' ∧
    ∀ z j, s'.forward z j = if z = x ∧ j = i then some y else s.forward z j := by
  cases hl : s.mem.lookup x
  case none => simp [room, hl] at h
  case some node =>
    simp only [room, hl, Option.map_some, Option.getD_some] at h
    refine ⟨{ s with mem := s.mem.insert x { node with forward := node.forward.set i (some y) } },
      by simp [setForward, hl, h], ⟨rfl, rfl, fun z => ?_, fun z => ?_⟩, fun z j => ?_⟩
    all_goals by_cases hz : z = x
    · subst hz
      simp [SkipList.key, hl]
    · simp [SkipList.key, AList.lookup_insert_ne hz]
    · subst hz
      simp [room, hl]
    · simp [room, AList.lookup_insert_ne hz]
    · subst hz
      simp only [forward, AList.lookup_insert, hl, Option.bind_eq_bind, Option.bind_some, List.getElem?_set, true_and]
      by_cases hj : i = j
      case pos => simp [hj, hj ▸ h]
      case neg => simp [hj, Ne.symm hj]
    · simp [forward, AList.lookup_insert_ne hz, hz]

@[simp]
theorem addrs_append : addrs i (es₁ ++ es₂) = addrs i es₁ ++ addrs i es₂ := by
  simp [addrs]

theorem addrs_zero : addrs 0 es = es.map (·.addr) := by
  simp [addrs]

theorem addrs_sublist : (addrs i es).Sublist (es.map (·.addr)) :=
  List.filter_sublist.map _

theorem addrs_succ_sublist : (addrs (i + 1) es).Sublist (addrs i es) := by
  refine List.Sublist.map _ <| List.monotone_filter_right _ fun e he => ?_
  simp only [decide_eq_true_eq] at *
  omega

theorem mem_addrs : x ∈ addrs i es ↔ ∃ e ∈ es, i ≤ e.height ∧ e.addr = x := by
  simp [addrs, and_assoc]

-- The nodes before and after the place of a key.
theorem exists_split (h : es.Pairwise (·.key < ·.key)) (k : Int32) :
    ∃ lo hi, es = lo ++ hi ∧ (∀ e ∈ lo, e.key < k) ∧ ∀ e ∈ hi, ¬e.key < k := by
  induction es
  case nil => exact ⟨[], [], rfl, nofun, nofun⟩
  case cons e es hi =>
    have ⟨hlt, h⟩ := List.pairwise_cons.mp h
    by_cases hk : e.key < k
    case pos =>
      have ⟨lo, hi, he, hlo, hhi⟩ := hi h
      exact ⟨e :: lo, hi, by rw [he, List.cons_append], List.forall_mem_cons.mpr ⟨hk, hlo⟩, hhi⟩
    case neg =>
      refine ⟨[], e :: es, rfl, nofun, List.forall_mem_cons.mpr ⟨hk, fun e' he' hlt' => ?_⟩⟩
      exact hk <| Int32.lt_trans (hlt e' he') hlt'

-- The last node before the key in the list at level `i`.
def pred (s : SkipList) (lo : List Entry) (i : Nat) : Addr :=
  (addrs i lo).getLastD s.head

theorem advance_spec {l₁ l₂ : List Addr} (h : s.ChainAt i x (l₁ ++ l₂)) (hf : l₁.length < fuel)
    (hlt : ∀ y ∈ l₁, ∃ ky ∈ s.key y, ky < k) (hge : ∃ ky ∈ s.key (l₂.headD s.head), ¬ky < k) :
    s.advance k i fuel x = some (l₁.getLastD x) := by
  induction fuel generalizing x l₁
  case zero => contradiction
  case succ fuel hi =>
    have hn := h.next_eq
    rw [advance, hn]
    cases l₁
    case nil =>
      have ⟨ky, hk, hge⟩ := hge
      simp only [List.nil_append, Option.bind_eq_bind, Option.bind_some, Option.mem_def.mp hk, hge]
      rfl
    case cons y l₁ =>
      have ⟨⟨ky, hk, hlt'⟩, hlt⟩ := List.forall_mem_cons.mp hlt
      simp only [List.cons_append, List.headD_cons, Option.bind_eq_bind, Option.bind_some, Option.mem_def.mp hk, hlt']
      rw [List.getLastD_cons]
      exact hi h.right (Nat.lt_of_succ_lt_succ hf) hlt

namespace Valid

theorem length_lt (h : s.Valid es) : es.length < s.mem.keys.length := by
  have hsub : s.head :: es.map (·.addr) ⊆ s.mem.keys := by
    intro x hx
    cases hx
    case head => exact AList.mem_keys.mpr <| mem_of_key h.headKey
    case tail hx =>
      have ⟨e, he, hx⟩ := List.mem_map.mp hx
      exact AList.mem_keys.mpr <| hx ▸ mem_of_key (h.key e he).left
  have hle := (List.subperm_of_subset h.nodup hsub).length_le
  rw [List.length_cons, List.length_map] at hle
  exact hle

-- The place in the list of the next lower level.
theorem exists_place (lo : List Entry) (i : Nat) : ∃ l₁ l₂, addrs i lo = l₁ ++ l₂ ∧ s.pred lo (i + 1) = l₁.getLastD s.head := by
  have hm : s.pred lo (i + 1) ∈ s.head :: addrs (i + 1) lo := List.getLastD_mem_cons
  generalize hp : s.pred lo (i + 1) = p at hm
  cases hm
  case head => exact ⟨[], _, rfl, rfl⟩
  case tail hm =>
    have ⟨l₁, l₂, he⟩ := List.append_of_mem <| addrs_succ_sublist.subset hm
    exact ⟨l₁ ++ [p], l₂, by simpa using he, by rw [List.getLastD_concat]⟩

-- The key of the first node that is not before the place, or that of `head`.
theorem headD_key (h : s.Valid (lo ++ hi)) (hhi : ∀ e ∈ hi, ¬e.key < k) (hk : k < Int32.maxValue) :
    ∃ ky ∈ s.key ((addrs i hi).headD s.head), ¬ky < k := by
  cases hl : addrs i hi
  case nil =>
    exact ⟨_, h.headKey, Int32.not_lt.mpr <| Int32.le_of_lt hk⟩
  case cons y l =>
    have ⟨e, he, _, hy⟩ := mem_addrs.mp (hl ▸ List.mem_cons_self : y ∈ addrs i hi)
    exact ⟨e.key, hy ▸ (h.key e <| List.mem_append_right _ he).left, hhi e he⟩

theorem advance_pred (h : s.Valid (lo ++ hi)) (hlo : ∀ e ∈ lo, e.key < k) (hhi : ∀ e ∈ hi, ¬e.key < k)
    (hk : k < Int32.maxValue) (hi' : i ≤ MAX_LEVEL) {l₁ l₂ : List Addr} (hl : addrs i lo = l₁ ++ l₂) :
    s.advance k i s.mem.keys.length (l₁.getLastD s.head) = some (s.pred lo i) := by
  have hc := h.chain i hi'
  rw [addrs_append, hl, List.append_assoc] at hc
  have hlen : l₂.length < s.mem.keys.length := by
    have hle : (addrs i lo).length ≤ (lo.map (·.addr)).length := addrs_sublist.length_le
    have hlt := h.length_lt
    rw [hl, List.length_append, List.length_map] at hle
    rw [List.length_append] at hlt
    omega
  have hlt : ∀ y ∈ l₂, ∃ ky ∈ s.key y, ky < k := by
    intro y hy
    have ⟨e, he, _, hy⟩ := mem_addrs.mp (hl ▸ List.mem_append_right _ hy : y ∈ addrs i lo)
    exact ⟨e.key, hy ▸ (h.key e <| List.mem_append_left _ he).left, hlo e he⟩
  rw [advance_spec hc.drop hlen hlt (h.headD_key hhi hk), pred, hl]
  simp [List.getLast?_append]

theorem descend_spec (h : s.Valid (lo ++ hi)) (hlo : ∀ e ∈ lo, e.key < k) (hhi : ∀ e ∈ hi, ¬e.key < k)
    (hk : k < Int32.maxValue) (hi' : i ≤ MAX_LEVEL) {l₁ l₂ : List Addr} (hl : addrs i lo = l₁ ++ l₂) :
    s.descend k i (l₁.getLastD s.head) = some ((List.range (i + 1)).map (s.pred lo)) := by
  have hadv := h.advance_pred hlo hhi hk hi' hl
  induction i generalizing l₁ l₂
  case zero =>
    simp only [descend, hadv]
    rfl
  case succ i hind =>
    have ⟨l₁', l₂', hl', hx'⟩ := exists_place (s := s) lo i
    have hi' : i ≤ MAX_LEVEL := by omega
    simp only [descend, hadv, Option.bind_eq_bind, Option.bind_some, hx',
      hind hi' hl' (h.advance_pred hlo hhi hk hi' hl')]
    rw [List.range_succ (n := i + 1), List.map_append, ← hx']
    rfl

theorem search_spec (h : s.Valid (lo ++ hi)) (hlo : ∀ e ∈ lo, e.key < k) (hhi : ∀ e ∈ hi, ¬e.key < k)
    (hk : k < Int32.maxValue) : s.descend k s.level s.head = some ((List.range (s.level + 1)).map (s.pred lo)) :=
  h.descend_spec hlo hhi hk h.level (List.nil_append _).symm

-- The node after the place in the list of all nodes.
theorem forward_pred (h : s.Valid (lo ++ hi)) (hi' : i ≤ MAX_LEVEL) :
    s.forward (s.pred lo i) i = some ((addrs i hi).headD s.head) := by
  have hc := h.chain i hi'
  rw [addrs_append] at hc
  exact hc.drop.next_eq

theorem room_pred (h : s.Valid (lo ++ hi)) (hi' : i ≤ MAX_LEVEL) : i < s.room (s.pred lo i) := by
  have hm : s.pred lo i ∈ s.head :: addrs i lo := List.getLastD_mem_cons
  generalize s.pred lo i = p at hm
  cases hm
  case head => exact Nat.lt_of_le_of_lt hi' h.headRoom
  case tail hm =>
    have ⟨e, he, hle, hp⟩ := mem_addrs.mp hm
    exact hp ▸ Nat.lt_of_le_of_lt hle (h.height e <| List.mem_append_left _ he).left

-- The key is in the list if and only if it is that of the node after its place.
theorem key_next_iff (h : s.Valid (lo ++ hi)) (hk : k < Int32.maxValue) :
    s.key ((addrs 0 hi).headD s.head) = some k ↔ ∃ e hi', hi = e :: hi' ∧ e.key = k := by
  cases hi
  case nil =>
    have hne : Int32.maxValue ≠ k := (Int32.ne_of_lt hk).symm
    simp [addrs, h.headKey, hne]
  case cons e hi =>
    have he := (h.key e <| List.mem_append_right _ List.mem_cons_self).left
    simp [addrs, he]

theorem mem_keys_iff (h : s.Valid (lo ++ hi)) (hlo : ∀ e ∈ lo, e.key < k) (hhi : ∀ e ∈ hi, ¬e.key < k) :
    k ∈ (lo ++ hi).map (·.key) ↔ ∃ e hi', hi = e :: hi' ∧ e.key = k := by
  constructor
  case mpr =>
    intro ⟨e, hi', he, hk⟩
    exact List.mem_map.mpr ⟨e, by simp [he], hk⟩
  case mp =>
    intro hm
    have ⟨e, hmem, hk⟩ := List.mem_map.mp hm
    cases List.mem_append.mp hmem
    case inl he =>
      have hlt := hlo e he
      rw [hk] at hlt
      exact absurd rfl <| Int32.ne_of_lt hlt
    case inr he =>
      cases hi
      case nil => cases he
      case cons e' hi' =>
        refine ⟨e', hi', rfl, ?_⟩
        cases he
        case head => exact hk
        case tail he =>
          have hlt := (List.pairwise_cons.mp (List.pairwise_append.mp h.sorted).2.1).left e he
          exact absurd (hk ▸ hlt) <| hhi e' List.mem_cons_self

end Valid

section

variable {update : List Addr} {v : Nat → Addr}

-- A new node is linked into the lists behind the nodes in `update`.
theorem link_spec (hu : ∀ i < n, update[i]? = some (v i)) (hv : ∀ i < n, v i ≠ x) (hx : n ≤ s.room x)
    (hr : ∀ i < n, i < s.room (v i)) (hf : ∀ i < n, (s.forward (v i) i).isSome) :
    ∃ s' ∈ (List.range n).foldlM (link update x) s, Frame s s' ∧
      (∀ i < n, s'.forward x i = s.forward (v i) i ∧ s'.forward (v i) i = some x ∧
        ∀ z, z ≠ x → z ≠ v i → s'.forward z i = s.forward z i) ∧
      ∀ i ≥ n, ∀ z, s'.forward z i = s.forward z i := by
  induction n
  case zero => exact ⟨s, rfl, .refl s, nofun, fun _ _ _ => rfl⟩
  case succ n hi =>
    have ⟨s₁, h₁, hframe, hlt, hge⟩ := hi (fun i h => hu i (by omega)) (fun i h => hv i (by omega)) (by omega)
      (fun i h => hr i (by omega)) (fun i h => hf i (by omega))
    have ⟨y, hy⟩ := Option.isSome_iff_exists.mp <| hf n (by omega)
    have ⟨s₂, h₂, hframe₂, hfor₂⟩ := setForward_spec (s := s₁) (x := x) (i := n) (y := y) (by rw [hframe.room]; omega)
    have ⟨s₃, h₃, hframe₃, hfor₃⟩ := setForward_spec (s := s₂) (x := v n) (i := n) (y := x)
      (by rw [hframe₂.room, hframe.room]; exact hr n (by omega))
    rw [Option.mem_def] at *
    refine ⟨s₃, ?_, hframe.trans <| hframe₂.trans hframe₃, fun i h => ?_, fun i h z => ?_⟩
    · rw [Option.mem_def, List.range_succ, List.foldlM_append, h₁]
      simp [link, hu n (by omega), hge n (by omega), hy, h₂, h₃]
    · by_cases he : i = n
      case pos =>
        subst he
        have hne := hv i h
        refine ⟨?_, ?_, fun z hz hzv => ?_⟩
        · simp [hfor₃, hfor₂, hne.symm, hy]
        · simp [hfor₃]
        · simp [hfor₃, hfor₂, hz, hzv, hge]
      case neg => 
        have ⟨ha, hb, hc⟩ := hlt i (by omega)
        simp only [hfor₃, hfor₂, he, and_false, if_false]
        exact ⟨ha, hb, hc⟩
    · have he : i ≠ n := by omega
      simp only [hfor₃, hfor₂, he, and_false, if_false]
      exact hge i (by omega) z

end

theorem randLevel_le {rand : Nat → Bool} : randLevel rand ≤ MAX_LEVEL := by
  have hle := (List.takeWhile_prefix rand (l := List.range MAX_LEVEL)).length_le
  rwa [List.length_range] at hle

-- What a call of `insert` does that links a new node behind the nodes `v`.
structure Inserted (s s' : SkipList) (v : Nat → Addr) (e : Entry) : Prop where
  head    : s'.head = s.head
  level   : s'.level = max s.level e.height
  keyNew  : s'.key e.addr = some e.key
  roomNew : e.height < s'.room e.addr
  key     : ∀ z, z ≠ e.addr → s'.key z = s.key z
  room    : ∀ z, z ≠ e.addr → s'.room z = s.room z
  linked  : ∀ i ≤ e.height, s'.forward e.addr i = s.forward (v i) i ∧ s'.forward (v i) i = some e.addr ∧
    ∀ z, z ≠ e.addr → z ≠ v i → s'.forward z i = s.forward z i
  others  : ∀ i, e.height < i → ∀ z, z ≠ e.addr → s'.forward z i = s.forward z i

-- The nodes in `update`. When the list gets a new level, `head` is written from the old level on.
def place (s : SkipList) (lo : List Entry) (level i : Nat) : Addr :=
  if s.level < level ∧ s.level ≤ i then s.head else s.pred lo i

namespace Valid

theorem not_mem (h : s.Valid es) (hx : x ∉ s.mem) : x ∉ s.head :: es.map (·.addr) := by
  intro hm
  cases hm
  case head => exact hx <| mem_of_key h.headKey
  case tail hm =>
    have ⟨e, he, hx'⟩ := List.mem_map.mp hm
    exact hx <| hx' ▸ mem_of_key (h.key e he).left

theorem pred_mem : s.pred lo i ∈ s.head :: (lo ++ hi).map (·.addr) := by
  have hm : s.pred lo i ∈ s.head :: addrs i lo := List.getLastD_mem_cons
  refine List.mem_cons.mpr <| (List.mem_cons.mp hm).imp_right fun hm => ?_
  rw [List.map_append]
  exact List.mem_append_left _ <| addrs_sublist.subset hm

-- The pointer that is written exists.
theorem place_spec (h : s.Valid (lo ++ hi)) (l : Nat) (hi' : i ≤ MAX_LEVEL) :
    s.place lo l i ∈ s.head :: (lo ++ hi).map (·.addr) ∧ i < s.room (s.place lo l i) ∧
      (s.forward (s.place lo l i) i).isSome := by
  rw [place]
  split
  case isTrue  => exact ⟨List.mem_cons_self, Nat.lt_of_le_of_lt hi' h.headRoom, by rw [(h.chain i hi').next_eq]; rfl⟩
  case isFalse => exact ⟨pred_mem, h.room_pred hi', by rw [h.forward_pred hi']; rfl⟩

theorem getElem?_preds (hi : i < n) : ((List.range n).map (s.pred lo))[i]? = some (s.pred lo i) := by
  simp [hi]

theorem insert_present (h : s.Valid (lo ++ hi)) (hlo : ∀ e ∈ lo, e.key < k) (hhi : ∀ e ∈ hi, ¬e.key < k)
    (hk : k < Int32.maxValue) (hm : k ∈ (lo ++ hi).map (·.key)) : s.insert k rand x = some s := by
  have hnext := (h.key_next_iff hk).mpr <| (h.mem_keys_iff hlo hhi).mp hm
  simp only [insert, h.search_spec hlo hhi hk, Option.bind_eq_bind, Option.bind_some, getElem?_preds (Nat.zero_lt_succ _),
    h.forward_pred (Nat.zero_le _), hnext, if_true, Option.pure_def]

theorem insert_absent (h : s.Valid (lo ++ hi)) (rand : Nat → Bool) (hlo : ∀ e ∈ lo, e.key < k) (hhi : ∀ e ∈ hi, ¬e.key < k)
    (hk : k < Int32.maxValue) (hm : k ∉ (lo ++ hi).map (·.key)) (hx : x ∉ s.mem) :
    ∃ s' ∈ s.insert k rand x, Inserted s s' (s.place lo <| randLevel rand) ⟨x, k, randLevel rand⟩ := by
  have ⟨ky, hky, _⟩ := h.headD_key (i := 0) hhi hk
  have hne : ¬k = ky := fun he => hm <| (h.mem_keys_iff hlo hhi).mpr <| (h.key_next_iff hk).mp <| he ▸ hky
  have hlevel : randLevel rand ≤ MAX_LEVEL := randLevel_le
  let new := { s with level := max s.level (randLevel rand) }.nodeAlloc x k (randLevel rand + 1)
  let update := if randLevel rand > s.level then
      ((List.range (s.level + 1)).map (s.pred lo)).take s.level ++ List.replicate (randLevel rand + 1 - s.level) s.head
    else
      (List.range (s.level + 1)).map (s.pred lo)
  have hnew : ∀ z, z ≠ x → new.mem.lookup z = s.mem.lookup z := fun z hz => AList.lookup_insert_ne hz
  have hu : ∀ i < randLevel rand + 1, update[i]? = some (s.place lo (randLevel rand) i) := by
    intro i hi
    simp only [update, place]
    by_cases hl : s.level < randLevel rand
    case neg => rw [if_neg hl, if_neg (by omega), getElem?_preds (by omega)]
    case pos =>
      rw [if_pos hl]
      by_cases hle : s.level ≤ i
      case neg => rw [if_neg (by omega), List.getElem?_append_left (by simp; omega), List.getElem?_take_of_lt (by omega),
        getElem?_preds (by omega)]
      case pos =>
        rw [if_pos ⟨hl, hle⟩, List.getElem?_append_right (by simp; omega), List.getElem?_replicate_of_lt (by simp; omega)]
  have hplace {i} (hi : i < randLevel rand + 1) := h.place_spec (i := i) (randLevel rand) (by omega)
  have hv : ∀ i < randLevel rand + 1, s.place lo (randLevel rand) i ≠ x :=
    fun i hi he => h.not_mem hx <| he ▸ (hplace hi).left
  have hroom : ∀ z, z ≠ x → new.room z = s.room z := fun z hz => by rw [room, room, hnew z hz]
  have hforward : ∀ z i, z ≠ x → new.forward z i = s.forward z i := fun z i hz => by rw [forward, forward, hnew z hz]
  have hx' : randLevel rand + 1 < new.room x := by
    simp [new, nodeAlloc, room]
  have ⟨s', hs', hframe, hlt, hge⟩ := link_spec hu hv (Nat.le_of_lt hx')
    (fun i hi => hroom _ (hv i hi) ▸ (hplace hi).2.1) (fun i hi => hforward _ i (hv i hi) ▸ (hplace hi).2.2)
  refine ⟨s', ?_, ?_⟩
  · simp only [insert, h.search_spec hlo hhi hk, Option.bind_eq_bind, Option.bind_some,
      getElem?_preds (Nat.zero_lt_succ _), h.forward_pred (Nat.zero_le _), Option.mem_def.mp hky, if_neg hne]
    exact hs'
  · constructor
    case head    => exact hframe.head
    case level   => exact hframe.level
    case keyNew  => exact (hframe.key x).trans <| by simp [new, nodeAlloc, SkipList.key]
    case roomNew => exact hframe.room x ▸ Nat.lt_of_succ_lt hx'
    case key     => exact fun z hz => (hframe.key z).trans <| by rw [SkipList.key, SkipList.key, hnew z hz]
    case room    => exact fun z hz => (hframe.room z).trans <| hroom z hz
    case linked  =>
      intro i hi
      have ⟨ha, hb, hc⟩ := hlt i <| Nat.lt_succ_of_le hi
      exact ⟨ha.trans <| hforward _ i <| hv i <| Nat.lt_succ_of_le hi, hb, fun z hz hzv => (hc z hz hzv).trans <| hforward z i hz⟩
    case others  => exact fun i hi z hz => (hge i hi z).trans <| hforward z i hz

end Valid

namespace Inserted

variable {v : Nat → Addr} {e : Entry}

-- The new node follows the node behind which it has been linked.
theorem chain (h : Inserted s s' v e) (hv : s.Valid es) (hn : e.addr ∉ s.head :: es.map (·.addr)) (hi : i ≤ e.height)
    (hi' : i ≤ MAX_LEVEL) {l₁ l₂ : List Addr} (hl : addrs i es = l₁ ++ l₂) (hp : v i = l₁.getLastD s.head) :
    s'.ChainAt i s.head (l₁ ++ e.addr :: l₂) := by
  have ⟨ha, hb, hc⟩ := h.linked i hi
  have hsub : (s.head :: (l₁ ++ l₂)).Sublist (s.head :: es.map (·.addr)) := hl ▸ addrs_sublist.cons_cons _
  have hold : Chain (s.forward · i) s.head (l₁ ++ l₂) s.head := hl ▸ hv.chain i hi'
  rw [hp] at ha hb
  rw [ChainAt, h.head]
  refine hold.insert (hv.nodup.sublist hsub) ha hb fun y hy hne => ?_
  exact hc y (fun he => hn <| he ▸ hsub.subset hy) (hp ▸ hne)

-- The list stays valid when the node is linked at its place.
theorem valid (h : Inserted s s' v e) (hs : s.Valid (lo ++ hi)) (hlo : ∀ e' ∈ lo, e'.key < e.key)
    (hhi : ∀ e' ∈ hi, e.key < e'.key) (hmax : e.key < Int32.maxValue) (hle : e.height ≤ MAX_LEVEL)
    (hn : e.addr ∉ s.head :: (lo ++ hi).map (·.addr)) (hv : ∀ i ≤ e.height, v i = s.pred lo i) :
    s'.Valid (lo ++ e :: hi) := by
  have hmem {z} (hz : z ∈ s.head :: (lo ++ hi).map (·.addr)) : z ≠ e.addr := fun he => hn <| he ▸ hz
  have haddr {e'} (he : e' ∈ lo ++ hi) : e'.addr ≠ e.addr :=
    hmem <| List.mem_cons_of_mem _ <| List.mem_map_of_mem he
  have hmid {e'} (he : e' ∈ lo ++ e :: hi) : e' = e ∨ e' ∈ lo ++ hi := List.mem_cons.mp <| List.perm_middle.mem_iff.mp he
  constructor
  case headKey  => rw [h.head, h.key _ <| hmem List.mem_cons_self, hs.headKey]
  case headRoom => rw [h.head, h.room _ <| hmem List.mem_cons_self]; exact hs.headRoom
  case level    => rw [h.level]; exact max_le hs.level hle
  case sorted   =>
    have ⟨h₁, h₂, h₁₂⟩ := List.pairwise_append.mp hs.sorted
    refine List.pairwise_append.mpr ⟨h₁, List.pairwise_cons.mpr ⟨hhi, h₂⟩, fun a ha b hb => ?_⟩
    cases hb
    case head    => exact hlo a ha
    case tail hb => exact h₁₂ a ha b hb
  case nodup    =>
    have hperm : (s'.head :: (lo ++ e :: hi).map (·.addr)).Perm <| e.addr :: s.head :: (lo ++ hi).map (·.addr) := by
      rw [h.head]
      exact ((List.perm_middle.map _).cons _).trans <| List.Perm.swap ..
    exact hperm.nodup_iff.mpr <| List.nodup_cons.mpr ⟨hn, hs.nodup⟩
  case key      =>
    intro e' he
    cases hmid he
    case inl he => exact he ▸ ⟨h.keyNew, hmax⟩
    case inr he => exact h.key _ (haddr he) ▸ hs.key e' he
  case height   =>
    intro e' he
    rw [h.level]
    cases hmid he
    case inl he =>
      subst he
      exact ⟨h.roomNew, Nat.le_max_right ..⟩
    case inr he =>
      have ⟨hr, hl⟩ := hs.height e' he
      exact ⟨h.room _ (haddr he) ▸ hr, Nat.le_trans hl <| Nat.le_max_left ..⟩
  case chain    =>
    intro i hi'
    rw [h.head]
    by_cases hle : i ≤ e.height
    case pos =>
      have he : addrs i (lo ++ e :: hi) = addrs i lo ++ e.addr :: addrs i hi := by simp [addrs, hle]
      rw [he]
      exact h.chain hs hn hle hi' addrs_append <| hv i hle
    case neg =>
      have he : addrs i (lo ++ e :: hi) = addrs i (lo ++ hi) := by simp [addrs, hle]
      rw [he, ChainAt, h.head]
      have hold := h.others i (by omega)
      refine (hs.chain i hi').congr (hold _ <| hmem List.mem_cons_self) fun y hy => ?_
      exact hold y <| hmem <| List.mem_cons_of_mem _ <| addrs_sublist.subset hy

end Inserted

-- A node that is not at the front of the list of the highest level is put there.
def Misplaced (s : SkipList) (k : Int32) (l : Nat) : Prop :=
  s.level < l ∧ ∃ y ∈ s.forward s.head s.level, ∃ ky ∈ s.key y, ky < k

instance {s : SkipList} : Decidable (s.Misplaced k l) :=
  inferInstanceAs <| Decidable (s.level < l ∧ ∃ y ∈ s.forward s.head s.level, ∃ ky ∈ s.key y, ky < k)

theorem Valid.misplaced_iff (h : s.Valid (lo ++ hi)) (hlo : ∀ e ∈ lo, e.key < k) (hhi : ∀ e ∈ hi, ¬e.key < k)
    (hk : k < Int32.maxValue) : s.Misplaced k l ↔ s.level < l ∧ addrs s.level lo ≠ [] := by
  have hn := (h.chain s.level h.level).next_eq
  rw [Misplaced, hn, addrs_append]
  refine and_congr_right fun _ => ?_
  cases hl : addrs s.level lo
  case nil =>
    have ⟨ky, hky, hge⟩ := h.headD_key (i := s.level) hhi hk
    simp only [ne_eq, not_true, iff_false]
    intro ⟨y, hy, ky', hky', hlt⟩
    cases hy
    cases Option.mem_unique hky hky'
    exact hge hlt
  case cons y l =>
    have ⟨e, he, _, hy⟩ := mem_addrs.mp (hl ▸ List.mem_cons_self : y ∈ addrs s.level lo)
    have hky := (h.key e <| List.mem_append_left _ he).left
    simp [← hy, hky, hlo e he]

theorem place_eq (hn : ¬(s.level < l ∧ addrs s.level lo ≠ [])) :
    s.place lo l i = s.pred lo i := by
  rw [place]
  split
  case isFalse => rfl
  case isTrue hl =>
    have hnil : addrs s.level lo = [] := by simpa [hl.left] using hn
    have hi : addrs i lo = [] := by
      cases ha : addrs i lo
      case nil => rfl
      case cons y ys =>
        have ⟨e, he, hle, hy⟩ := mem_addrs.mp (ha ▸ List.mem_cons_self : y ∈ addrs i lo)
        have hm : y ∈ addrs s.level lo := mem_addrs.mpr ⟨e, he, Nat.le_trans hl.right hle, hy⟩
        rw [hnil] at hm
        cases hm
    rw [pred, hi]
    rfl

end Algorithm.SkipList
