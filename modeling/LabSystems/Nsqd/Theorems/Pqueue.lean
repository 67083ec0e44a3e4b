import Mathlib.Data.List.Nodup
import LabSystems.Heap.Basic
import LabSystems.Nsqd.InFlightPqueue

namespace Nsqd

namespace InFlightPqueue

variable {pq pq' pq'' : InFlightPqueue} {x y z : Ref} {i j k n : Nat}

-- The priorities in the order of the queue.
def key (pq : InFlightPqueue) (k : Nat) : Int :=
  (pq.pri k).elim 0 Int64.toInt

-- Messages know where they are in the queue.
def Indexed (pq : InFlightPqueue) : Prop :=
  ∀ (k : Nat) x, pq.refs[k]? = some x → (pq.messages x).index = k

theorem Indexed.inj (h : pq.Indexed) (hi : pq.refs[i]? = some x) (hj : pq.refs[j]? = some x) : i = j := by
  have he := (h i x hi).symm.trans <| h j x hj
  omega

theorem Indexed.nodup (h : pq.Indexed) : pq.refs.Nodup := by
  refine List.nodup_iff_getElem?_ne_getElem?.mpr fun i j hij hj he => ?_
  have hi := List.getElem?_eq_getElem hj
  exact absurd (h.inj (he.trans hi) hi) <| Nat.ne_of_lt hij

theorem messages_setIndex : (pq.setIndex x i).messages y =
    { pq.messages y with index := if y = x then i else (pq.messages y).index } := by
  unfold setIndex
  by_cases h : y = x
  case pos => simp [h]
  case neg => simp [h]

@[simp]
theorem refs_setIndex : (pq.setIndex x i).refs = pq.refs :=
  rfl

@[simp]
theorem pri_setIndex : (pq.setIndex x i).pri k = pq.pri k := by
  simp [pri, messages_setIndex]

-- The pointers up to an index are put into another order, and the indices are changed accordingly.
structure Moved (n : Nat) (pq pq' : InFlightPqueue) : Prop where
  perm    : pq'.refs.Perm pq.refs
  drop    : pq'.refs.drop n = pq.refs.drop n
  cap     : 1 ≤ pq.cap → 1 ≤ pq'.cap
  fields  : ∀ x, ∃ i, pq'.messages x = { pq.messages x with index := i }
  frame   : ∀ x ∉ pq.refs, pq'.messages x = pq.messages x
  indexed : pq.Indexed → pq'.Indexed

namespace Moved

theorem refl : Moved n pq pq where
  perm    := .refl _
  drop    := rfl
  cap     := id
  fields _ := ⟨_, rfl⟩
  frame _ _ := rfl
  indexed := id

theorem trans (h : Moved n pq pq') (h' : Moved n pq' pq'') : Moved n pq pq'' where
  perm       := h'.perm.trans h.perm
  drop       := h'.drop.trans h.drop
  cap        := h'.cap ∘ h.cap
  fields x   := by
    have ⟨i, hi⟩ := h.fields x
    have ⟨j, hj⟩ := h'.fields x
    exact ⟨j, by rw [hj, hi]⟩
  frame x hx := (h'.frame x <| mt h.perm.mem_iff.mp hx).trans <| h.frame x hx
  indexed    := h'.indexed ∘ h.indexed

end Moved

theorem getElem?_swap {l : List Ref} (hi : l[i]? = some x) (hj : l[j]? = some y) (k : Nat) :
    ((l.set i y).set j x)[k]? = l[Equiv.swap i j k]? := by
  have ⟨hil, _⟩ := List.getElem?_eq_some_iff.mp hi
  have ⟨hjl, _⟩ := List.getElem?_eq_some_iff.mp hj
  rw [Equiv.swap_apply_def, List.getElem?_set, List.getElem?_set, List.length_set]
  by_cases hkj : j = k
  case pos =>
    subst hkj
    rw [if_pos rfl, if_pos hjl, ← hi]
    split
    case isTrue h  => rw [h, hi]
    case isFalse   => rw [if_pos rfl]
  case neg =>
    rw [if_neg hkj]
    by_cases hki : i = k
    case pos =>
      subst hki
      rw [if_pos rfl, if_pos hil, if_pos rfl, hj]
    case neg =>
      rw [if_neg hki, if_neg (Ne.symm hki), if_neg (Ne.symm hkj)]

theorem perm_swap {l : List Ref} (hi : l[i]? = some x) (hj : l[j]? = some y) : ((l.set i y).set j x).Perm l := by
  have ⟨hil, hx⟩ := List.getElem?_eq_some_iff.mp hi
  have ⟨hjl, hy⟩ := List.getElem?_eq_some_iff.mp hj
  exact hx ▸ hy ▸ List.set_set_perm hil hjl

theorem swap_eq (hx : pq.refs[i]? = some x) (hy : pq.refs[j]? = some y) :
    ∃ pq', pq.swap i j = some pq' ∧ pq'.refs = (pq.refs.set i y).set j x ∧ pq'.cap = pq.cap ∧
      pq'.messages = ((pq.setIndex y i).setIndex x j).messages := by
  simp [swap, hx, hy, setIndex]

theorem swap_spec (hi : i < n) (hj : j < n) (hn : n ≤ pq.refs.length) :
    ∃ pq', pq.swap i j = some pq' ∧ Moved n pq pq' ∧ pq'.key = pq.key ∘ Equiv.swap i j ∧
      ∀ k, pq'.refs[k]? = pq.refs[Equiv.swap i j k]? := by
  have ⟨x, hx⟩ : ∃ x, pq.refs[i]? = some x := ⟨_, List.getElem?_eq_getElem (hi.trans_le hn)⟩
  have ⟨y, hy⟩ : ∃ y, pq.refs[j]? = some y := ⟨_, List.getElem?_eq_getElem (hj.trans_le hn)⟩
  have ⟨pq', hs, hrefs, hcap, hmessages⟩ := swap_eq hx hy
  have hget (k) : pq'.refs[k]? = pq.refs[Equiv.swap i j k]? := hrefs ▸ getElem?_swap hx hy k
  have hpri (z) : (pq'.messages z).pri = (pq.messages z).pri := by
    rw [hmessages, messages_setIndex, messages_setIndex]
  refine ⟨pq', hs, ?_, ?_, hget⟩
  case refine_2 =>
    funext k
    simp only [key, pri, hget, hpri, Function.comp_apply]
  case refine_1 =>
    constructor
    case perm   => exact hrefs ▸ perm_swap hx hy
    case drop   => rw [hrefs, List.drop_set_of_lt hj, List.drop_set_of_lt hi]
    case cap    => exact hcap ▸ id
    case fields => exact fun z => ⟨_, by rw [hmessages, messages_setIndex, messages_setIndex]⟩
    case frame  =>
      intro z hz
      have hzx : z ≠ x := fun he => hz <| he ▸ List.mem_of_getElem? hx
      have hzy : z ≠ y := fun he => hz <| he ▸ List.mem_of_getElem? hy
      rw [hmessages, messages_setIndex, messages_setIndex, if_neg hzx, if_neg hzy]
    case indexed =>
      intro h k z hz
      have hz := (hget k).symm.trans hz
      rw [hmessages, messages_setIndex, messages_setIndex]
      dsimp only
      split
      case isTrue hzx =>
        have hk := h.inj hz <| hzx ▸ hx
        have hk : k = j := (Equiv.swap i j).injective <| hk.trans (Equiv.swap_apply_right i j).symm
        rw [hk]
      case isFalse hzx =>
        split
        case isTrue hzy =>
          have hk := h.inj hz <| hzy ▸ hy
          have hk : k = i := (Equiv.swap i j).injective <| hk.trans (Equiv.swap_apply_left i j).symm
          rw [hk]
        case isFalse hzy =>
          have hki : k ≠ i := by
            rintro rfl
            rw [Equiv.swap_apply_left, hy] at hz
            exact hzy <| (Option.some.inj hz).symm
          have hkj : k ≠ j := by
            rintro rfl
            rw [Equiv.swap_apply_right, hx] at hz
            exact hzx <| (Option.some.inj hz).symm
          rw [h _ _ hz, Equiv.swap_apply_of_ne_of_ne hki hkj]

theorem exists_pri (h : k < pq.refs.length) : ∃ a, pq.pri k = some a ∧ pq.key k = a.toInt := by
  have ha : pq.pri k = some (pq.messages pq.refs[k]).pri := by
    rw [pri, List.getElem?_eq_getElem h, Option.map_some]
  exact ⟨_, ha, by rw [key, ha]; rfl⟩

theorem up_stop (hj : j < pq.refs.length) (h : Heap.parent j = j ∨ pq.key (Heap.parent j) ≤ pq.key j) :
    pq.up j = some pq := by
  rw [up]
  change (if h : Heap.parent j = j then _ else _) = some pq
  split
  case isTrue => rfl
  case isFalse hp =>
    have hp' := Heap.parent_lt <| Heap.parent_ne_iff.mp hp
    have ⟨a, ha, hka⟩ := exists_pri hj
    have ⟨b, hb, hkb⟩ := exists_pri (hp'.trans hj)
    have hle : b ≤ a := Int64.le_iff_toInt_le.mpr <| hka ▸ hkb ▸ h.resolve_left hp
    unfold Heap.parent at hb
    simp [ha, hb, hle]

theorem up_next (hj : j < pq.refs.length) (hp : Heap.parent j ≠ j) (h : pq.key j < pq.key (Heap.parent j))
    (hs : pq.swap (Heap.parent j) j = some pq') : pq.up j = pq'.up (Heap.parent j) := by
  have hp' := Heap.parent_lt <| Heap.parent_ne_iff.mp hp
  have ⟨a, ha, hka⟩ := exists_pri hj
  have ⟨b, hb, hkb⟩ := exists_pri (hp'.trans hj)
  have hle : ¬b ≤ a := fun hle => absurd (hka ▸ hkb ▸ Int64.le_iff_toInt_le.mp hle) <| not_le.mpr h
  rw [up]
  unfold Heap.parent at hb hs hp ⊢
  simp [ha, hb, hle, hs, hp]

-- Sifting moves the keys like those of any heap, and does not panic.
theorem up_spec (hj : j < n) (hn : n ≤ pq.refs.length) :
    ∃ pq', pq.up j = some pq' ∧ Moved n pq pq' ∧ pq'.key = Heap.up pq.key j := by
  generalize hf : pq.key = f
  fun_induction Heap.up f j generalizing pq
  case case1 hs       => exact ⟨pq, up_stop (hj.trans_le hn) (hf ▸ hs), .refl, hf⟩
  case case2 j hs hi =>
    obtain ⟨hp, hlt⟩ := not_or.mp hs
    have hp' := (Heap.parent_lt <| Heap.parent_ne_iff.mp hp).trans hj
    obtain ⟨pq₁, hswap, hm, hk, _⟩ := swap_spec hp' hj hn
    obtain ⟨pq₂, hu, hm', hk'⟩ := hi hp' (hm.perm.length_eq.symm ▸ hn) (by rw [hk, hf])
    exact ⟨pq₂, (up_next (hj.trans_le hn) hp (hf ▸ not_le.mp hlt) hswap).trans hu, hm.trans hm', hk'⟩

theorem child_eq (hn : n ≤ pq.refs.length) (h : 2 * i + 1 < n) : pq.child i n = some (Heap.child pq.key i n) := by
  have ⟨a, ha, hka⟩ := exists_pri (h.trans_le hn)
  unfold child Heap.child
  by_cases hr : 2 * i + 2 < n
  case neg => simp [hr]
  case pos =>
    have ⟨b, hb, hkb⟩ := exists_pri (hr.trans_le hn)
    by_cases hle : b ≤ a
    case pos => simp [hr, ha, hb, hka, hkb, hle, Int64.le_iff_toInt_le.mp hle]
    case neg => simp [hr, ha, hb, hka, hkb, hle, mt Int64.le_iff_toInt_le.mpr hle]

theorem down_stop (hn : n ≤ pq.refs.length) (h : n ≤ 2 * i + 1 ∨ pq.key i ≤ pq.key (Heap.child pq.key i n)) :
    pq.down i n = some pq := by
  rw [down]
  split
  case isTrue     => rfl
  case isFalse hl =>
    have hl := not_le.mp hl
    have hc := child_eq hn hl
    have ⟨a, ha, hka⟩ := exists_pri <| (Heap.child_lt (f := pq.key) hl).trans_le hn
    have ⟨b, hb, hkb⟩ := exists_pri (k := i) (by omega : i < pq.refs.length)
    have hle : b ≤ a := Int64.le_iff_toInt_le.mpr <| hka ▸ hkb ▸ h.resolve_left (not_le.mpr hl)
    split
    case h_1 hn   => cases hc.symm.trans hn
    case h_2 j hj =>
      cases hc.symm.trans hj
      simp [ha, hb, hle]

theorem down_next (hn : n ≤ pq.refs.length) (hl : 2 * i + 1 < n) (h : pq.key (Heap.child pq.key i n) < pq.key i)
    (hs : pq.swap i (Heap.child pq.key i n) = some pq') : pq.down i n = pq'.down (Heap.child pq.key i n) n := by
  have hc := child_eq hn hl
  have ⟨a, ha, hka⟩ := exists_pri <| (Heap.child_lt (f := pq.key) hl).trans_le hn
  have ⟨b, hb, hkb⟩ := exists_pri (k := i) (by omega : i < pq.refs.length)
  have hle : ¬b ≤ a := fun hle => absurd (hka ▸ hkb ▸ Int64.le_iff_toInt_le.mp hle) <| not_le.mpr h
  rw [down, if_neg (not_le.mpr hl)]
  split
  case h_1 hn   => cases hc.symm.trans hn
  case h_2 j hj =>
    cases hc.symm.trans hj
    simp [ha, hb, hle, hs]

theorem down_spec (hn : n ≤ pq.refs.length) :
    ∃ pq', pq.down i n = some pq' ∧ Moved n pq pq' ∧ pq'.key = Heap.down pq.key i n := by
  generalize hf : pq.key = f
  fun_induction Heap.down f i n generalizing pq
  case case1 hs      => exact ⟨pq, down_stop hn (hf ▸ hs), .refl, hf⟩
  case case2 i hs hi =>
    obtain ⟨hl, hlt⟩ := not_or.mp hs
    have hl := not_le.mp hl
    have hc := Heap.child_lt (f := pq.key) hl
    obtain ⟨pq₁, hswap, hm, hk, _⟩ := swap_spec (by omega : i < n) hc hn
    obtain ⟨pq₂, hd, hm', hk'⟩ := hi (hm.perm.length_eq.symm ▸ hn) (by rw [hk, hf])
    subst hf
    exact ⟨pq₂, (down_next hn hl (not_le.mp hlt) hswap).trans hd, hm.trans hm', hk'⟩

-- What holds between operations.
structure Valid (pq : InFlightPqueue) : Prop where
  indexed : pq.Indexed
  ordered : Heap.Ordered pq.key pq.refs.length
  cap_pos : 1 ≤ pq.cap

-- A message has been put into the queue.
structure Pushed (pq : InFlightPqueue) (x : Ref) (pq' : InFlightPqueue) : Prop extends Valid pq' where
  perm   : pq'.refs.Perm (x :: pq.refs)
  fields : ∀ y, ∃ i, pq'.messages y = { pq.messages y with index := i }
  frame  : ∀ y ∉ x :: pq.refs, pq'.messages y = pq.messages y

-- A message has been taken out of the queue.
structure Taken (pq : InFlightPqueue) (x : Ref) (pq' : InFlightPqueue) : Prop extends Valid pq' where
  perm   : pq.refs.Perm (x :: pq'.refs)
  fields : ∀ y, ∃ i, pq'.messages y = { pq.messages y with index := i }
  frame  : ∀ y ∉ pq.refs, pq'.messages y = pq.messages y
  index  : (pq'.messages x).index = -1

theorem grow_spec (h : 1 ≤ pq.cap) :
    ∃ pq', (if pq.refs.length + 1 > pq.cap then pq.make (pq.cap * 2) else some pq) = some pq' ∧
      pq'.refs = pq.refs ∧ pq'.messages = pq.messages ∧ pq.refs.length + 1 ≤ pq'.cap := by
  have hl := pq.le
  split
  case isFalse hc => exact ⟨pq, rfl, rfl, rfl, not_lt.mp hc⟩
  case isTrue  hc =>
    have hm : pq.refs.length ≤ pq.cap * 2 := by omega
    exact ⟨_, dif_pos hm, rfl, rfl, by dsimp only; omega⟩

theorem extend_spec (x : Ref) (h : pq.refs.length + 1 ≤ pq.cap) : ∃ pq', pq.extend x = some pq' ∧
    pq'.refs = pq.refs ++ [x] ∧ pq'.messages = pq.messages ∧ pq'.cap = pq.cap :=
  ⟨_, dif_pos h, rfl, rfl, rfl⟩

theorem key_congr (hr : pq'.refs[k]? = pq.refs[k]?) (hp : ∀ y, (pq'.messages y).pri = (pq.messages y).pri) :
    pq'.key k = pq.key k := by
  simp only [key, pri, hr, hp]

theorem push_eq (pq : InFlightPqueue) (x : Ref) : pq.push x =
    (if pq.refs.length + 1 > pq.cap then pq.make (pq.cap * 2) else some pq).bind fun pq₁ =>
      ((pq₁.setIndex x pq.refs.length).extend x).bind fun pq₂ => pq₂.up pq.refs.length := by
  rw [push]
  split
  all_goals rfl

theorem push_spec (h : pq.Valid) (hx : x ∉ pq.refs) : ∃ pq', pq.push x = some pq' ∧ Pushed pq x pq' := by
  have ⟨pq₁, hg, hr₁, hm₁, hc₁⟩ := grow_spec h.cap_pos
  have ⟨pq₂, he, hr₂, hm₂, hc₂⟩ := (pq₁.setIndex x pq.refs.length).extend_spec x (hr₁ ▸ hc₁)
  rw [refs_setIndex, hr₁] at hr₂
  have hm₂ (y) : pq₂.messages y =
      { pq.messages y with index := if y = x then pq.refs.length else (pq.messages y).index } := by
    rw [hm₂, messages_setIndex, hm₁]
  have hlen : pq₂.refs.length = pq.refs.length + 1 := by simp [hr₂]
  have hget {k} (hk : k < pq.refs.length) : pq₂.refs[k]? = pq.refs[k]? := by
    rw [hr₂, List.getElem?_append_left hk]
  have hkey {k} (hk : k < pq.refs.length) : pq₂.key k = pq.key k :=
    key_congr (hget hk) fun y => by rw [hm₂]
  have hindexed : pq₂.Indexed := by
    intro k z hz
    rw [hm₂]
    by_cases hk : k < pq.refs.length
    case pos =>
      have hz := (hget hk).symm.trans hz
      have hzx : z ≠ x := fun he => hx <| he ▸ List.mem_of_getElem? hz
      simpa [hzx] using h.indexed k z hz
    case neg =>
      have ⟨hl, _⟩ := List.getElem?_eq_some_iff.mp hz
      have hk : k = pq.refs.length := by omega
      subst hk
      have hzx : x = z := by simpa [hr₂] using hz
      simp [hzx]
  have ⟨pq₃, hu, hmoved, hk₃⟩ := pq₂.up_spec (Nat.lt_succ_self _) (le_of_eq hlen.symm)
  refine ⟨pq₃, ?_, ⟨hmoved.indexed hindexed, ?_, ?_⟩, ?_, ?_, ?_⟩
  case refine_1 => rw [push_eq, hg, Option.bind_some, he, Option.bind_some, hu]
  case refine_2 =>
    rw [hk₃, hmoved.perm.length_eq, hlen]
    exact (h.ordered.snoc fun k => hkey).up <| Nat.lt_succ_self _
  case refine_3 =>
    have hl := pq₂.le
    exact hmoved.cap <| by omega
  case refine_4 =>
    have hp : pq₂.refs.Perm (x :: pq.refs) := hr₂ ▸ List.perm_append_singleton x pq.refs
    exact hmoved.perm.trans hp
  case refine_5 =>
    intro y
    have ⟨i, hi⟩ := hmoved.fields y
    exact ⟨i, by rw [hi, hm₂]⟩
  case refine_6 =>
    intro y hy
    have hy₂ : y ∉ pq₂.refs := by simpa [hr₂, or_comm] using hy
    rw [hmoved.frame y hy₂, hm₂, if_neg (List.ne_of_not_mem_cons hy)]

namespace Moved

theorem mono (h : Moved m pq pq') (hn : m ≤ n) : Moved n pq pq' where
  perm    := h.perm
  drop    := by
    have hd := congrArg (List.drop (n - m)) h.drop
    rwa [List.drop_drop, List.drop_drop, Nat.add_sub_cancel' hn] at hd
  cap     := h.cap
  fields  := h.fields
  frame   := h.frame
  indexed := h.indexed

theorem get (h : Moved n pq pq') (hk : n ≤ k) : pq'.refs[k]? = pq.refs[k]? := by
  have hd := congrArg (·[k - n]?) h.drop
  simpa [List.getElem?_drop, Nat.add_sub_cancel' hk] using hd

theorem make (h : pq.make c = some pq') (hc : 1 ≤ c) : Moved n pq pq' := by
  unfold InFlightPqueue.make at h
  split at h
  case isFalse => cases h
  case isTrue  =>
    cases h
    exact ⟨.refl _, rfl, fun _ => hc, fun _ => ⟨_, rfl⟩, fun _ _ => rfl, id⟩

end Moved

-- The last message is taken.
theorem shorten_spec (h : pq.Valid) (hm : Moved pq.refs.length pq pq') (hx : pq'.refs[pq.refs.length - 1]? = some x)
    (ho : Heap.Ordered pq'.key (pq.refs.length - 1)) : ∃ pq'', pq'.shorten = some (pq'', x) ∧ Taken pq x pq'' := by
  have hlen := hm.perm.length_eq
  have hlast : pq'.refs.getLast? = some x := by rw [List.getLast?_eq_getElem?, hlen, hx]
  have hindexed := hm.indexed h.indexed
  have ⟨pq'', hs, hr, hc, hmessages⟩ : ∃ pq'', pq'.shorten = some (pq'', x) ∧ pq''.refs = pq'.refs.dropLast ∧
      pq''.cap = pq'.cap ∧ pq''.messages = (pq'.setIndex x (-1)).messages := by
    simp [shorten, hlast, setIndex]
  have hmessages (y) : pq''.messages y =
      { pq'.messages y with index := if y = x then -1 else (pq'.messages y).index } := by
    simp only [hmessages, setIndex, Function.update_apply]
    split
    case isTrue hy => rw [hy]
    case isFalse   => rfl
  have hlen'' : pq''.refs.length = pq.refs.length - 1 := by rw [hr, List.length_dropLast, hlen]
  have hget {k} (hk : k < pq.refs.length - 1) : pq''.refs[k]? = pq'.refs[k]? := by
    rw [hr, List.getElem?_dropLast, if_pos (hlen.symm ▸ hk)]
  refine ⟨pq'', hs, ⟨?_, ?_, hc ▸ hm.cap h.cap_pos⟩, ?_, ?_, ?_, by simp [hmessages]⟩
  case refine_1 =>
    intro k z hz
    have ⟨hk, _⟩ := List.getElem?_eq_some_iff.mp hz
    have hk := hlen'' ▸ hk
    have hz := (hget hk).symm.trans hz
    have hzx : z ≠ x := fun he => Nat.ne_of_lt hk <| hindexed.inj (he ▸ hz) hx
    simpa [hmessages, hzx] using hindexed k z hz
  case refine_2 =>
    rw [hlen'']
    exact ho.congr fun k hk => key_congr (hget hk) fun y => by rw [hmessages]
  case refine_3 =>
    have he : pq'.refs = pq''.refs ++ [x] := hr ▸ List.dropLast_append_getLast? x hlast |>.symm
    exact hm.perm.symm.trans <| he ▸ List.perm_append_singleton x pq''.refs
  case refine_4 =>
    intro y
    have ⟨i, hi⟩ := hm.fields y
    exact ⟨_, by rw [hmessages, hi]⟩
  case refine_5 =>
    intro y hy
    have hyx : y ≠ x := by
      rintro rfl
      exact hy <| hm.perm.mem_iff.mp <| List.mem_of_getElem? hx
    rw [hmessages, if_neg hyx]
    exact hm.frame y hy

-- The message at an index comes to the end, and the last one to its place.
theorem swap_last_spec (h : pq.Valid) (hx : pq.refs[i]? = some x) : ∃ pq', pq.swap i (pq.refs.length - 1) = some pq' ∧
    Moved pq.refs.length pq pq' ∧ pq'.refs[pq.refs.length - 1]? = some x ∧
      Heap.Hole pq'.key (pq.refs.length - 1) i := by
  have ⟨hi, _⟩ := List.getElem?_eq_some_iff.mp hx
  have ⟨pq', hs, hm, hk, hget⟩ := swap_spec hi (by omega : pq.refs.length - 1 < pq.refs.length) (le_refl _)
  refine ⟨pq', hs, hm, by rw [hget, Equiv.swap_apply_right, hx], ?_⟩
  refine (h.ordered.hole hi |>.mono <| Nat.sub_le _ _).congr fun k hlt hki => ?_
  rw [hk, Function.comp_apply, Equiv.swap_apply_of_ne_of_ne hki <| Nat.ne_of_lt hlt]

theorem shrink_spec (pq : InFlightPqueue) (n : Nat) (hn : pq.refs.length ≤ n) :
    ∃ pq', (if n < pq.cap / 2 ∧ pq.cap > 25 then pq.make (pq.cap / 2) else some pq) = some pq' ∧
      (∀ m, Moved m pq pq') ∧ pq'.key = pq.key ∧ pq'.refs = pq.refs := by
  split
  case isFalse   => exact ⟨pq, rfl, fun _ => .refl, rfl, rfl⟩
  case isTrue hc =>
    have hl : pq.refs.length ≤ pq.cap / 2 := by omega
    have hm : pq.make (pq.cap / 2) = some _ := dif_pos hl
    exact ⟨_, hm, fun _ => .make hm (by omega), rfl, rfl⟩

theorem pop_eq (pq : InFlightPqueue) : pq.pop = (pq.swap 0 (pq.refs.length - 1)).bind fun pq₁ =>
    (pq₁.down 0 (pq.refs.length - 1)).bind fun pq₂ =>
      (if pq.refs.length < pq₂.cap / 2 ∧ pq₂.cap > 25 then pq₂.make (pq₂.cap / 2) else some pq₂).bind shorten := by
  rw [pop]
  refine congrArg _ <| funext fun pq₁ => congrArg _ <| funext fun pq₂ => ?_
  split
  all_goals rfl

theorem pop_spec (h : pq.Valid) (hx : pq.refs[0]? = some x) : ∃ pq', pq.pop = some (pq', x) ∧ Taken pq x pq' := by
  have ⟨pq₁, hs, hm₁, hx₁, hh⟩ := swap_last_spec h hx
  have hlen := hm₁.perm.length_eq
  have ⟨pq₂, hd, hm₂, hk₂⟩ := pq₁.down_spec (n := pq.refs.length - 1) (i := 0) (by omega)
  have ⟨pq₃, hg, hm₃, hk₃, hr₃⟩ := pq₂.shrink_spec pq.refs.length <| by rw [hm₂.perm.length_eq]; omega
  have hm : Moved pq.refs.length pq pq₃ := hm₁.trans <| (hm₂.mono <| Nat.sub_le _ _).trans <| hm₃ _
  have hx₃ : pq₃.refs[pq.refs.length - 1]? = some x := by rw [hr₃, hm₂.get (le_refl _), hx₁]
  have ho : Heap.Ordered pq₃.key (pq.refs.length - 1) := by
    have hr : Heap.DownReady pq₁.key (pq.refs.length - 1) 0 := { toHole := hh, above := nofun }
    rw [hk₃, hk₂]
    exact hr.down
  have ⟨pq', hs', ht⟩ := shorten_spec h hm hx₃ ho
  exact ⟨pq', by rw [pop_eq, hs, Option.bind_some, hd, Option.bind_some, hg, Option.bind_some, hs'], ht⟩

theorem remove_spec (h : pq.Valid) (hx : pq.refs[i]? = some x) :
    ∃ pq', pq.remove i = some (pq', x) ∧ Taken pq x pq' := by
  have ⟨hi, _⟩ := List.getElem?_eq_some_iff.mp hx
  by_cases hl : pq.refs.length - 1 = i
  case pos =>
    have ho : Heap.Ordered pq.key (pq.refs.length - 1) :=
      fun k hk => h.ordered k <| hk.trans_le <| Nat.sub_le _ _
    have ⟨pq', hs, ht⟩ := shorten_spec h .refl (hl ▸ hx) ho
    exact ⟨pq', by simpa [remove, hl] using hs, ht⟩
  case neg =>
    have hi' : i < pq.refs.length - 1 := by omega
    have ⟨pq₁, hs, hm₁, hx₁, hh⟩ := swap_last_spec h hx
    have hlen := hm₁.perm.length_eq
    have ⟨pq₂, hd, hm₂, hk₂⟩ := pq₁.down_spec (n := pq.refs.length - 1) (i := i) (by omega)
    have hlen' := hm₂.perm.length_eq
    have ⟨pq₃, hu, hm₃, hk₃⟩ := pq₂.up_spec hi' (by omega)
    have hm : Moved pq.refs.length pq pq₃ := hm₁.trans <| (hm₂.trans hm₃).mono <| Nat.sub_le _ _
    have hx₃ : pq₃.refs[pq.refs.length - 1]? = some x := by
      rw [hm₃.get (le_refl _), hm₂.get (le_refl _), hx₁]
    have ho : Heap.Ordered pq₃.key (pq.refs.length - 1) := by
      rw [hk₃, hk₂]
      exact (hh.down hi').up hi'
    have ⟨pq', hs', ht⟩ := shorten_spec h hm hx₃ ho
    exact ⟨pq', by simp [remove, hl, hs, hd, hu, hs'], ht⟩

def Minimal (pq : InFlightPqueue) (x : Ref) : Prop :=
  x ∈ pq.refs ∧ ∀ y ∈ pq.refs, (pq.messages x).pri ≤ (pq.messages y).pri

theorem key_of_get (h : pq.refs[k]? = some x) : pq.key k = (pq.messages x).pri.toInt := by
  rw [key, pri, h]
  rfl

theorem Valid.minimal (h : pq.Valid) (hx : pq.refs[0]? = some x) : pq.Minimal x := by
  refine ⟨List.mem_of_getElem? hx, fun y hy => ?_⟩
  have ⟨k, hk⟩ := List.getElem?_of_mem hy
  have ⟨hl, _⟩ := List.getElem?_eq_some_iff.mp hk
  have hr := h.ordered.root_le hl
  rw [key_of_get hx, key_of_get hk] at hr
  exact Int64.le_iff_toInt_le.mpr hr

namespace Event

def taken : Event → Option Ref
  | pushed _                  => none
  | popped x | removed _ x    => some x
  | shifted _ x _             => x

-- What an operation on a queue should return.
def Correct (pq : InFlightPqueue) : Event → Prop
  | pushed x                  => x ∉ pq.refs
  | popped x                  => pq.Minimal x
  | removed i x               => pq.refs[i]? = some x
  | shifted max (some x) left => pq.Minimal x ∧ (pq.messages x).pri ≤ max ∧ left = 0
  | shifted max none left     => (∀ x ∈ pq.refs, max < (pq.messages x).pri) ∧
    (pq.refs = [] → left = 0) ∧ ∀ x, pq.Minimal x → left = (pq.messages x).pri - max

-- The messages that have been pushed and not been taken since.
def remaining (refs : List Ref) : Event → List Ref
  | pushed x => x :: refs
  | e        => e.taken.elim refs refs.erase

end Event

def remaining (es : List Event) : List Ref :=
  es.foldl Event.remaining []

theorem Event.remaining_perm (e : Event) (h : l.Perm l') : (e.remaining l).Perm (e.remaining l') := by
  cases e
  case pushed x      => exact h.cons x
  case popped x      => exact h.erase x
  case removed i x   => exact h.erase x
  case shifted m x n =>
    cases x
    case none   => exact h
    case some x => exact h.erase x

theorem remaining_append (es : List Event) (e : Event) (h : l.Perm (remaining es)) :
    (e.remaining l).Perm (remaining (es ++ [e])) := by
  rw [remaining, List.foldl_append]
  exact e.remaining_perm h

theorem Event.Correct.mem {e : Event} (h : e.Correct pq) (hx : e.taken = some x) : x ∈ pq.refs := by
  cases e
  case pushed      => cases hx
  case popped y    => exact Option.some.inj hx ▸ h.left
  case removed i y => exact Option.some.inj hx ▸ List.mem_of_getElem? h
  case shifted m y n =>
    cases hx
    exact h.left.left

-- What an operation does.
structure Ran (pq : InFlightPqueue) (es : List Event) (pq' : InFlightPqueue) : Prop where
  valid   : pq'.Valid
  correct : ∀ e ∈ es, e.Correct pq
  perm    : ∀ es', pq.refs.Perm (remaining es') → pq'.refs.Perm (remaining (es' ++ es))
  taken   : ∀ x ∈ pq.refs, x ∉ pq'.refs → (pq'.messages x).index = -1
  frame   : ∀ x ∉ pq.refs, x ∉ pq'.refs → (pq'.messages x).index = (pq.messages x).index

theorem Pushed.ran (h : Pushed pq x pq') (hx : x ∉ pq.refs) : Ran pq [.pushed x] pq' where
  valid           := h.toValid
  correct         := by simpa [Event.Correct] using hx
  perm es hes     := h.perm.trans <| remaining_append es (.pushed x) hes
  taken y hy hn   := absurd (h.perm.mem_iff.mpr <| List.mem_cons_of_mem _ hy) hn
  frame y hy hn   := by
    have hy : y ∉ x :: pq.refs := mt h.perm.mem_iff.mpr hn
    rw [h.frame y hy]

theorem Taken.ran (h : Taken pq x pq') (he : e.Correct pq) (hx : e.taken = some x) : Ran pq [e] pq' where
  valid         := h.toValid
  correct       := by simpa using he
  perm es hes   := by
    have hr : e.remaining pq.refs = pq.refs.erase x := by
      cases e
      case pushed => cases hx
      all_goals
        rw [Event.remaining, hx, Option.elim_some]
        nofun
    have hp : pq'.refs.Perm (e.remaining pq.refs) := by
      have hp := h.perm.erase x
      rw [List.erase_cons_head] at hp
      exact hr ▸ hp.symm
    exact hp.trans <| remaining_append es e hes
  taken y hy hn := by
    have hyx : y = x := (List.mem_cons.mp <| h.perm.mem_iff.mp hy).resolve_right hn
    rw [hyx, h.index]
  frame y hy _  := by rw [h.frame y hy]

theorem write_ran (h : pq.Valid) (hx : x ∉ pq.refs) (m : InFlight) : Ran pq [] (pq.write x m) := by
  have hm {y} (hy : y ≠ x) : (pq.write x m).messages y = pq.messages y := Function.update_of_ne hy ..
  have hne {y} (hy : y ∈ pq.refs) : y ≠ x := fun he => hx <| he ▸ hy
  have hindex (y) : ((pq.write x m).messages y).index = (pq.messages y).index := by
    by_cases hy : y = x
    case pos => simp [hy, write]
    case neg => rw [hm hy]
  constructor
  case correct => simp
  case perm    => exact fun es hes => by rwa [List.append_nil]
  case taken   => exact fun y hy hn => absurd hy hn
  case frame   => exact fun y _ _ => hindex y
  case valid   =>
    refine ⟨fun k y hy => (hindex y).trans <| h.indexed k y hy, ?_, h.cap_pos⟩
    refine h.ordered.congr fun k hk => ?_
    have hy := List.getElem?_eq_getElem hk
    have hy' : (pq.write x m).refs[k]? = some pq.refs[k] := hy
    rw [key_of_get hy, key_of_get hy', hm <| hne <| List.getElem_mem hk]

theorem Valid.ran {max left : Int64} (h : pq.Valid) (he : Event.Correct pq (.shifted max none left)) :
    Ran pq [.shifted max none left] pq where
  valid         := h
  correct       := by simpa using he
  perm es hes   := remaining_append es (.shifted max none left) hes
  taken y hy hn := absurd hy hn
  frame _ _ _   := rfl

theorem shift_ran (h : pq.Valid) (max : Int64) :
    ∃ pq' x left, pq.peekAndShift max = some (pq', x, left) ∧ Ran pq [.shifted max x left] pq' := by
  cases hr : pq.refs
  case nil =>
    refine ⟨pq, none, 0, by simp [peekAndShift, hr], h.ran ?_⟩
    simp [Event.Correct, hr, Minimal]
  case cons x refs =>
    have hx : pq.refs[0]? = some x := by simp [hr]
    have hmin := h.minimal hx
    by_cases hlt : (pq.messages x).pri > max
    case pos =>
      refine ⟨pq, none, (pq.messages x).pri - max, by simp [peekAndShift, hr, hlt], h.ran ⟨?_, ?_, ?_⟩⟩
      case refine_1 => exact fun y hy => Int64.lt_of_lt_of_le hlt <| hmin.right y hy
      case refine_2 => simp [hr]
      case refine_3 =>
        intro y hy
        rw [Int64.le_antisymm (hmin.right y hy.left) (hy.right x hmin.left)]
    case neg =>
      have ⟨pq', hp, ht⟩ := pop_spec h hx
      refine ⟨pq', some x, 0, by simp [peekAndShift, hr, hlt, hp], ht.ran ⟨hmin, ?_, rfl⟩ rfl⟩
      exact Int64.not_lt.mp hlt

-- Every operation keeps the queue valid, and returns what it should.
theorem run_spec (h : pq.Valid) (ha : pq.Allowed op) : ∃ pq' es, pq.run op = some (pq', es) ∧ Ran pq es pq' := by
  cases op
  case push x =>
    have ⟨pq', hp, hs⟩ := push_spec h ha
    exact ⟨pq', _, by rw [run, hp]; rfl, hs.ran ha⟩
  case pop =>
    have hl := List.length_pos_iff.mpr ha
    have hx := List.getElem?_eq_getElem hl
    have ⟨pq', hp, ht⟩ := pop_spec h hx
    exact ⟨pq', _, by rw [run, hp]; rfl, ht.ran (e := .popped _) (h.minimal hx) rfl⟩
  case remove i =>
    have hx := List.getElem?_eq_getElem ha
    have ⟨pq', hr, ht⟩ := remove_spec h hx
    exact ⟨pq', _, by rw [run, hr]; rfl, ht.ran (e := .removed i _) hx rfl⟩
  case peekAndShift max =>
    have ⟨pq', x, left, hs, hr⟩ := shift_ran h max
    exact ⟨pq', _, by rw [run, hs]; rfl, hr⟩
  case write x m => exact ⟨_, _, rfl, write_ran h ha m⟩

open Machine (events)

variable {messages : Ref → InFlight} {ts : List ((pqueue messages c).Transition)}

abbrev Transition (messages : Ref → InFlight) (c : Nat) :=
  (pqueue messages c).Transition

-- What holds after operations.
structure After (es : List Event) (pq : InFlightPqueue) : Prop extends Valid pq where
  perm  : pq.refs.Perm (remaining es)
  taken : ∀ e ∈ es, ∀ x ∈ e.taken, x ∉ pq.refs → (pq.messages x).index = -1

theorem After.ran (h : After es pq) (hr : Ran pq es' pq') : After (es ++ es') pq' where
  toValid := hr.valid
  perm    := hr.perm es h.perm
  taken   := by
    intro e he x hx hn
    by_cases hm : x ∈ pq.refs
    case pos => exact hr.taken x hm hn
    case neg =>
      rcases List.mem_append.mp he with he | he
      case inl => exact (hr.frame x hm hn).trans <| h.taken e he x hx hm
      case inr => exact absurd ((hr.correct e he).mem hx) hm

theorem After.new (h : 1 ≤ c) : After [] (new messages c) where
  indexed := nofun
  ordered := .empty
  cap_pos := h
  perm    := .refl _
  taken   := nofun

theorem After.step (t : Transition messages c) (hpre : t.pre = some pq) (h : After es pq) :
    ∃ pq', t.post = some pq' ∧ After (es ++ t.events) pq' ∧ ∀ e ∈ t.events, e.Correct pq := by
  have hv := t.valid
  simp only [pqueue, hpre, Option.bind_some] at hv
  split at hv
  case isFalse   => cases hv
  case isTrue ha =>
    have ⟨pq', es', hrun, hr⟩ := run_spec h.toValid ha
    rw [hrun] at hv
    have ⟨hpost, hes⟩ := Prod.mk.inj <| Option.some.inj hv
    exact ⟨pq', hpost.symm, hes ▸ h.ran hr, hes ▸ hr.correct⟩

-- The queue is an indexed heap of the messages that have not been taken, and never panics.
theorem indexed_heap (hc : 1 ≤ c) (r : (pqueue messages c).Run ts o) :
    (∃ pq, o = some pq ∧ pq.Indexed ∧ pq.refs.Nodup ∧ pq.refs.Perm (remaining (events ts)) ∧
      (∀ k x y, 0 < k → pq.refs[(k - 1) / 2]? = some x → pq.refs[k]? = some y →
        (pq.messages x).pri ≤ (pq.messages y).pri) ∧
      ∀ e ∈ events ts, ∀ x ∈ e.taken, x ∉ pq.refs → (pq.messages x).index = -1) ∧
    ∀ t ∈ ts, ∃ pq, t.pre = some pq ∧ ∀ e ∈ t.events, e.Correct pq := by
  have ⟨⟨pq, ho, h⟩, hts⟩ : (∃ pq, o = some pq ∧ After (events ts) pq) ∧
      ∀ t ∈ ts, ∃ pq, t.pre = some pq ∧ ∀ e ∈ t.events, e.Correct pq := by
    refine r.history_invariant (I := fun ts o => (∃ pq, o = some pq ∧ After (events ts) pq) ∧
      ∀ t ∈ ts, ∃ pq, t.pre = some pq ∧ ∀ e ∈ t.events, e.Correct pq) ⟨⟨_, rfl, .new hc⟩, nofun⟩ ?_
    intro ts t ⟨⟨pq, hpre, h⟩, hts⟩
    have ⟨pq', hpost, h', he⟩ := h.step t hpre
    refine ⟨⟨pq', hpost, by simpa using h'⟩, fun u hu => ?_⟩
    rcases List.mem_append.mp hu with hu | hu
    case inl => exact hts u hu
    case inr => exact List.mem_singleton.mp hu ▸ ⟨pq, hpre, he⟩
  refine ⟨⟨pq, ho, h.indexed, h.indexed.nodup, h.perm, fun k x y h₀ hx hy => ?_, h.taken⟩, hts⟩
  have ⟨hk, _⟩ := List.getElem?_eq_some_iff.mp hy
  have hle := h.ordered k hk h₀
  rw [Heap.parent, key_of_get hx, key_of_get hy] at hle
  exact Int64.le_iff_toInt_le.mpr hle

-- Messages of these priorities.
def withPris (pris : List Int64) (x : Ref) : InFlight where
  id         := ⟨.replicate msgIDLength 0, by simp⟩
  body       := []
  timestamp  := 0
  deliveryTS := 0
  clientID   := 0
  pri        := pris.getD x 0
  index      := 0

-- The slice grows twice. The message that is removed is not the last one, and then there is one left.
def sifted : List (Transition (withPris [5, 3, 4, 1]) 1) × Option InFlightPqueue :=
  Machine.trace _ (pqueue (withPris [5, 3, 4, 1]) 1).init
    [.push 0, .push 1, .push 2, .push 3, .remove 1, .pop, .peekAndShift 3, .peekAndShift 4]

theorem indexed_heap_sifted : ∃ pq, sifted.2 = some pq ∧ pq.refs.Perm [0] :=
  have ⟨pq, hpq, _, _, hp, _⟩ := indexed_heap (by decide) (Machine.path_trace ..) |>.left
  have hr : remaining (events sifted.1) = [0] := by decide +kernel
  ⟨pq, hpq, hr ▸ hp⟩

end InFlightPqueue

end Nsqd
