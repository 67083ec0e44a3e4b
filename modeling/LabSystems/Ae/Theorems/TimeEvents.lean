import LabSystems.Ae.TimeEvents
import Mathlib.Data.List.Nodup
import Mathlib.Logic.Function.Basic

namespace Ae

variable {P D : Type} {a b c te x : TimeEvent P D} {s s' s₁ s₂ : EventLoop P D} {es : List (Event P D)} {e : Event P D}
  {l l₁ l₂ : List (TimeEvent P D)} {now t u tv : TimeVal} {o : Outcome D} {outs : List (Outcome D)} {blk : Block D}

namespace TimeVal

-- Greater than zero.
def Positive (t : TimeVal) : Prop :=
  Before ⟨0, 0⟩ t

theorem before_iff : t.Before u ↔
    t.sec.toInt < u.sec.toInt ∨ t.sec.toInt = u.sec.toInt ∧ t.usec.toInt < u.usec.toInt := by
  simp only [Before, ← Int64.toInt_inj, Int64.lt_iff_toInt_lt]
  split <;> omega

theorem Before.irrefl (t : TimeVal) : ¬t.Before t := by
  simp [before_iff]

theorem Before.asymm (h : t.Before u) : ¬u.Before t := by
  rw [before_iff] at *
  omega

theorem Before.of_not {v : TimeVal} (h : ¬u.Before t) (h' : u.Before v) : t.Before v := by
  rw [before_iff] at *
  omega

theorem Before.not_trans {v : TimeVal} (h : ¬u.Before t) (h' : ¬v.Before u) : ¬v.Before t := by
  rw [before_iff] at *
  omega

theorem exists_toInt_add (a b : Int64) : ∃ k, (a + b).toInt = a.toInt + b.toInt + 2 ^ 64 * k := by
  rw [Int64.toInt_add, Int.bmod_def]
  split
  case isTrue  => exact ⟨-((a.toInt + b.toInt) / 2 ^ 64), by omega⟩
  case isFalse => exact ⟨-((a.toInt + b.toInt) / 2 ^ 64) - 1, by omega⟩

-- The sum of a time `t` and an interval `u` fits, with the carry of the microseconds. If the microseconds do not fit,
-- their sum is negative, and the one of the seconds has to be greater than those of `now`.
def Fits (now t u : TimeVal) : Prop :=
  if t.usec.toInt + u.usec.toInt < 1000000 then
    t.sec.toInt + u.sec.toInt < 2 ^ 63
  else if t.usec.toInt + u.usec.toInt < 2 ^ 63 then
    t.sec.toInt + u.sec.toInt + 1 < 2 ^ 63
  else
    t.sec.toInt + u.sec.toInt < 2 ^ 63 ∧ now.sec.toInt < t.sec.toInt + u.sec.toInt

instance : Decidable (Fits now t u) :=
  inferInstanceAs <| Decidable (ite ..)

theorem IsClock.toInt (h : t.IsClock) : 0 ≤ t.sec.toInt ∧ 0 ≤ t.usec.toInt ∧ t.usec.toInt < 1000000 :=
  ⟨Int64.le_iff_toInt_le.mp h.sec, Int64.le_iff_toInt_le.mp h.usec, Int64.lt_iff_toInt_lt.mp h.usec_lt⟩

theorem Positive.toInt (h : t.Positive) : 0 < t.sec.toInt ∨ 0 = t.sec.toInt ∧ 0 < t.usec.toInt :=
  before_iff.mp h

-- A time of the clock that is not before `now`, and an interval that is greater than zero, have a sum after `now`.
theorem before_add_iff (hn : now.IsClock) (ht : t.IsClock) (h : ¬t.Before now) (hu : u.Positive) :
    now.Before (t.add u) ↔ Fits now t u := by
  have hn := hn.toInt
  have ht := ht.toInt
  have hu := hu.toInt
  rw [before_iff] at h
  obtain ⟨i, hi⟩ := exists_toInt_add t.sec u.sec
  obtain ⟨j, hj⟩ := exists_toInt_add t.usec u.usec
  have hs := (t.sec + u.sec).le_toInt
  have hs' := (t.sec + u.sec).toInt_lt
  have hm := (t.usec + u.usec).le_toInt
  have hm' := (t.usec + u.usec).toInt_lt
  have hts := t.sec.toInt_lt
  have hus := u.sec.toInt_lt
  have hum := u.usec.le_toInt
  have hum' := u.usec.toInt_lt
  rw [before_iff, add, Fits]
  split
  case isTrue hc =>
    have hc' : 1000000 ≤ (t.usec + u.usec).toInt := Int64.le_iff_toInt_le.mp hc
    have hd : (t.usec + u.usec - 1000000).toInt = (t.usec + u.usec).toInt - 1000000 :=
      Int64.toInt_sub_of_le _ _ (by decide) hc
    obtain ⟨k, hk⟩ : ∃ k, (t.sec + u.sec + 1).toInt = (t.sec + u.sec).toInt + 1 + 2 ^ 64 * k := exists_toInt_add ..
    have hl := (t.sec + u.sec + 1).le_toInt
    have hl' := (t.sec + u.sec + 1).toInt_lt
    dsimp only
    rw [hd]
    split
    case isTrue  => omega
    case isFalse => split <;> omega
  case isFalse hc =>
    have hc' : (t.usec + u.usec).toInt < 1000000 := Int64.lt_iff_toInt_lt.mp <| Int64.not_le.mp hc
    dsimp only
    split
    case isTrue  => omega
    case isFalse => split <;> omega

end TimeVal

theorem compare_neg : compare a b < 0 ↔
    a.timeout.Before b.timeout ∨ ¬b.timeout.Before a.timeout ∧ a.addr < b.addr := by
  unfold compare
  split
  case isTrue h => simp [h]
  case isFalse h =>
    split
    case isTrue h' => simp [h, h']
    case isFalse h' =>
      simp only [h, h', false_or, not_false_eq_true, true_and]
      split
      case isTrue hl => simp [hl]
      case isFalse hl => split <;> simp [hl]

theorem compare_pos : compare a b > 0 ↔ compare b a < 0 := by
  rw [compare_neg]
  unfold compare
  split
  case isTrue h => simp [h, h.asymm]
  case isFalse h =>
    split
    case isTrue h' => simp [h']
    case isFalse h' =>
      simp only [h, h', false_or, not_false_eq_true, true_and]
      split
      case isTrue hl => simp [Nat.le_of_lt hl]
      case isFalse hl => split <;> simp_all

theorem compare_trans (h : compare a b < 0) (h' : compare b c < 0) : compare a c < 0 := by
  simp only [compare_neg, TimeVal.before_iff] at *
  omega

theorem not_compare_self : ¬compare a a < 0 := by
  simp [compare_neg, TimeVal.Before.irrefl]

-- Different events are ordered.
theorem compare_total (h : a.addr ≠ b.addr) : compare a b < 0 ∨ compare b a < 0 := by
  simp only [compare_neg, TimeVal.before_iff]
  omega

-- The order of the events is the order of their times.
theorem not_before_of_compare (h : compare a b < 0) : ¬b.timeout.Before a.timeout := by
  simp only [compare_neg, TimeVal.before_iff] at *
  omega

theorem compare_of_before (h : a.timeout.Before b.timeout) : compare a b < 0 :=
  compare_neg.mpr <| .inl h

abbrev Sorted (l : List (TimeEvent P D)) : Prop :=
  l.Pairwise (compare · · < 0)

theorem compare_asymm (h : compare a b < 0) : ¬compare b a < 0 :=
  fun h' => not_compare_self <| compare_trans h h'

namespace EventLoop

theorem insertSorted_cons_of_lt (h : compare te x < 0) : insertSorted te (x :: l) = te :: x :: l :=
  if_pos h

theorem insertSorted_cons_of_gt (h : compare x te < 0) : insertSorted te (x :: l) = x :: insertSorted te l := by
  rw [insertSorted, if_neg <| compare_asymm h, if_pos <| compare_pos.mpr h]

theorem perm_insertSorted (h : te.addr ∉ l.map (·.addr)) : (insertSorted te l).Perm (te :: l) := by
  induction l
  case nil => exact .refl _
  case cons x l hi =>
    rw [List.map_cons] at h
    cases compare_total (List.ne_of_not_mem_cons h)
    case inl hl => rw [insertSorted_cons_of_lt hl]
    case inr hg =>
      rw [insertSorted_cons_of_gt hg]
      exact .trans (.cons x <| hi <| List.not_mem_of_not_mem_cons h) (.swap te x l)

theorem sorted_insertSorted (hs : Sorted l) (h : te.addr ∉ l.map (·.addr)) : Sorted (insertSorted te l) := by
  induction l
  case nil => exact List.pairwise_singleton _ te
  case cons x l hi =>
    have ⟨hx, hl⟩ := List.pairwise_cons.mp hs
    rw [List.map_cons] at h
    have ht := List.not_mem_of_not_mem_cons h
    cases compare_total (List.ne_of_not_mem_cons h)
    case inl hlt =>
      rw [insertSorted_cons_of_lt hlt]
      refine List.pairwise_cons.mpr ⟨fun y hy => ?_, hs⟩
      cases List.mem_cons.mp hy
      case inl he => exact he ▸ hlt
      case inr hy => exact compare_trans hlt <| hx y hy
    case inr hgt =>
      rw [insertSorted_cons_of_gt hgt]
      refine List.pairwise_cons.mpr ⟨fun y hy => ?_, hi hl ht⟩
      cases List.mem_cons.mp <| (perm_insertSorted ht).mem_iff.mp hy
      case inl he => exact he ▸ hgt
      case inr hy => exact hx y hy

-- An event that is greater than the first ones goes behind them.
theorem insertSorted_append (h : ∀ x ∈ l₁, compare x te < 0) :
    insertSorted te (l₁ ++ l₂) = l₁ ++ insertSorted te l₂ := by
  induction l₁
  case nil => rfl
  case cons x l hi =>
    rw [List.cons_append, insertSorted_cons_of_gt <| h x List.mem_cons_self,
      hi fun y hy => h y <| List.mem_cons_of_mem x hy]
    rfl

end EventLoop

namespace Event

-- The address of the event that is created, and what its memory has held.
def opens : Event P D → Option (Nat × D)
  | create a _ h => (a, h)
  | call _ _ _   => none
  | rearm _ b h  => (b, h)

-- The registered client data of all events after one more event.
def register (f : Nat → Option D) : Event P D → Nat → Option D
  | create a d _ => Function.update f a d
  | call _ _ _   => f
  | rearm a b _  => Function.update f b (f a)

end Event

-- What the application has registered for the event at each address.
def registered (es : List (Event P D)) : Nat → Option D :=
  es.foldl Event.register fun _ => none

-- What the memory of the event at each address has held when it was allocated.
def held (es : List (Event P D)) : Nat → Option D :=
  es.foldl (fun f e => e.opens.elim f fun (a, h) => Function.update f a h) fun _ => none

theorem registered_snoc : registered (es ++ [e]) = e.register (registered es) := by
  simp [registered]

theorem held_snoc : held (es ++ [e]) = e.opens.elim (held es) fun (a, h) => Function.update (held es) a h := by
  simp [held]

-- What the application knows about the events of a loop.
structure EventLoop.Inv (es : List (Event P D)) (s : EventLoop P D) : Prop where
  sorted     : Sorted s.timetree
  nodup      : (s.timetree.map (·.addr)).Nodup
  allocated  : ∀ te ∈ s.timetree, te.addr ∈ s.allocated
  held       : ∀ te ∈ s.timetree, held es te.addr = some te.clientData
  registered : ∀ te ∈ s.timetree, (registered es te.addr).isSome
  positive   : ∀ te ∈ s.timetree, te.tv.Positive

namespace EventLoop.Inv

theorem call (h : s.Inv es) : s.Inv (es ++ [.call n p d]) :=
  { h with
    held       := by rw [held_snoc]; exact h.held
    registered := by rw [registered_snoc]; exact h.registered }

theorem remove (h : s.Inv es) (te : TimeEvent P D) : (s.remove te).Inv es := by
  have hs : (s.remove te).timetree.Sublist s.timetree := List.filter_sublist
  exact ⟨h.sorted.sublist hs, h.nodup.sublist (hs.map _), fun x hx => h.allocated x <| hs.subset hx,
    fun x hx => h.held x <| hs.subset hx, fun x hx => h.registered x <| hs.subset hx,
    fun x hx => h.positive x <| hs.subset hx⟩

theorem insert (h : s.Inv es) (hn : te.addr ∉ s.allocated) (ht : s₂.timetree = s.timetree)
    (ha : s₂.allocated = te.addr :: s.allocated) (ho : e.opens = some (te.addr, te.clientData))
    (hr : (e.register (Ae.registered es) te.addr).isSome)
    (hf : ∀ n ≠ te.addr, e.register (Ae.registered es) n = Ae.registered es n) (hp : te.tv.Positive) :
    (s₂.insert te).Inv (es ++ [e]) := by
  have hm : te.addr ∉ s.timetree.map (·.addr) := by
    intro hm
    have ⟨x, hx, he⟩ := List.mem_map.mp hm
    exact hn <| he ▸ h.allocated x hx
  have hperm : (s₂.insert te).timetree.Perm (te :: s.timetree) := by
    rw [EventLoop.insert, ht]
    exact perm_insertSorted hm
  have hmem {x} : x ∈ (s₂.insert te).timetree ↔ x = te ∨ x ∈ s.timetree := hperm.mem_iff.trans List.mem_cons
  have hne {x} (hx : x ∈ s.timetree) : x.addr ≠ te.addr := fun he => hm <| he ▸ List.mem_map_of_mem hx
  constructor
  case sorted =>
    rw [EventLoop.insert, ht]
    exact sorted_insertSorted h.sorted hm
  case nodup =>
    exact (hperm.map _).nodup_iff.mpr <| List.nodup_cons.mpr ⟨hm, h.nodup⟩
  case allocated =>
    intro x hx
    rw [EventLoop.insert, ha]
    cases hmem.mp hx
    case inl he => exact he ▸ List.mem_cons_self
    case inr hx => exact List.mem_cons_of_mem _ <| h.allocated x hx
  case held =>
    intro x hx
    rw [held_snoc, ho]
    cases hmem.mp hx
    case inl he => exact he ▸ Function.update_self ..
    case inr hx => exact (Function.update_of_ne (hne hx) ..).trans <| h.held x hx
  case registered =>
    intro x hx
    rw [registered_snoc]
    cases hmem.mp hx
    case inl he => exact he ▸ hr
    case inr hx => exact hf _ (hne hx) ▸ h.registered x hx
  case positive =>
    intro x hx
    cases hmem.mp hx
    case inl he => exact he ▸ hp
    case inr hx => exact h.positive x hx

end EventLoop.Inv

-- A new event is created at an address that has not been used.
theorem EventLoop.createTimeEvent_eq_some
    (h : s.createTimeEvent (some tv) p d mask now (some blk) = some (s', ret)) :
    ∃ s₂ : EventLoop P D, blk.addr ∉ s.allocated ∧ ¬now.Before s.clock ∧ now.IsClock ∧ s₂.timetree = s.timetree ∧
      s₂.allocated = blk.addr :: s.allocated ∧ s₂.clock = now ∧
      s' = s₂.insert ⟨blk.addr, now.add tv, tv, p, mask, blk.clientData⟩ ∧ ret = AE_OK := by
  simp only [createTimeEvent] at h
  have ⟨s₁, hm, h⟩ := Option.bind_eq_some_iff.mp h
  have ⟨s₂, hg, h⟩ := Option.bind_eq_some_iff.mp h
  simp only [malloc, Option.ite_none_left_eq_some, Option.some.injEq] at hm
  have ⟨hn, hs₁⟩ := hm
  subst hs₁
  simp only [gettimeofday, Option.ite_none_left_eq_some, Option.some.injEq, not_or, not_not] at hg
  have ⟨⟨hb, hk⟩, hs₂⟩ := hg
  subst hs₂
  cases h
  exact ⟨⟨s.timetree, blk.addr :: s.allocated, now⟩, hn, hb, hk, rfl, rfl, rfl, rfl, rfl⟩

-- The event that is registered for another one after its callback.
def rearmed (te : TimeEvent P D) (o : Outcome D) : Option (TimeEvent P D) :=
  if o.retval = AE_NOMORE then
    none
  else
    o.mem.map fun b => ⟨b.addr, o.now.add te.tv, te.tv, te.timeProc, 0, b.clientData⟩

theorem rearmed_eq_some (h : rearmed te o = some x) : o.retval ≠ AE_NOMORE ∧ x.timeout = o.now.add te.tv := by
  unfold rearmed at h
  split at h
  case isTrue => cases h
  case isFalse hr =>
    have ⟨b, _, hb⟩ := Option.map_eq_some_iff.mp h
    exact ⟨hr, hb ▸ rfl⟩

def Event.called : Event P D → Option (Nat × P × D)
  | call a p d => (a, p, d)
  | _          => none

-- The callbacks that have been called, with their events.
def calls (es : List (Event P D)) : List (Nat × P × D) :=
  es.filterMap Event.called

namespace EventLoop

-- What comes of the registration of an event that is in the tree.
structure Rearm (te : TimeEvent P D) (o : Outcome D) (es : List (Event P D)) (s s₁ : EventLoop P D)
    (es₁ : List (Event P D)) : Prop where
  inv       : s₁.Inv (es ++ es₁)
  calls     : calls es₁ = []
  clock     : ¬s₁.clock.Before s.clock
  allocated : ∀ a ∈ s.allocated, a ∈ s₁.allocated
  tree      : s₁.timetree = (rearmed te o).elim s.timetree (insertSorted · s.timetree)
  now       : ∀ x ∈ rearmed te o, ¬o.now.Before s.clock ∧ o.now.IsClock
  fresh     : ∀ x ∈ rearmed te o, x.addr ∉ s.allocated

theorem Rearm.of (h : s.rearm te o = some (s₁, es₁)) (hi : s.Inv es) (hm : te ∈ s.timetree) : Rearm te o es s s₁ es₁ := by
  have same (hr : rearmed te o = none) : Rearm te o es s s [] :=
    ⟨(List.append_nil es).symm ▸ hi, rfl, TimeVal.Before.irrefl _, fun _ ha => ha, by simp [hr], by simp [hr], by simp [hr]⟩
  unfold rearm at h
  split at h
  case isTrue hr =>
    cases h
    exact same <| by simp [rearmed, hr]
  case isFalse hr =>
    have ⟨⟨s₂, ret⟩, hc, h⟩ := Option.bind_eq_some_iff.mp h
    cases h
    cases ho : o.mem
    case none =>
      rw [ho] at hc
      cases hc
      exact same <| by simp [rearmed, ho]
    case some b =>
      rw [ho] at hc
      have ⟨s₃, hn, hb, hv, ht, ha, hk, he, _⟩ := createTimeEvent_eq_some hc
      subst he
      have hp := hi.positive te hm
      have hx {x} (hx : x ∈ rearmed te o) : x = ⟨b.addr, o.now.add te.tv, te.tv, te.timeProc, 0, b.clientData⟩ := by
        simpa [rearmed, hr, ho, eq_comm] using hx
      refine ⟨?inv, rfl, ?clock, ?allocated, ?tree, fun _ _ => ⟨hb, hv⟩, fun x hm => (hx hm).symm ▸ hn⟩
      case inv =>
        refine hi.insert hn ht ha rfl ?_ (fun n hn => Function.update_of_ne hn ..) hp
        have hr := hi.registered te hm
        simpa [Event.register] using hr
      case clock     => exact hk ▸ hb
      case allocated => exact fun a hm => ha ▸ List.mem_cons_of_mem _ hm
      case tree      => simp [rearmed, hr, ho, EventLoop.insert, ht]

theorem Rearm.perm (h : Rearm te o es s s₁ es₁) (hi : s.Inv es) :
    s₁.timetree.Perm ((rearmed te o).toList ++ s.timetree) := by
  rw [h.tree]
  cases hr : rearmed te o
  case none => exact .refl _
  case some x =>
    refine perm_insertSorted fun hm => ?_
    have ⟨y, hy, he⟩ := List.mem_map.mp hm
    exact h.fresh x hr <| he ▸ hi.allocated y hy

-- The new event goes behind the events that are due.
theorem Rearm.behind {due rest : List (TimeEvent P D)} (h : Rearm te o es s s₁ es₁) (hi : s.Inv es)
    (ht : s.timetree = due ++ rest) (hd : ∀ x ∈ due, ¬now.Before x.timeout)
    (hl : ∀ x ∈ rearmed te o, now.Before x.timeout) :
    ∃ rest', rest'.Perm ((rearmed te o).toList ++ rest) ∧ s₁.timetree = due ++ rest' := by
  cases hr : rearmed te o
  case none => exact ⟨rest, by simp, by simpa [hr, ht] using h.tree⟩
  case some x =>
    refine ⟨insertSorted x rest, perm_insertSorted fun hm => ?_, ?_⟩
    case refine_1 =>
      have ⟨y, hy, he⟩ := List.mem_map.mp hm
      exact h.fresh x hr <| he ▸ hi.allocated y (ht ▸ List.mem_append_right _ hy)
    case refine_2 =>
      rw [h.tree, hr, ht]
      exact insertSorted_append fun y hy => compare_of_before <| .of_not (hd y hy) (hl x hr)

theorem remove_head (h : s.Inv es) (ht : s.timetree = te :: l) : (s.remove te).timetree = l := by
  have hn := ht ▸ h.nodup
  have ⟨hn, _⟩ := List.nodup_cons.mp hn
  rw [remove, ht, List.filter_cons_of_neg (by simp)]
  refine List.filter_eq_self.mpr fun x hx => ?_
  have hne : x.addr ≠ te.addr := ne_of_mem_of_not_mem (List.mem_map_of_mem hx) hn
  simpa using hne

theorem next_head (h : s.Inv es) (ht : s.timetree = te :: l) : s.next te = l.head? := by
  have hs := ht ▸ h.sorted
  rw [next, ht, List.find?_cons_of_neg (by simpa using not_compare_self)]
  cases l
  case nil => rfl
  case cons x l =>
    have hx := (List.pairwise_cons.mp hs).left x List.mem_cons_self
    exact List.find?_cons_of_pos (by simpa using hx)

theorem mem_remove (hx : x ∈ s.timetree) (hn : x.addr ≠ te.addr) : x ∈ (s.remove te).timetree :=
  List.mem_filter.mpr ⟨hx, by simpa using hn⟩

-- The next event is another one, since it is greater.
theorem mem_next (h : s.Inv es) (hm : te ∈ s.timetree) (hx : x ∈ s.next te) : x ∈ s.timetree ∧ x.addr ≠ te.addr := by
  have hxm := List.mem_of_find?_eq_some hx
  refine ⟨hxm, fun he => ?_⟩
  obtain rfl := List.inj_on_of_nodup_map h.nodup hxm hm he
  exact not_compare_self <| by simpa using List.find?_some hx

-- Which callbacks a pass calls, whatever the times of the new events are. An event stays in the tree until its callback
-- is called.
structure Trail (outs : List (Outcome D)) (es : List (Event P D)) (s s' : EventLoop P D) (es' : List (Event P D))
    (called : List (TimeEvent P D)) : Prop where
  inv   : s'.Inv (es ++ es')
  calls : Ae.calls es' = called.map fun te => (te.addr, te.timeProc, te.clientData)
  old   : ∀ te ∈ called, te ∈ s.timetree ∨ te.addr ∉ s.allocated
  stays : ∀ x ∈ s.timetree, x ∈ s'.timetree ∨ x.addr ∈ called.map (·.addr)
  new   : ∀ p ∈ called.zip outs, ∀ x ∈ rearmed p.1 p.2, x ∈ s'.timetree ∨ x.addr ∈ called.map (·.addr)
  fresh : ∀ p ∈ called.zip outs, ∀ x ∈ rearmed p.1 p.2, x.addr ∉ s.allocated
  now   : ∀ p ∈ called.zip outs, ∀ x ∈ rearmed p.1 p.2, ¬p.2.now.Before s.clock ∧ p.2.now.IsClock

theorem Trail.done (hi : s.Inv es) : Trail outs es s s [] [] where
  inv        := (List.append_nil es).symm ▸ hi
  calls      := rfl
  old        := nofun
  stays _ hx := .inl hx
  new        := nofun
  fresh      := nofun
  now        := nofun

-- One callback, and then the others.
theorem Trail.call {called : List (TimeEvent P D)} (hi : s.Inv es) (hm : te ∈ s.timetree)
    (hr : Rearm te o (es ++ [.call te.addr te.timeProc te.clientData]) s s₁ es₁)
    (ht : Trail outs (es ++ [.call te.addr te.timeProc te.clientData] ++ es₁) (s₁.remove te) s' es' called) :
    Trail (o :: outs) es s s' (.call te.addr te.timeProc te.clientData :: es₁ ++ es') (te :: called) := by
  have hmem {x} : x ∈ s₁.timetree ↔ x ∈ rearmed te o ∨ x ∈ s.timetree := by
    rw [(hr.perm hi.call).mem_iff, List.mem_append, Option.mem_toList, Option.mem_def]
  have hstay {x} (hx : x ∈ s₁.timetree) : x ∈ s'.timetree ∨ x.addr ∈ (te :: called).map (·.addr) := by
    rw [List.map_cons]
    by_cases he : x.addr = te.addr
    case pos => exact .inr <| he ▸ List.mem_cons_self
    case neg => exact (ht.stays x <| mem_remove hx he).imp_right (List.mem_cons_of_mem _)
  constructor
  case inv   => simpa using ht.inv
  case calls =>
    have hc := hr.calls
    have hc' := ht.calls
    simp only [Ae.calls, List.cons_append, List.filterMap_cons, List.filterMap_append, Event.called, List.map_cons] at *
    rw [hc, hc']
    rfl
  case old =>
    intro x hx
    cases List.mem_cons.mp hx
    case inl he => exact .inl <| he ▸ hm
    case inr hx =>
      rcases ht.old x hx with hx | hx
      case inl =>
        rcases hmem.mp (List.mem_filter.mp hx).left with hx | hx
        case inl => exact .inr <| hr.fresh x hx
        case inr => exact .inl hx
      case inr => exact .inr fun ha => hx <| hr.allocated _ ha
  case stays => exact fun x hx => hstay <| hmem.mpr <| .inr hx
  case new   =>
    intro p hp x hx
    rcases List.mem_cons.mp hp with rfl | hp
    case inl    => exact hstay <| hmem.mpr <| .inl hx
    case inr hp => exact (ht.new p hp x hx).imp_right (List.mem_cons_of_mem _)
  case fresh =>
    intro p hp x hx
    rcases List.mem_cons.mp hp with rfl | hp
    case inl    => exact hr.fresh x hx
    case inr hp => exact fun ha => ht.fresh p hp x hx <| hr.allocated _ ha
  case now   =>
    intro p hp x hx
    rcases List.mem_cons.mp hp with rfl | hp
    case inl    => exact hr.now x hx
    case inr hp =>
      have ⟨hb, hk⟩ := ht.now p hp x hx
      exact ⟨TimeVal.Before.not_trans hr.clock hb, hk⟩

theorem Trail.of {cur : Option (TimeEvent P D)} (hi : s.Inv es) (hcur : ∀ te ∈ cur, te ∈ s.timetree)
    (h : process now cur outs s = some (s', es')) : ∃ called, Trail outs es s s' es' called := by
  induction outs generalizing s cur es es'
  case nil =>
    cases cur <;> simp only [process] at h
    case none =>
      cases h
      exact ⟨[], .done hi⟩
    case some te =>
      split at h <;> cases h
      exact ⟨[], .done hi⟩
  case cons o outs ih =>
    cases cur <;> simp only [process] at h
    case none =>
      cases h
      exact ⟨[], .done hi⟩
    case some te =>
      split at h
      case isTrue =>
        cases h
        exact ⟨[], .done hi⟩
      case isFalse =>
        have ⟨⟨s₁, es₁⟩, hre, h⟩ := Option.bind_eq_some_iff.mp h
        have ⟨⟨s₂, es₂⟩, hpr, h⟩ := Option.bind_eq_some_iff.mp h
        cases h
        have hm := hcur te rfl
        have hr := Rearm.of hre (@Inv.call _ _ s es te.addr te.timeProc te.clientData hi) hm
        have hnext x (hx : x ∈ s.next te) : x ∈ (s₁.remove te).timetree := by
          have ⟨hxm, hne⟩ := mem_next hi hm hx
          refine mem_remove ((hr.perm hi.call).mem_iff.mpr <| List.mem_append_right _ hxm) hne
        have ⟨called, ht⟩ := ih (hr.inv.remove te) hnext hpr
        exact ⟨te :: called, ht.call hi hm hr⟩

-- What comes of a pass over the events which are due, before the first one which is not.
structure Pass (now : TimeVal) (due rest : List (TimeEvent P D)) (outs : List (Outcome D)) (es : List (Event P D))
    (s' : EventLoop P D) (es' : List (Event P D)) : Prop where
  enough : due.length ≤ outs.length
  inv    : s'.Inv (es ++ es')
  calls  : Ae.calls es' = due.map fun te => (te.addr, te.timeProc, te.clientData)
  tree   : s'.timetree.Perm (rest ++ (due.zip outs).filterMap fun p => rearmed p.1 p.2)
  later  : ∀ x ∈ (due.zip outs).filterMap fun p => rearmed p.1 p.2, now.Before x.timeout

theorem Pass.done (ht : s.timetree = rest) (hi : s.Inv es) : Pass now [] rest outs es s [] where
  enough  := Nat.zero_le _
  inv     := (List.append_nil es).symm ▸ hi
  calls   := rfl
  tree    := by simp [ht]
  later _ := nofun

-- The first event which is due, and then the others. A new event is behind them in the tree.
theorem Pass.of {due rest : List (TimeEvent P D)} {cur : Option (TimeEvent P D)} (ht : s.timetree = due ++ rest)
    (hd : ∀ x ∈ due, ¬now.Before x.timeout) (hr : ∀ x ∈ rest, now.Before x.timeout) (hi : s.Inv es)
    (hc : ¬s.clock.Before now) (hcur : cur = (due ++ rest).head? ∨ due = [] ∧ ∀ x ∈ cur, now.Before x.timeout)
    (hn : now.IsClock) (hf : ∀ p ∈ due.zip outs, p.2.retval ≠ AE_NOMORE → TimeVal.Fits now p.2.now p.1.tv)
    (h : process now cur outs s = some (s', es')) : Pass now due rest outs es s' es' := by
  induction due generalizing rest cur outs s es es'
  case nil =>
    have hb : ∀ x ∈ cur, now.Before x.timeout := by
      intro x hx
      cases hcur
      case inl he => exact hr x <| List.mem_of_mem_head? (he ▸ hx)
      case inr hb => exact hb.right x hx
    cases cur
    case none =>
      simp only [process] at h
      cases h
      exact .done ht hi
    case some x =>
      have hx := hb x rfl
      cases outs <;> simp only [process, hx, if_true] at h
      all_goals
        cases h
        exact .done ht hi
  case cons d ds ih =>
    have he : cur = some d := hcur.resolve_right nofun
    have hnb := hd d List.mem_cons_self
    subst he
    cases outs
    case nil => simp [process, hnb] at h
    case cons o outs =>
      simp only [process, hnb, if_false] at h
      have ⟨⟨s₁, es₁⟩, hre, h⟩ := Option.bind_eq_some_iff.mp h
      have ⟨⟨s₂, es₂⟩, hpr, h⟩ := Option.bind_eq_some_iff.mp h
      cases h
      have hm := Rearm.of hre (@Inv.call _ _ s es d.addr d.timeProc d.clientData hi) (ht ▸ List.mem_cons_self)
      have hlt : ∀ x ∈ rearmed d o, now.Before x.timeout := by
        intro x hx
        have ⟨hr, he⟩ := rearmed_eq_some hx
        have ⟨hb, hk⟩ := hm.now x hx
        rw [he, TimeVal.before_add_iff hn hk (TimeVal.Before.not_trans hc hb) (hi.positive d <| ht ▸ List.mem_cons_self)]
        exact hf (d, o) List.mem_cons_self hr
      have ⟨rest', hp, ht₁⟩ : ∃ rest', rest'.Perm ((rearmed d o).toList ++ rest) ∧ s₁.timetree = d :: (ds ++ rest') :=
        hm.behind hi.call ht hd hlt
      have hr' : ∀ x ∈ rest', now.Before x.timeout := by
        intro x hx
        cases List.mem_append.mp <| hp.mem_iff.mp hx
        case inl hx => exact hlt x <| Option.mem_toList.mp hx
        case inr hx => exact hr x hx
      have hcur' : s.next d = (ds ++ rest').head? ∨ ds = [] ∧ ∀ x ∈ s.next d, now.Before x.timeout := by
        rw [next_head hi ht]
        cases ds
        case nil  => exact .inr ⟨rfl, fun x hx => hr x <| List.mem_of_mem_head? hx⟩
        case cons => exact .inl rfl
      have hnext := ih (remove_head hm.inv ht₁) (fun x hx => hd x <| List.mem_cons_of_mem d hx) hr' (hm.inv.remove d)
        (TimeVal.Before.not_trans hc hm.clock) hcur' (fun p hp => hf p <| List.mem_cons_of_mem _ hp) hpr
      have hz : ((d :: ds).zip (o :: outs)).filterMap (fun p => rearmed p.1 p.2) =
          (rearmed d o).toList ++ (ds.zip outs).filterMap fun p => rearmed p.1 p.2 := by
        rw [List.zip_cons_cons, List.filterMap_cons]
        cases rearmed d o <;> rfl
      constructor
      case enough => exact Nat.succ_le_succ hnext.enough
      case inv    => simpa using hnext.inv
      case calls  =>
        have hc₁ := hm.calls
        have hc₂ := hnext.calls
        simp only [Ae.calls, List.filterMap_cons, List.filterMap_append, Event.called, List.map_cons] at *
        rw [hc₁, hc₂]
        rfl
      case tree   =>
        rw [hz, ← List.append_assoc]
        exact hnext.tree.trans <| (hp.trans List.perm_append_comm).append_right _
      case later  =>
        rw [hz]
        intro x hx
        cases List.mem_append.mp hx
        case inl hx => exact hlt x <| Option.mem_toList.mp hx
        case inr hx => exact hnext.later x hx

-- The events that are due, and the others.
def due (s : EventLoop P D) (now : TimeVal) : List (TimeEvent P D) :=
  s.timetree.filter (¬now.Before ·.timeout)

def rest (s : EventLoop P D) (now : TimeVal) : List (TimeEvent P D) :=
  s.timetree.filter (now.Before ·.timeout)

theorem filter_append_filter (h : Sorted l) :
    l = l.filter (¬now.Before ·.timeout) ++ l.filter (now.Before ·.timeout) := by
  induction l
  case nil => rfl
  case cons x l hi =>
    have ⟨hx, hs⟩ := List.pairwise_cons.mp h
    if hb : now.Before x.timeout then
      have hl : ∀ y ∈ l, now.Before y.timeout := fun y hy => by
        have hn := not_before_of_compare <| hx y hy
        rw [TimeVal.before_iff] at *
        omega
      have h₁ : l.filter (¬now.Before ·.timeout) = [] := List.filter_eq_nil_iff.mpr fun y hy => by simp [hl y hy]
      have h₂ : l.filter (now.Before ·.timeout) = l := List.filter_eq_self.mpr fun y hy => by simp [hl y hy]
      rw [List.filter_cons_of_neg (by simpa using hb), List.filter_cons_of_pos (by simpa using hb), h₁, h₂]
      rfl
    else
      rw [List.filter_cons_of_pos (by simpa using hb), List.filter_cons_of_neg (by simpa using hb), List.cons_append,
        ← hi hs]

theorem processTimeEvents_eq_some (h : s.processTimeEvents now outs = some (s', es')) :
    now.IsClock ∧ process now s.min outs { s with clock := now } = some (s', es') := by
  have ⟨s₁, hg, h⟩ := Option.bind_eq_some_iff.mp h
  simp only [gettimeofday, Option.ite_none_left_eq_some, Option.some.injEq, not_or, not_not] at hg
  have ⟨⟨_, hk⟩, hs₁⟩ := hg
  subst hs₁
  exact ⟨hk, h⟩

theorem Inv.gettimeofday (h : s.Inv es) : ({ s with clock := now } : EventLoop P D).Inv es :=
  ⟨h.sorted, h.nodup, h.allocated, h.held, h.registered, h.positive⟩

theorem trail_of (h : s.processTimeEvents now outs = some (s', es')) (hi : s.Inv es) :
    ∃ called, Trail outs es { s with clock := now } s' es' called :=
  Trail.of hi.gettimeofday (fun _ hx => List.mem_of_mem_head? hx) (processTimeEvents_eq_some h).right

theorem pass_of (h : s.processTimeEvents now outs = some (s', es')) (hi : s.Inv es)
    (hf : ∀ p ∈ (s.due now).zip outs, p.2.retval ≠ AE_NOMORE → TimeVal.Fits now p.2.now p.1.tv) :
    Pass now (s.due now) (s.rest now) outs es s' es' := by
  have ⟨hk, h⟩ := processTimeEvents_eq_some h
  have ht : s.timetree = s.due now ++ s.rest now := filter_append_filter hi.sorted
  refine Pass.of (s := { s with clock := now }) ht ?_ ?_ hi.gettimeofday ?_ (.inl ?_) hk hf h
  · exact fun x hx => by simpa using (List.mem_filter.mp hx).right
  · exact fun x hx => by simpa using (List.mem_filter.mp hx).right
  · exact TimeVal.Before.irrefl now
  · exact congrArg List.head? ht

theorem step_inv (hi : s.Inv es) (hp : ∀ tv p d m now mem, act = .create (some tv) p d m now mem → tv.Positive)
    (h : s.step act = some (s', es')) : s'.Inv (es ++ es') := by
  cases act
  case process now outs =>
    have ⟨_, ht⟩ := trail_of h hi
    exact ht.inv
  case create tv p d m now mem =>
    have ⟨⟨s₁, ret⟩, hc, hs⟩ := Option.bind_eq_some_iff.mp h
    have failed (hc : some (s, AE_ERR) = some (s₁, ret)) : s'.Inv (es ++ es') := by
      cases hc
      cases hs
      simpa [AE_ERR, AE_OK] using hi
    cases tv
    case none => exact failed hc
    case some tv =>
      cases mem
      case none => exact failed hc
      case some b =>
        have ⟨s₂, hn, _, _, ht, ha, _, he, hr⟩ := createTimeEvent_eq_some hc
        subst hr he
        cases hs
        refine hi.insert hn ht ha rfl ?_ (fun n hn => Function.update_of_ne hn ..) (hp tv p d m now (some b) rfl)
        simp [Event.register]

end EventLoop

-- All intervals are greater than zero.
def Positive {clock : TimeVal} (ts : List (Transition P D clock)) : Prop :=
  ∀ t ∈ ts, ∀ tv p d m now mem, t.act = .create (some tv) p d m now mem → tv.Positive

theorem inv_of_run {clock : TimeVal} {ts : List (Transition P D clock)} (r : (loop P D clock).Run ts s)
    (hp : Positive ts) : s.Inv (Machine.events ts) := by
  induction r
  case nil => exact ⟨.nil, .nil, nofun, nofun, nofun, nofun⟩
  case snoc ts t _ hi =>
    have hi := hi fun u hu => hp u <| List.mem_append_left _ hu
    rw [Machine.events_append, Machine.events_singleton]
    exact EventLoop.step_inv hi (hp t <| by simp) t.valid

end Ae
