import Mathlib.Data.Prod.Lex
import LabSystems.Ae.TimeTree
import LabSystems.Ae.Theorems.TimeEvents
import LabSystems.RbTree.Theorems.Runs

namespace Ae

open Algorithm (Addr)

variable {P D : Type} {u u' : TreeLoop P D} {s s' : EventLoop P D} {te : TimeEvent P D} {l : List (TimeEvent P D)}
  {clock : TimeVal}

def entry (te : TimeEvent P D) : Addr × TimeEvent P D :=
  (te.addr, te)

-- Events are ordered by their times and then by their addresses.
def rank (te : TimeEvent P D) : Int ×ₗ Int ×ₗ Nat :=
  toLex (te.timeout.sec.toInt, toLex (te.timeout.usec.toInt, te.addr))

theorem compares : RbTree.Compares (compare (P := P) (D := D)) rank where
  neg a b := by
    simp only [compare_neg, TimeVal.before_iff, rank, Prod.Lex.toLex_lt_toLex]
    omega
  pos a b := by
    simp only [compare_pos, compare_neg, TimeVal.before_iff, rank, Prod.Lex.toLex_lt_toLex]
    omega

theorem insertSorted_map :
    RbTree.insertSorted compare (entry te) (l.map entry) = (EventLoop.insertSorted te l).map entry := by
  induction l
  case nil => rfl
  case cons x l hi =>
    simp only [List.map_cons, RbTree.insertSorted, EventLoop.insertSorted, hi]
    have hx : compare (entry te).snd (entry x).snd = compare te x := rfl
    rw [hx]
    split
    case isTrue  => rfl
    case isFalse => split <;> rfl

theorem filter_map {x : Addr} : (l.map entry).filter (·.fst ≠ x) = (l.filter (·.addr ≠ x)).map entry := by
  rw [List.filter_map]
  rfl

-- The tree has the events of the list.
structure Shows (u : TreeLoop P D) (s : EventLoop P D) : Prop where
  tree      : ∃ t, u.timetree.Holds rank (s.timetree.map entry) t
  allocated : u.allocated = s.allocated
  clock     : u.clock = s.clock
  owned     : ∀ te ∈ s.timetree, te.addr ∈ s.allocated

-- Two calls are both undefined, or return the same and go on together.
def Agree {α : Type} (p : Option (TreeLoop P D × α)) (q : Option (EventLoop P D × α)) : Prop :=
  p = none ∧ q = none ∨ ∃ u s a, p = some (u, a) ∧ q = some (s, a) ∧ Shows u s

namespace Shows

theorem init : Shows (.init clock : TreeLoop P D) (.init clock) where
  tree      := ⟨.nil, RbTree.holds_init⟩
  allocated := rfl
  clock     := rfl
  owned     := by simp [EventLoop.init]

theorem sorted (h : Shows u s) : Sorted s.timetree := by
  obtain ⟨t, ht⟩ := h.tree
  exact (List.pairwise_map.mp ht.sorted).imp (compares.neg _ _).mpr

theorem gettimeofday (h : Shows u s) (now : TimeVal) : u.gettimeofday now = none ∧ s.gettimeofday now = none ∨
    ∃ u' s', u.gettimeofday now = some u' ∧ s.gettimeofday now = some s' ∧ Shows u' s' ∧ s'.timetree = s.timetree := by
  rw [TreeLoop.gettimeofday, EventLoop.gettimeofday, h.clock]
  split
  case isTrue  => exact .inl ⟨rfl, rfl⟩
  case isFalse => exact .inr ⟨_, _, rfl, rfl, ⟨h.tree, h.allocated, rfl, h.owned⟩, rfl⟩

theorem insert (h : Shows u s) (te : TimeEvent P D) (hn : te.addr ∉ s.timetree.map (·.addr))
    (ha : te.addr ∈ s.allocated) : ∃ u', u.insert te = some u' ∧ Shows u' (s.insert te) := by
  obtain ⟨t, ht⟩ := h.tree
  have hm : te.addr ∉ (s.timetree.map entry).map Prod.fst := by
    rw [List.map_map]
    exact hn
  obtain ⟨r, t', hs, h'⟩ := ht.insert compares hm ⟨te, none, none, none, .black⟩
  refine ⟨{ u with timetree := r }, by simp [TreeLoop.insert, hs], ⟨t', ?_⟩, h.allocated, h.clock, fun x hx => ?_⟩
  case refine_1 =>
    rw [EventLoop.insert, ← insertSorted_map]
    exact h'
  case refine_2 =>
    rcases List.mem_cons.mp <| (EventLoop.perm_insertSorted hn).mem_iff.mp hx with rfl | hx
    case inl => exact ha
    case inr => exact h.owned x hx

theorem createTimeEvent (h : Shows u s) (tv : Option TimeVal) (proc : P) (data : D) (mask : Int) (now : TimeVal)
    (mem : Option (Block D)) :
    u.createTimeEvent tv proc data mask now mem = none ∧ s.createTimeEvent tv proc data mask now mem = none ∨
      ∃ u' s' r, u.createTimeEvent tv proc data mask now mem = some (u', r) ∧
        s.createTimeEvent tv proc data mask now mem = some (s', r) ∧ Shows u' s' ∧
          ∀ x ∈ s.timetree, x ∈ s'.timetree := by
  cases tv with
  | none    => exact .inr ⟨u, s, AE_ERR, rfl, rfl, h, fun _ hx => hx⟩
  | some tv =>
    cases mem with
    | none   => exact .inr ⟨u, s, AE_ERR, rfl, rfl, h, fun _ hx => hx⟩
    | some b =>
      simp only [TreeLoop.createTimeEvent, EventLoop.createTimeEvent, TreeLoop.malloc, EventLoop.malloc, h.allocated]
      split
      case isTrue  => exact .inl ⟨rfl, rfl⟩
      case isFalse hb =>
        have h₁ : Shows { u with allocated := b.addr :: s.allocated } { s with allocated := b.addr :: s.allocated } :=
          ⟨h.tree, rfl, h.clock, fun x hx => List.mem_cons_of_mem _ <| h.owned x hx⟩
        rcases h₁.gettimeofday now with ⟨hu, hs⟩ | ⟨u₂, s₂, hu, hs, h₂, ht⟩
        case inl => exact .inl ⟨by simp [hu], by simp [hs]⟩
        case inr =>
          have ha : b.addr ∈ s₂.allocated := by
            simp only [EventLoop.gettimeofday, Option.ite_none_left_eq_some, Option.some.injEq] at hs
            rw [← hs.right]
            exact List.mem_cons_self
          have hn : b.addr ∉ s₂.timetree.map (·.addr) := by
            rw [ht]
            intro hm
            obtain ⟨x, hx, he⟩ := List.mem_map.mp hm
            exact hb <| he ▸ h.owned x hx
          obtain ⟨u₃, hu₃, h₃⟩ := h₂.insert ⟨b.addr, now.add tv, tv, proc, mask, b.clientData⟩ hn ha
          refine .inr ⟨u₃, _, AE_OK, by simp [hu, hu₃], by simp [hs], h₃, fun x hx => ?_⟩
          refine (EventLoop.perm_insertSorted hn).mem_iff.mpr <| List.mem_cons_of_mem _ ?_
          rw [ht]
          exact hx

theorem rearm (h : Shows u s) (te : TimeEvent P D) (o : Outcome D) : u.rearm te o = none ∧ s.rearm te o = none ∨
    ∃ u' s' es, u.rearm te o = some (u', es) ∧ s.rearm te o = some (s', es) ∧ Shows u' s' ∧
      ∀ x ∈ s.timetree, x ∈ s'.timetree := by
  rw [TreeLoop.rearm, EventLoop.rearm]
  split
  case isTrue  => exact .inr ⟨u, s, [], rfl, rfl, h, fun _ hx => hx⟩
  case isFalse =>
    rcases h.createTimeEvent (some te.tv) te.timeProc te.clientData 0 o.now o.mem with
      ⟨hu, hs⟩ | ⟨u', s', r, hu, hs, h', hm⟩
    case inl => exact .inl ⟨by simp [hu], by simp [hs]⟩
    case inr =>
      exact .inr ⟨u', s', o.mem.toList.map fun b => .rearm te.addr b.addr b.clientData, by simp [hu], by simp [hs], h',
        hm⟩

theorem remove (h : Shows u s) (hm : te ∈ s.timetree) :
    ∃ u', u.remove te.addr = some u' ∧ Shows u' (s.remove te) := by
  obtain ⟨t, ht⟩ := h.tree
  obtain ⟨r, t', hr, h'⟩ := ht.remove (List.mem_map_of_mem hm : entry te ∈ s.timetree.map entry)
  have hr : u.timetree.remove te.addr = some r := hr
  refine ⟨{ u with timetree := r }, by simp [TreeLoop.remove, hr], ⟨t', ?_⟩, h.allocated, h.clock, fun x hx => ?_⟩
  case refine_1 =>
    rw [EventLoop.remove, ← filter_map]
    exact h'
  case refine_2 => exact h.owned x (List.mem_filter.mp hx).left

theorem element (h : Shows u s) (hm : te ∈ s.timetree) : ∃ n, u.timetree.element te.addr = some n ∧ n.data = te := by
  obtain ⟨t, ht⟩ := h.tree
  have hd := ht.data (entry te) (List.mem_map_of_mem hm)
  obtain ⟨n, hn, he⟩ := Option.map_eq_some_iff.mp hd
  exact ⟨n, hn, he⟩

theorem next (h : Shows u s) (hm : te ∈ s.timetree) : u.timetree.next te.addr = some ((s.next te).map (·.addr)) ∧
    ∀ x ∈ s.next te, x ∈ s.timetree ∧ x.addr ≠ te.addr := by
  obtain ⟨t, ht⟩ := h.tree
  obtain ⟨xs, ys, he⟩ := List.append_of_mem hm
  have hs := h.sorted
  rw [he, Sorted, List.pairwise_append, List.pairwise_cons] at hs
  obtain ⟨_, ⟨hy, _⟩, hx⟩ := hs
  have hfx : xs.find? (compare te · < 0) = none := by
    simp only [List.find?_eq_none, decide_eq_true_eq]
    exact fun x hm => compare_asymm <| hx x hm te List.mem_cons_self
  have hfy : ys.find? (compare te · < 0) = ys.head? := by
    cases ys with
    | nil      => rfl
    | cons y l => simp [hy y List.mem_cons_self]
  have hn : s.next te = ys.head? := by
    rw [EventLoop.next, he, List.find?_append, hfx, Option.none_or,
      List.find?_cons_of_neg (by simp [not_compare_self]), hfy]
  have hl : s.timetree.map entry = xs.map entry ++ entry te :: ys.map entry := by simp [he]
  have hnx := ht.next hl
  rw [List.head?_map, Option.map_map] at hnx
  refine ⟨hn ▸ hnx, fun x hm => ?_⟩
  rw [hn] at hm
  have hmy := List.mem_of_mem_head? hm
  refine ⟨by simp [he, hmy], fun hax => ?_⟩
  have hnd := ht.represents.nodup
  rw [ht.keys, hl, List.map_append, List.map_cons, List.nodup_middle, List.nodup_cons, List.mem_append, not_or] at hnd
  refine hnd.left.right ?_
  rw [List.map_map]
  exact List.mem_map.mpr ⟨x, hmy, hax⟩

theorem min (h : Shows u s) : u.timetree.min = some (s.min.map (·.addr)) := by
  obtain ⟨t, ht⟩ := h.tree
  rw [ht.min, EventLoop.min, List.head?_map, Option.map_map]
  rfl

theorem process (h : Shows u s) (now : TimeVal) (outs : List (Outcome D)) (next : Option (TimeEvent P D))
    (hm : ∀ te ∈ next, te ∈ s.timetree) :
    Agree (TreeLoop.process now (next.map (·.addr)) outs u) (EventLoop.process now next outs s) := by
  induction outs generalizing u s next
  case nil =>
    cases next with
    | none    => exact .inr ⟨u, s, [], rfl, rfl, h⟩
    | some te =>
      obtain ⟨n, hn, rfl⟩ := h.element <| hm te rfl
      by_cases hb : now.Before n.data.timeout
      case pos => exact .inr ⟨u, s, [], by simp [TreeLoop.process, hn, hb], by simp [EventLoop.process, hb], h⟩
      case neg => exact .inl ⟨by simp [TreeLoop.process, hn, hb], by simp [EventLoop.process, hb]⟩
  case cons o outs hi =>
    cases next with
    | none    => exact .inr ⟨u, s, [], rfl, rfl, h⟩
    | some te =>
      have hte := hm te rfl
      obtain ⟨n, hn, hd⟩ := h.element hte
      obtain ⟨hnx, hnm⟩ := h.next hte
      by_cases hb : now.Before te.timeout
      case pos => exact .inr ⟨u, s, [], by simp [TreeLoop.process, hn, hd, hb], by simp [EventLoop.process, hb], h⟩
      case neg =>
        rcases h.rearm te o with ⟨hu, hs⟩ | ⟨u₁, s₁, es, hu, hs, h₁, hm₁⟩
        case inl =>
          exact .inl ⟨by simp [TreeLoop.process, hn, hd, hb, hnx, hu], by simp [EventLoop.process, hb, hs]⟩
        case inr =>
          obtain ⟨u₂, hu₂, h₂⟩ := h₁.remove <| hm₁ te hte
          have hm₂ x (hx : x ∈ s.next te) : x ∈ (s₁.remove te).timetree := by
            obtain ⟨hxs, hxa⟩ := hnm x hx
            exact List.mem_filter.mpr ⟨hm₁ x hxs, decide_eq_true hxa⟩
          rcases hi h₂ (s.next te) hm₂ with ⟨hu₃, hs₃⟩ | ⟨u₃, s₃, es', hu₃, hs₃, h₃⟩
          case inl =>
            exact .inl ⟨by simp [TreeLoop.process, hn, hd, hb, hnx, hu, hu₂, hu₃],
              by simp [EventLoop.process, hb, hs, hs₃]⟩
          case inr =>
            exact .inr ⟨u₃, s₃, .call te.addr te.timeProc te.clientData :: es ++ es',
              by simp [TreeLoop.process, hn, hd, hb, hnx, hu, hu₂, hu₃],
              by simp [EventLoop.process, hb, hs, hs₃], h₃⟩

theorem step (h : Shows u s) (a : Action P D) : Agree (u.step a) (s.step a) := by
  cases a with
  | create tv proc data mask now mem =>
    rcases h.createTimeEvent tv proc data mask now mem with ⟨hu, hs⟩ | ⟨u', s', r, hu, hs, h', _⟩
    case inl => exact .inl ⟨by simp [TreeLoop.step, hu], by simp [EventLoop.step, hs]⟩
    case inr =>
      exact .inr ⟨u', s', if r = AE_OK then mem.toList.map fun b => .create b.addr data b.clientData else [],
        by simp [TreeLoop.step, hu], by simp [EventLoop.step, hs], h'⟩
  | process now outs =>
    rcases h.gettimeofday now with ⟨hu, hs⟩ | ⟨u', s', hu, hs, h', _⟩
    case inl =>
      exact .inl ⟨by simp [TreeLoop.step, TreeLoop.processTimeEvents, hu],
        by simp [EventLoop.step, EventLoop.processTimeEvents, hs]⟩
    case inr =>
      have hp := h'.process now outs s'.min fun te hm => List.mem_of_mem_head? hm
      simpa [TreeLoop.step, TreeLoop.processTimeEvents, EventLoop.step, EventLoop.processTimeEvents, hu, hs,
        h'.min] using hp

end Shows

-- The loop whose events are in the red-black tree does what the loop with the ordered list does.
theorem run_refines {ts : List (treeLoop P D clock).Transition} (h : (treeLoop P D clock).Run ts u) :
    ∃ (us : List (Transition P D clock)) (s : EventLoop P D), (loop P D clock).Run us s ∧
      us.map (·.act) = ts.map (·.act) ∧ Machine.events us = Machine.events ts ∧
        u.timetree.foreach = some (s.timetree.map (·.addr)) ∧ u.clock = s.clock ∧
          ∀ a, (u.step a).isSome = (s.step a).isSome := by
  have hrun : ∃ (us : List (Transition P D clock)) (s : EventLoop P D), (loop P D clock).Run us s ∧
      us.map (·.act) = ts.map (·.act) ∧ Machine.events us = Machine.events ts ∧ Shows u s := by
    refine h.history_invariant (I := fun ts u => ∃ (us : List (Transition P D clock)) (s : EventLoop P D),
      (loop P D clock).Run us s ∧ us.map (·.act) = ts.map (·.act) ∧ Machine.events us = Machine.events ts ∧ Shows u s)
      ⟨[], _, .nil, rfl, rfl, .init⟩ ?_
    rintro ts v ⟨us, s, hr, ha, he, hs⟩
    rcases hs.step v.act with ⟨hn, _⟩ | ⟨u', s', es, hu', hs', h'⟩
    case inl => cases hn.symm.trans v.valid
    case inr =>
      obtain ⟨rfl, rfl⟩ := Prod.mk.inj <| Option.some.inj <| hu'.symm.trans v.valid
      have hr' := hr.snoc ⟨s, v.act, v.events, s', hs'⟩
      exact ⟨_, s', hr', by simp [ha], by simp [he], h'⟩
  obtain ⟨us, s, hr, ha, he, hs⟩ := hrun
  obtain ⟨t, ht⟩ := hs.tree
  have hf := ht.foreach
  rw [List.map_map] at hf
  refine ⟨us, s, hr, ha, he, hf, hs.clock, fun a => ?_⟩
  rcases hs.step a with ⟨hu', hs'⟩ | ⟨u', s', es, hu', hs', _⟩
  case inl => rw [hu', hs', Option.isSome_none, Option.isSome_none]
  case inr => rw [hu', hs', Option.isSome_some, Option.isSome_some]

-- Two events at one time, of which the first is not called again.
def armed : List (treeLoop Nat Nat ⟨0, 0⟩).Transition × TreeLoop Nat Nat :=
  (treeLoop Nat Nat ⟨0, 0⟩).trace (treeLoop Nat Nat ⟨0, 0⟩).init
    [.create (some ⟨1, 0⟩) 5 6 0 ⟨0, 0⟩ (some ⟨16, 0⟩), .create (some ⟨1, 0⟩) 7 8 0 ⟨0, 0⟩ (some ⟨8, 0⟩),
      .process ⟨2, 0⟩ [⟨AE_NOMORE, ⟨2, 0⟩, none⟩, ⟨AE_OK, ⟨2, 0⟩, some ⟨24, 0⟩⟩]]

theorem refines_armed : ∃ s : EventLoop Nat Nat, armed.2.timetree.foreach = some (s.timetree.map (·.addr)) ∧
    armed.2.clock = s.clock := by
  obtain ⟨_, s, _, _, _, hf, hc, _⟩ := run_refines <| (treeLoop Nat Nat ⟨0, 0⟩).path_trace ..
  exact ⟨s, hf, hc⟩

end Ae
