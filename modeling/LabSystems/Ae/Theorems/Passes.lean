import LabSystems.Ae.Theorems.TimeEvents

namespace Ae

open EventLoop (Pass Trail)

variable {P D : Type} {te x y : TimeEvent P D} {s s' : EventLoop P D} {es es' : List (Event P D)} {now : TimeVal}
  {o : Outcome D} {outs : List (Outcome D)} {p : TimeEvent P D × Outcome D} {new called : List (TimeEvent P D)}

-- The events whose callbacks do not return `AE_NOMORE`, with what happens to them.
def EventLoop.continuing (s : EventLoop P D) (now : TimeVal) (outs : List (Outcome D)) :
    List (TimeEvent P D × Outcome D) :=
  ((s.due now).zip outs).filter (·.2.retval ≠ AE_NOMORE)

-- A new event, at the address that `malloc` has returned for it, does what the old one has been registered for.
structure Rearms (reg : Nat → Option D) (now : TimeVal) (p : TimeEvent P D × Outcome D) (x : TimeEvent P D) : Prop where
  addr       : p.2.mem.map (·.addr) = some x.addr
  tv         : x.tv = p.1.tv
  timeProc   : x.timeProc = p.1.timeProc
  clientData : reg p.1.addr = some x.clientData
  timeout    : now.Before x.timeout

-- A pass calls the callbacks of the events that are due, each once, in the order of their times and with the
-- registered client data. Then the tree has the events which are not due, and a new event for each callback that is
-- to be called again.
structure Fires (reg : Nat → Option D) (now : TimeVal) (outs : List (Outcome D)) (s : EventLoop P D)
    (es : List (Event P D)) (s' : EventLoop P D) : Prop where
  calls : (calls es).map (fun (a, p, d) => (a, p, some d)) = (s.due now).map fun te => (te.addr, te.timeProc, reg te.addr)
  once  : ((s.due now).map (·.addr)).Nodup
  order : (s.due now).Pairwise fun x y => ¬y.timeout.Before x.timeout
  tree  : ∃ new, s'.timetree.Perm (s.rest now ++ new) ∧ (s.continuing now outs).Forall₂ (Rearms reg now) new

-- The memory of the events that are due, and of those which are registered again, has already held the client data
-- when it was allocated, and the time and the interval of a registration have a sum that fits.
structure Kept (es : List (Event P D)) (now : TimeVal) (outs : List (Outcome D)) (s : EventLoop P D) : Prop where
  fired   : ∀ te ∈ s.due now, held es te.addr = registered es te.addr
  rearmed : ∀ p ∈ s.continuing now outs, p.2.mem.map (·.clientData) = registered es p.1.addr
  fits    : ∀ p ∈ s.continuing now outs, TimeVal.Fits now p.2.now p.1.tv

theorem mem_of_mem_due (h : te ∈ s.due now) : te ∈ s.timetree :=
  (List.mem_filter.mp h).left

theorem mem_of_mem_continuing (h : p ∈ s.continuing now outs) :
    p ∈ (s.due now).zip outs ∧ p.1 ∈ s.due now ∧ p.2.retval ≠ AE_NOMORE := by
  have ⟨hz, hr⟩ := List.mem_filter.mp h
  exact ⟨hz, (List.of_mem_zip hz).left, by simpa using hr⟩

-- The elements that are kept by a filter, and what is made of them.
theorem forall₂_filterMap {α β : Type} {R : α → β → Prop} {c : α → Bool} {f : α → Option β} (l : List α)
    (h : ∀ a ∈ l, c a → ∃ b ∈ f a, R a b) (hn : ∀ a ∈ l, ¬c a → f a = none) :
    (l.filter c).Forall₂ R (l.filterMap f) := by
  induction l
  case nil => exact .nil
  case cons a l hi =>
    have hi := hi (fun b hb => h b <| List.mem_cons_of_mem a hb) fun b hb => hn b <| List.mem_cons_of_mem a hb
    if hc : c a then
      have ⟨b, hb, hr⟩ := h a List.mem_cons_self hc
      rw [List.filter_cons_of_pos hc, List.filterMap_cons_some hb]
      exact .cons hr hi
    else
      rw [List.filter_cons_of_neg hc, List.filterMap_cons_none <| hn a List.mem_cons_self hc]
      exact hi

theorem exists_of_forall₂ {α β : Type} {R : α → β → Prop} {a : α} {l : List α} {l' : List β} (h : l.Forall₂ R l')
    (ha : a ∈ l) :
    ∃ b ∈ l', R a b := by
  induction h
  case nil => cases ha
  case cons b c l l' hr _ hi =>
    cases List.mem_cons.mp ha
    case inl he => exact ⟨c, List.mem_cons_self, he ▸ hr⟩
    case inr hm =>
      have ⟨d, hd, hr⟩ := hi hm
      exact ⟨d, List.mem_cons_of_mem c hd, hr⟩

theorem eq_of_map_eq {α β : Type} {f : α → β} {l l' : List α} (h : l.map f = l'.map f)
    (hi : ∀ a ∈ l, ∀ b ∈ l', f a = f b → a = b) : l = l' := by
  induction l generalizing l'
  case nil => exact (List.map_eq_nil_iff.mp h.symm).symm
  case cons a l ih =>
    obtain ⟨b, l', rfl, he, ht⟩ := List.map_eq_cons_iff.mp h.symm
    rw [hi a List.mem_cons_self b List.mem_cons_self he.symm]
    rw [ih ht.symm fun x hx y hy => hi x (List.mem_cons_of_mem _ hx) y (List.mem_cons_of_mem _ hy)]

-- The callbacks get the registered client data if the memory has held it.
theorem calls_iff (hc : calls es' = (s.due now).map fun te => (te.addr, te.timeProc, te.clientData)) (hi : s.Inv es) :
    (calls es').map (fun (a, p, d) => (a, p, some d)) =
      (s.due now).map (fun te => (te.addr, te.timeProc, registered es te.addr)) ↔
    ∀ te ∈ s.due now, held es te.addr = registered es te.addr := by
  rw [hc, List.map_map, List.map_inj_left]
  refine forall₂_congr fun te hm => ?_
  rw [hi.held te <| mem_of_mem_due hm]
  simp

theorem rearms_of (h : Pass now (s.due now) (s.rest now) outs es s' es') (hm : p ∈ s.continuing now outs)
    (hd : p.2.mem.map (·.clientData) = registered es p.1.addr) (hr : (registered es p.1.addr).isSome) :
    ∃ x ∈ rearmed p.1 p.2, Rearms (registered es) now p x := by
  have ⟨hz, _, hn⟩ := mem_of_mem_continuing hm
  cases ho : p.2.mem
  case none => simp [ho, ← hd] at hr
  case some b =>
    have hx : rearmed p.1 p.2 = some ⟨b.addr, p.2.now.add p.1.tv, p.1.tv, p.1.timeProc, 0, b.clientData⟩ := by
      simp [rearmed, hn, ho]
    refine ⟨_, hx, by simp [ho], rfl, rfl, ?_, ?_⟩
    · simp [← hd, ho]
    · exact h.later _ <| List.mem_filterMap.mpr ⟨p, hz, hx⟩

-- If the callbacks are those of the events that are due, they have been called for these very events.
theorem called_eq (h : Trail outs es { s with clock := now } s' es' called) (hi : s.Inv es)
    (hc : (calls es').map (fun (a, p, d) => (a, p, some d)) =
      (s.due now).map fun te => (te.addr, te.timeProc, registered es te.addr)) : called = s.due now := by
  have ha : called.map (·.addr) = (s.due now).map (·.addr) := by
    have hc := congrArg (List.map Prod.fst) hc
    rw [h.calls, List.map_map, List.map_map, List.map_map] at hc
    exact hc
  have hm {te} (ht : te ∈ called) : te ∈ s.timetree := by
    obtain ⟨x, hx, he⟩ := List.mem_map.mp <| ha ▸ List.mem_map_of_mem ht
    exact (h.old te ht).resolve_right fun hn => hn <| he ▸ hi.allocated x (mem_of_mem_due hx)
  exact eq_of_map_eq ha fun a ha b hb => List.inj_on_of_nodup_map hi.nodup (hm ha) (mem_of_mem_due hb)

-- A new event that does what the old one has been registered for is the one that the pass has registered.
theorem eq_of_rearms (h : Trail outs es { s with clock := now } s' es' (s.due now)) (hi : s.Inv es)
    (hm : p ∈ s.continuing now outs) (hx : x ∈ s'.timetree) (hr : Rearms reg now p x) : rearmed p.1 p.2 = some x := by
  have ⟨hz, _, hn⟩ := mem_of_mem_continuing hm
  have ⟨b, ho, ha⟩ := Option.map_eq_some_iff.mp hr.addr
  obtain ⟨y, hy⟩ : ∃ y, rearmed p.1 p.2 = some y := ⟨_, by simp only [rearmed, hn, ho, if_false, Option.map_some]; rfl⟩
  have hya : y.addr = b.addr := by
    simp only [rearmed, hn, ho, if_false, Option.map_some, Option.some.injEq] at hy
    exact hy ▸ rfl
  have hym : y ∈ s'.timetree := by
    refine (h.new p hz y hy).resolve_right fun hd => h.fresh p hz y hy ?_
    obtain ⟨te, ht, he⟩ := List.mem_map.mp hd
    exact he ▸ hi.allocated te (mem_of_mem_due ht)
  rw [hy, List.inj_on_of_nodup_map h.inv.nodup hx hym <| ha.symm.trans hya.symm]

theorem kept_of_fires (h : s.processTimeEvents now outs = some (s', es')) (hi : s.Inv es)
    (f : Fires (registered es) now outs s es' s') : Kept es now outs s := by
  have hk := (EventLoop.processTimeEvents_eq_some h).left
  obtain ⟨called, ht⟩ := EventLoop.trail_of h hi
  obtain rfl := called_eq ht hi f.calls
  obtain ⟨new, hp, hf⟩ := f.tree
  have hnew {p} (hm : p ∈ s.continuing now outs) : ∃ x, rearmed p.1 p.2 = some x ∧ Rearms (registered es) now p x := by
    obtain ⟨x, hx, hr⟩ := exists_of_forall₂ hf hm
    exact ⟨x, eq_of_rearms ht hi hm (hp.mem_iff.mpr <| List.mem_append_right _ hx) hr, hr⟩
  refine ⟨(calls_iff ht.calls hi).mp f.calls, fun p hm => ?_, fun p hm => ?_⟩
  case refine_1 =>
    obtain ⟨x, hx, hr⟩ := hnew hm
    obtain ⟨b, ho, _⟩ := Option.map_eq_some_iff.mp hr.addr
    simp only [rearmed, (mem_of_mem_continuing hm).right.right, ho, if_false, Option.map_some, Option.some.injEq] at hx
    rw [hr.clientData, ho, ← hx]
    rfl
  case refine_2 =>
    obtain ⟨x, hx, hr⟩ := hnew hm
    obtain ⟨hz, hd, _⟩ := mem_of_mem_continuing hm
    obtain ⟨hb, hv⟩ := ht.now p hz x hx
    have hv' := hi.positive p.1 <| mem_of_mem_due hd
    rw [← TimeVal.before_add_iff hk hv hb hv', ← (rearmed_eq_some hx).right]
    exact hr.timeout

theorem fires_of_kept (h : s.processTimeEvents now outs = some (s', es')) (hi : s.Inv es) (k : Kept es now outs s) :
    Fires (registered es) now outs s es' s' := by
  have hpass := EventLoop.pass_of h hi fun p hp hr => k.fits p <| List.mem_filter.mpr ⟨hp, by simpa using hr⟩
  refine ⟨(calls_iff hpass.calls hi).mpr k.fired, ?_, ?_, _, hpass.tree, forall₂_filterMap _ ?_ ?_⟩
  · exact hi.nodup.sublist <| List.filter_sublist.map _
  · exact (hi.sorted.sublist List.filter_sublist).imp not_before_of_compare
  · intro p hz hc
    have hm : p ∈ s.continuing now outs := List.mem_filter.mpr ⟨hz, hc⟩
    have hd := (mem_of_mem_continuing hm).right.left
    exact rearms_of hpass hm (k.rearmed p hm) <| hi.registered _ <| mem_of_mem_due hd
  · intro p _ hc
    have hn : p.2.retval = AE_NOMORE := by simpa using hc
    simp [rearmed, hn]

theorem fires_iff {clock : TimeVal} {ts₁ ts₂ : List (Transition P D clock)} {t : Transition P D clock}
    (r : (loop P D clock).Run (ts₁ ++ t :: ts₂) s) (hp : Positive (ts₁ ++ t :: ts₂)) (ha : t.act = .process now outs) :
    Fires (registered (Machine.events ts₁)) now outs t.pre t.events t.post ↔ Kept (Machine.events ts₁) now outs t.pre := by
  have hi := inv_of_run r.split_cons.left fun u hu => hp u <| List.mem_append_left _ hu
  have hs : t.pre.step (.process now outs) = some (t.post, t.events) := ha ▸ t.valid
  exact ⟨kept_of_fires hs hi, fires_of_kept hs hi⟩

-- The first event, for which the client data 7 is registered, in memory that holds other data, or not.
def first (data : Nat) : Transition Unit Nat ⟨0, 0⟩ :=
  ⟨.init ⟨0, 0⟩, .create (some ⟨0, 1⟩) () 7 0 ⟨0, 0⟩ (some ⟨16, data⟩), _, _, rfl⟩

-- It is due after 5 microseconds, and is registered again.
def pass (data : Nat) : Transition Unit Nat ⟨0, 0⟩ :=
  ⟨(first data).post, .process ⟨0, 5⟩ [⟨AE_OK, ⟨0, 6⟩, some ⟨32, 7⟩⟩], _, _, rfl⟩

theorem run_pass (data : Nat) : (loop Unit Nat ⟨0, 0⟩).Run ([first data] ++ [pass data]) (pass data).post :=
  Machine.Path.nil.snoc (first data) |>.snoc (pass data)

theorem positive_pass (data : Nat) : Positive ([first data] ++ [pass data]) := by
  intro t ht tv p d m now mem ha
  cases List.mem_pair.mp ht
  case inl he =>
    subst he
    cases ha
    exact TimeVal.before_iff.mpr <| .inr ⟨rfl, Int.one_pos⟩
  case inr he =>
    subst he
    cases ha

theorem fires_seven : Fires (registered (first 7).events) ⟨0, 5⟩ [⟨AE_OK, ⟨0, 6⟩, some ⟨32, 7⟩⟩] (pass 7).pre
    (pass 7).events (pass 7).post := by
  have r : (loop Unit Nat ⟨0, 0⟩).Run ([first 7] ++ pass 7 :: []) (pass 7).post := run_pass 7
  refine (fires_iff r (positive_pass 7) rfl).mpr ⟨fun te hm => ?_, fun p hm => ?_, fun p hm => ?_⟩
  all_goals
    cases List.mem_singleton.mp hm
    first | rfl | decide

-- The callback gets what the memory has held.
theorem not_fires_zero : ∃ s, (loop Unit Nat ⟨0, 0⟩).Run ([first 0] ++ [pass 0]) s ∧ Positive ([first 0] ++ [pass 0]) ∧
    ¬Fires (registered (first 0).events) ⟨0, 5⟩ [⟨AE_OK, ⟨0, 6⟩, some ⟨32, 7⟩⟩] (pass 0).pre (pass 0).events s := by
  refine ⟨_, run_pass 0, positive_pass 0, fun h => ?_⟩
  have hc : [(16, (), some 0)] = [(16, (), some 7)] := h.calls
  cases hc

end Ae
