import LabSystems.Nsqd.Channel
import LabSystems.Nsqd.Theorems.Pqueue

namespace Nsqd

open Machine (events)

namespace InFlightChannel

variable {c c' : InFlightChannel} {s : Start} {x : Ref}

-- The messages in the map, under their IDs, are those in the queue.
structure Agree (c : InFlightChannel) : Prop where
  nodup : c.inFlightPQ.refs.Nodup
  iff   : ∀ id x, c.inFlightMessages id = some x ↔ x ∈ c.inFlightPQ.refs ∧ (c.message x).id = id

-- The messages in flight are the same, and the fields that are set when a message is put in flight.
structure Unchanged (c c' : InFlightChannel) : Prop where
  inFlightMessages : c'.inFlightMessages = c.inFlightMessages
  refs             : c'.inFlightPQ.refs = c.inFlightPQ.refs
  fields           : ∀ x ∈ c.inFlightPQ.refs, (c'.message x).pri = (c.message x).pri ∧
    (c'.message x).clientID = (c.message x).clientID ∧ (c'.message x).deliveryTS = (c.message x).deliveryTS

structure Valid (c : InFlightChannel) : Prop where
  agree : c.Agree
  pq    : c.inFlightPQ.Valid
  pri   : ∀ x ∈ c.inFlightPQ.refs, (c.message x).pri = unixNano (c.message x).deliveryTS

-- A call on a message in flight does not write anything new to it.
def Harmless (c : InFlightChannel) (s : Start) : Prop :=
  s.msg ∈ c.inFlightPQ.refs → (c.message s.msg).clientID = s.clientID ∧ (c.message s.msg).deliveryTS = s.now

-- What is written before the ID is looked up.
def mark (c : InFlightChannel) (s : Start) : InFlightChannel :=
  { c with inFlightPQ := c.inFlightPQ.write s.msg { c.message s.msg with
    clientID   := s.clientID
    deliveryTS := s.now
    pri        := unixNano s.now } }

theorem message_mark : (c.mark s).message x = if x = s.msg then { c.message s.msg with
    clientID   := s.clientID
    deliveryTS := s.now
    pri        := unixNano s.now } else c.message x := by
  simp only [mark, message, InFlightPqueue.write, Function.update_apply]

theorem id_mark : ((c.mark s).message x).id = (c.message x).id := by
  rw [message_mark]
  split
  case isTrue h => rw [h]
  case isFalse  => rfl

theorem mark_eq (hc : (c.message s.msg).clientID = s.clientID) (ht : (c.message s.msg).deliveryTS = s.now)
    (hp : (c.message s.msg).pri = unixNano (c.message s.msg).deliveryTS) : c.mark s = c := by
  have hm : { c.message s.msg with clientID := s.clientID, deliveryTS := s.now, pri := unixNano s.now } =
      c.message s.msg := by rw [← hc, ← ht, ← hp]
  have hw : c.inFlightPQ.write s.msg (c.message s.msg) = c.inFlightPQ := by
    simp [InFlightPqueue.write, message]
  rw [mark, hm, hw]

theorem start_eq (c : InFlightChannel) (s : Start) : c.startInFlightTimeout s =
    match (c.mark s).pushInFlightMessage s.msg with
    | .error err => some (c.mark s, some err)
    | .ok c      => c.addToInFlightPQ s.msg |>.map (·, none) :=
  rfl

theorem start_refused (h : c.inFlightMessages (c.message s.msg).id = some x) :
    c.startInFlightTimeout s = some (c.mark s, some "ID already in flight") := by
  have hid : (c.mark s).inFlightMessages ((c.mark s).message s.msg).id = some x := by rwa [id_mark]
  rw [start_eq, pushInFlightMessage, hid]

namespace Valid

theorem mark (h : c.Valid) (hs : c.Harmless s) : (c.mark s).Valid := by
  by_cases hm : s.msg ∈ c.inFlightPQ.refs
  case pos =>
    have ⟨hc, ht⟩ := hs hm
    rwa [mark_eq hc ht <| h.pri _ hm]
  case neg =>
    have hne {x} (hx : x ∈ c.inFlightPQ.refs) : x ≠ s.msg := fun he => hm <| he ▸ hx
    refine ⟨⟨h.agree.nodup, fun id x => ?_⟩, (InFlightPqueue.write_ran h.pq hm _).valid, fun x hx => ?_⟩
    case refine_1 => rw [id_mark]; exact h.agree.iff id x
    case refine_2 => rw [message_mark, if_neg (hne hx)]; exact h.pri x hx

end Valid

theorem Agree.mem (h : c.Agree) (hx : x ∈ c.inFlightPQ.refs) : c.inFlightMessages (c.message x).id = some x :=
  (h.iff _ _).mpr ⟨hx, rfl⟩

-- A call that puts a message in flight.
theorem start_spec (h : c.Valid) (hs : c.inFlightMessages (c.message s.msg).id = none) :
    ∃ c', c.startInFlightTimeout s = some (c', none) ∧ c'.Valid := by
  have hx : s.msg ∉ c.inFlightPQ.refs := fun hx => by cases hs.symm.trans <| h.agree.mem hx
  have hv := h.mark fun hm => absurd hm hx
  have ⟨pq, hp, hpushed⟩ := InFlightPqueue.push_spec hv.pq (x := s.msg) hx
  have hid : (c.mark s).inFlightMessages ((c.mark s).message s.msg).id = none := by rwa [id_mark]
  have hfields (y) : (pq.messages y).id = (c.message y).id := by
    have ⟨i, hi⟩ := hpushed.fields y
    rw [hi]
    exact id_mark
  refine ⟨⟨Function.update c.inFlightMessages (c.message s.msg).id s.msg, pq⟩, ?_, ⟨?_, ?_⟩, hpushed.toValid, ?_⟩
  case refine_1 =>
    rw [start_eq, pushInFlightMessage, hid]
    dsimp only
    rw [addToInFlightPQ, hp, id_mark]
    rfl
  case refine_2 => exact hpushed.indexed.nodup
  case refine_3 =>
    intro id x
    have hmem : x ∈ pq.refs ↔ x = s.msg ∨ x ∈ c.inFlightPQ.refs := hpushed.perm.mem_iff.trans List.mem_cons
    dsimp only [message]
    rw [hmem, hfields, Function.update_apply]
    split
    case isTrue hi =>
      subst hi
      constructor
      case mp  => exact fun he => ⟨.inl (Option.some.inj he).symm, congrArg (fun y => (c.message y).id) (Option.some.inj he).symm⟩
      case mpr =>
        intro ⟨hx, he⟩
        rcases hx with rfl | hx
        case inl => rfl
        case inr => cases hs.symm.trans <| he ▸ h.agree.mem hx
    case isFalse hi =>
      rw [h.agree.iff]
      refine and_congr_left fun he => ⟨.inr, fun hx => hx.resolve_left ?_⟩
      rintro rfl
      exact hi he.symm
  case refine_4 =>
    intro x hx
    have ⟨i, hi⟩ := hpushed.fields x
    have hm : (c.mark s).inFlightPQ.messages x = (c.mark s).message x := rfl
    dsimp only [message]
    rw [hi, hm, message_mark]
    split
    case isTrue => rfl
    case isFalse hne =>
      rcases List.mem_cons.mp <| hpushed.perm.mem_iff.mp hx with he | hx
      case inl => exact absurd he hne
      case inr => exact h.pri x hx

end InFlightChannel

abbrev StartTransition (messages : Ref → InFlight) :=
  (inFlight messages).Transition

variable {messages : Ref → InFlight} {ts : List (StartTransition messages)} {o : Option InFlightChannel}

-- After the call everything is in order, and if it is refused, nothing has changed.
def StartTransition.Intact (t : StartTransition messages) : Prop :=
  ∃ c c', t.pre = some c ∧ t.post = some c' ∧ c'.Agree ∧ c'.inFlightPQ.Valid ∧
    ∀ err ∈ t.events, err = some "ID already in flight" → c.Unchanged c'

def StartTransition.Harmless (t : StartTransition messages) : Prop :=
  ∀ c ∈ t.pre, c.Harmless t.act

namespace InFlightChannel

open StartTransition

theorem step_spec (t : StartTransition messages) (hc : t.pre = some c) (h : c.Valid) :
    (Intact t ↔ StartTransition.Harmless t) ∧ (StartTransition.Harmless t → ∃ c', t.post = some c' ∧ c'.Valid) := by
  have hv := t.valid
  simp only [inFlight, hc, Option.map_some] at hv
  have harmless : StartTransition.Harmless t ↔ c.Harmless t.act := by simp [StartTransition.Harmless, hc]
  cases hid : c.inFlightMessages (c.message t.act.msg).id
  case none =>
    have ⟨c', hs, hv'⟩ := start_spec h hid
    rw [hs] at hv
    have ⟨hpost, hevents⟩ := Prod.mk.inj <| Option.some.inj hv
    have hh : c.Harmless t.act := fun hx => by cases hid.symm.trans <| h.agree.mem hx
    refine ⟨iff_of_true ⟨c, c', hc, hpost.symm, hv'.agree, hv'.pq, ?_⟩ <| harmless.mpr hh, fun _ => ⟨c', hpost.symm, hv'⟩⟩
    simp [← hevents]
  case some x =>
    rw [start_refused hid] at hv
    have ⟨hpost, hevents⟩ := Prod.mk.inj <| Option.some.inj hv
    refine ⟨⟨fun ⟨c₁, c', hc₁, hc', _, _, hu⟩ => ?_, fun hh => ?_⟩, fun hh => ⟨_, hpost.symm, h.mark <| harmless.mp hh⟩⟩
    case refine_1 =>
      cases hc.symm.trans hc₁
      cases hpost.trans hc'
      have hu := hu _ (hevents ▸ List.mem_singleton_self _) rfl
      refine harmless.mpr fun hx => ?_
      have ⟨_, hcl, hts⟩ := hu.fields _ hx
      rw [message_mark, if_pos rfl] at hcl hts
      exact ⟨hcl.symm, hts.symm⟩
    case refine_2 =>
      have hh := harmless.mp hh
      have hm := h.mark hh
      refine ⟨c, _, hc, hpost.symm, hm.agree, hm.pq, fun _ _ _ => ⟨rfl, rfl, fun y hy => ?_⟩⟩
      by_cases hym : y = t.act.msg
      case neg => rw [message_mark, if_neg hym]; exact ⟨rfl, rfl, rfl⟩
      case pos =>
        have ⟨hcl, hts⟩ := hh (hym ▸ hy)
        rw [mark_eq hcl hts (h.pri _ <| hym ▸ hy)]
        exact ⟨rfl, rfl, rfl⟩

theorem Valid.new : (new messages).Valid where
  agree := ⟨.nil, fun id x => by simp [InFlightChannel.new, InFlightPqueue.new]⟩
  pq    := (InFlightPqueue.After.new (by decide)).toValid
  pri   := nofun

-- A refused call may only be on a message that is not in flight itself.
theorem intact_iff (r : (inFlight messages).Run ts o) :
    (∀ t ∈ ts, Intact t) ↔ ∀ t ∈ ts, StartTransition.Harmless t := by
  have h : ((∀ t ∈ ts, Intact t) ↔ ∀ t ∈ ts, StartTransition.Harmless t) ∧
      ((∀ t ∈ ts, StartTransition.Harmless t) → ∃ c, o = some c ∧ c.Valid) := by
    refine r.history_invariant (I := fun ts o => ((∀ t ∈ ts, Intact t) ↔ ∀ t ∈ ts, StartTransition.Harmless t) ∧
      ((∀ t ∈ ts, StartTransition.Harmless t) → ∃ c, o = some c ∧ c.Valid)) ⟨by simp, fun _ => ⟨_, rfl, .new⟩⟩ ?_
    intro ts t ⟨hi, hv⟩
    have append (P : StartTransition messages → Prop) : (∀ u ∈ ts ++ [t], P u) ↔ (∀ u ∈ ts, P u) ∧ P t := by
      simp [or_imp, forall_and]
    rw [append, append, hi]
    constructor
    case left =>
      refine and_congr_right fun hs => ?_
      have ⟨c, hc, hv⟩ := hv hs
      exact (step_spec t hc hv).left
    case right =>
      intro ⟨hs, ht⟩
      have ⟨c, hc, hv⟩ := hv hs
      exact (step_spec t hc hv).right ht
  exact h.left

-- The pointers 0 and 2 are to messages with the same ID.
def twins (x : Ref) : InFlight where
  id         := ⟨.replicate msgIDLength (x % 2).toUInt8, by simp⟩
  body       := []
  timestamp  := 0
  deliveryTS := 0
  clientID   := 0
  pri        := 0
  index      := 0

def started (ss : List Start) : List (StartTransition twins) × Option InFlightChannel :=
  Machine.trace _ (inFlight twins).init ss

def refused : List Start :=
  [⟨0, 1, 10⟩, ⟨1, 1, 20⟩, ⟨2, 2, 30⟩]

theorem intact_iff_refused :
    events (started refused).1 = [none, none, some "ID already in flight"] ∧ ∀ t ∈ (started refused).1, Intact t := by
  have hh : ∀ t ∈ (started refused).1, ∀ c ∈ t.pre, t.act.msg ∉ c.inFlightPQ.refs := by decide +kernel
  refine ⟨by decide +kernel, (intact_iff <| Machine.path_trace ..).mpr fun t ht c hc hm => ?_⟩
  exact absurd hm <| hh t ht c hc

-- The root of the queue is put in flight again.
def again : List Start :=
  [⟨0, 1, 10⟩, ⟨1, 1, 20⟩, ⟨0, 2, 30⟩]

theorem not_intact : events (started again).1 = [none, none, some "ID already in flight"] ∧
    (again.map (·.now)).Pairwise (· ≤ ·) ∧
    (started again).2.map (fun c => c.inFlightPQ.refs.map fun x => ((c.message x).clientID, (c.message x).pri)) =
      some [(2, 30), (1, 20)] ∧
    ¬∀ t ∈ (started again).1, Intact t := by
  refine ⟨by decide +kernel, by decide +kernel, by decide +kernel, fun h => ?_⟩
  have hp : ∃ t ∈ (started again).1, ∃ c ∈ t.post, 1 < c.inFlightPQ.refs.length ∧
      c.inFlightPQ.key 1 < c.inFlightPQ.key 0 := by decide +kernel
  have ⟨t, ht, c, hc, hl, hlt⟩ := hp
  have ⟨_, c', _, hc', _, hv, _⟩ := h t ht
  cases hc.symm.trans hc'
  exact not_lt.mpr (hv.ordered 1 hl Nat.one_pos) hlt

end InFlightChannel

end Nsqd
