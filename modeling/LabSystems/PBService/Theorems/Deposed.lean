import LabSystems.PBService.Theorems.Copies

namespace PBService

open ViewService (View)

open Machine (events)

-- An update that the primary of a view newer than `n` has answered `OK`.
def Event.acked (n : Nat) : Event → Option PutAppendArgs
  | putAppend _ p v args reply => if n < v.viewnum ∧ v.primary = p ∧ reply.err = .ok then some args else none
  | _                          => none

def acked (es : List Event) (n : Nat) : List PutAppendArgs :=
  es.filterMap (Event.acked n)

-- A server has executed an update in a view after the primary of a newer view has answered `OK`.
def Late (ts : List Transition) (p : String) (v : View) (args : PutAppendArgs) : Prop :=
  ∃ us u ws, ts = us ++ u :: ws ∧ .execute p v args ∈ u.events ∧ acked (events us) v.viewnum ≠ []

instance : Decidable (Late ts p v args) :=
  decidable_of_iff _ List.exists_split_iff.symm

-- An idle server that names itself primary gets a request in a view after the primary of a newer view
-- has answered `OK` to an update. It has a value of the key of the update which the update is missing
-- in, or executes another update without a backup that it waits for.
def Request.Stale (ts : List Transition) (s : State) : Request → Prop
  | get p args => ∃ pb ∈ s.idle p, pb.IsPrimary ∧ pb.db.read args.key ≠ "" ∧
    ∃ a ∈ acked (events ts) pb.view.viewnum, a.key = args.key ∧ a ∉ (replicas (events ts)).held p args.key
  | putAppend p args => ∃ pb ∈ s.idle p, pb.refuse args = none ∧ ¬pb.HasBackup ∧
    (args.op = "Append" ∨ args.op = "Put") ∧ acked (events ts) pb.view.viewnum ≠ []
  | ping _ | forward _ _ => False

instance : DecidablePred (Request.Stale ts s)
  | .get _ _            => inferInstanceAs <| Decidable <| ∃ _ ∈ _, _
  | .putAppend _ _      => inferInstanceAs <| Decidable <| ∃ _ ∈ _, _
  | .ping _ | .forward _ _ => instDecidableFalse

-- A server waits for its backup before it answers `OK` to an update that it has executed late.
def Server.Stale (ts : List Transition) (p : String) (sv : Server) : Prop :=
  match sv.lock with
  | .putAppend _ _ args reply => reply.err = .ok ∧ Late ts p sv.pb.view args
  | .free | .ping _ | .tick _ => False

instance : DecidablePred (Server.Stale ts p)
  | ⟨_, .putAppend _ _ _ _⟩ => inferInstanceAs <| Decidable <| _ ∧ _
  | ⟨_, .free⟩ | ⟨_, .ping _⟩ | ⟨_, .tick _⟩ => instDecidableFalse

def State.Stale (ts : List Transition) (s : State) : Action → Prop
  | .handle c            => ∃ r ∈ s.calls.pending c, r.Stale ts s
  | .receive p | .fail p => ∃ sv ∈ s.servers p, sv.Stale ts p
  | _                    => False

instance : DecidablePred (State.Stale ts s)
  | .handle _              => inferInstanceAs <| Decidable <| ∃ _ ∈ _, _
  | .receive _ | .fail _   => inferInstanceAs <| Decidable <| ∃ _ ∈ _, _
  | .vsTick | .startServer _ | .crash _ | .tick _ | .makeClerk _ _ | .get _ _ | .putAppend _ _ _ _ _ |
    .clerkReceive _ | .clerkFail _ => instDecidableFalse

theorem mem_acked : args ∈ acked es n ↔ ∃ c p v, .putAppend c p v args ⟨.ok⟩ ∈ es ∧ n < v.viewnum ∧ v.primary = p := by
  simp only [acked, List.mem_filterMap]
  constructor
  case mp =>
    intro ⟨e, he, ha⟩
    cases e <;> simp only [Event.acked, reduceCtorEq] at ha
    case putAppend c p v args' reply =>
      have ⟨⟨hn, hp, hr⟩, ha⟩ := Option.ite_none_right_eq_some.mp ha
      cases ha
      have hr : reply = ⟨.ok⟩ := congrArg PutAppendReply.mk hr
      exact ⟨c, p, v, hr ▸ he, hn, hp⟩
  case mpr =>
    intro ⟨c, p, v, he, hn, hp⟩
    exact ⟨_, he, by simp [Event.acked, hn, hp]⟩

-- Once the primary of a view has answered `OK` to an update, no server answers that names itself
-- primary in an older view: neither from a copy of the key which the update is missing in, nor to an
-- update that it executes later.
def NoStaleAnswer (ts : List Transition) : Prop :=
  ∀ ts₁ t ts₂, ts = ts₁ ++ t :: ts₂ →
    ∀ c q v args, .putAppend c q v args ⟨.ok⟩ ∈ t.events → v.primary = q →
    ∀ us u ws, ts₂ = us ++ u :: ws → ∀ p w, w.viewnum < v.viewnum → w.primary = p →
      (∀ c value, .get c p w ⟨args.key⟩ ⟨.ok, value⟩ ∈ u.events →
        args ∈ (replicas (Machine.events (ts₁ ++ t :: us))).held p args.key) ∧
      (∀ args', .execute p w args' ∈ u.events →
        ∀ c, .putAppend c p w args' ⟨.ok⟩ ∉ Machine.events (u :: ws))

-- The answers of a step that are stale after the steps before.
def StaleAnswer (ts : List Transition) (es : List Event) : Prop :=
  (∃ c p w args value, .get c p w args ⟨.ok, value⟩ ∈ es ∧
    ∃ a ∈ acked (events ts) w.viewnum, a.key = args.key ∧ a ∉ (replicas (events ts)).held p args.key) ∨
  ∃ c p w args, .putAppend c p w args ⟨.ok⟩ ∈ es ∧
    (.execute p w args ∈ es ∧ acked (events ts) w.viewnum ≠ [] ∨ Late ts p w args)

variable {ts : List Transition} {t : Transition}

theorem primary_of_execute (r : cluster.Run ts t.pre) (he : .execute p v args ∈ t.events) : v.primary = p := by
  have ⟨_, _, _, hi, ha, hv⟩ := Step.of t |>.of_execute he
  exact hv ▸ (sound_of_run r |>.isPrimary_iff hi).mp (PBServer.refuse_eq_none.mp ha).left

theorem primary_of_get (r : cluster.Run ts t.pre) (he : .get c p v args ⟨.ok, value⟩ ∈ t.events) : v.primary = p := by
  have ⟨_, hi, hv, hg⟩ := Step.of t |>.of_get he
  exact hv ▸ (sound_of_run r |>.isPrimary_iff hi).mp (PBServer.get_eq_ok.mp hg).left

theorem exists_of_mem_acked (h : a ∈ acked (events ts) n) : ∃ us u ws, ts = us ++ u :: ws ∧
    ∃ c p v, .putAppend c p v a ⟨.ok⟩ ∈ u.events ∧ n < v.viewnum ∧ v.primary = p := by
  have ⟨c, p, v, he, hn, hp⟩ := mem_acked.mp h
  have ⟨u, hu, he⟩ := Machine.mem_events.mp he
  have ⟨us, ws, hs⟩ := List.append_of_mem hu
  exact ⟨us, u, ws, hs, c, p, v, he, hn, hp⟩

theorem Late.acked (h : Late ts p v args) : acked (events ts) v.viewnum ≠ [] := by
  obtain ⟨us, u, ws, rfl, _, ha⟩ := h
  rw [Machine.events_append, PBService.acked, List.filterMap_append]
  exact List.append_ne_nil_of_left_ne_nil ha _

theorem Step.stale_iff (h : Step s a s' es) : s.Stale ts a ↔ StaleAnswer ts es := by
  cases h
  case handleGet c p args pb hc hi =>
    have hg : (∃ value, ⟨.ok, value⟩ = pb.get args) ↔ pb.IsPrimary ∧ pb.db.read args.key ≠ "" := by
      simp [eq_comm (b := pb.get args), PBServer.get_eq_ok]
    simp [State.Stale, Request.Stale, StaleAnswer, hc, State.idle_eq_some.mpr hi, hg, and_assoc]
  case refuse pb reply hc hi hr =>
    have hn : reply ≠ ⟨.ok⟩ := by
      rintro rfl
      rcases PBServer.refuse_eq_some hr with h | ⟨h, _⟩ <;> cases h
    simp [State.Stale, Request.Stale, StaleAnswer, hc, State.idle_eq_some.mpr hi, hr, hn.symm]
  case execute p args pb hc hi ha hb =>
    have hx : ⟨.ok⟩ = (pb.execute args).2 ↔ args.op = "Append" ∨ args.op = "Put" :=
      eq_comm.trans PBServer.execute_eq_ok
    have hl : acked (events ts) pb.view.viewnum ≠ [] ∨ Late ts p pb.view args ↔
        acked (events ts) pb.view.viewnum ≠ [] := or_iff_left_of_imp Late.acked
    simpa [State.Stale, Request.Stale, StaleAnswer, hc, State.idle_eq_some.mpr hi, ha, hx, hl] using
      fun _ _ => not_not.mp hb
  case replicate hc hi ha hb =>
    simp [State.Stale, Request.Stale, StaleAnswer, hc, State.idle_eq_some.mpr hi, ha, hb]
  case replicated reply _ hi ho =>
    have hr : reply.err = .ok ↔ ⟨.ok⟩ = reply := by
      cases reply
      simp [eq_comm]
    cases ho <;> simp [State.Stale, StaleAnswer, Server.Stale, hi, hr]
  case handlePing hc | merge hc _ => simp [State.Stale, Request.Stale, StaleAnswer, hc]
  case view hi _ ho | viewForward hi _ ho | forwarded hi ho =>
    cases ho <;> simp [State.Stale, Server.Stale, StaleAnswer, hi]
  case updateView ho | retry ho => cases ho <;> simp [State.Stale, StaleAnswer]
  all_goals simp [State.Stale, StaleAnswer]

-- An update that is executed late is not answered.
theorem NoStaleAnswer.unanswered (h : NoStaleAnswer ts) (r : cluster.Run ts s) (hs : ts = us ++ u :: ws)
    (he : .execute p v args ∈ u.events) (ha : acked (events us) v.viewnum ≠ []) :
    .putAppend c p v args ⟨.ok⟩ ∉ events (u :: ws) := by
  have ⟨a, ha⟩ := List.exists_mem_of_ne_nil _ ha
  obtain ⟨xs, x, ys, rfl, c', q, v', he', hn, hq⟩ := exists_of_mem_acked ha
  have hp := primary_of_execute (hs ▸ r).split_cons.left he
  exact h xs x (ys ++ u :: ws) (by simp [hs]) c' q v' a he' hq ys u ws rfl p v hn hp |>.right args he c

-- Servers give no stale answers exactly if no step of theirs is stale.
theorem noStaleAnswer_iff (r : cluster.Run ts s) :
    NoStaleAnswer ts ↔ ∀ ts₁ t ts₂, ts = ts₁ ++ t :: ts₂ → ¬t.pre.Stale ts₁ t.act where
  mp h ts₁ t ts₂ hs hst := by
    have r₁ := (hs ▸ r).split_cons.left
    rcases Step.of t |>.stale_iff.mp hst with ⟨c, p, w, args, value, he, a, ha, hk, hn⟩ | ⟨c, p, w, args, he, hl⟩
    case inl =>
      have hp := primary_of_get r₁ he
      obtain ⟨us, u, ws, rfl, c', q, v, he', hlt, hq⟩ := exists_of_mem_acked ha
      have hm := h us u (ws ++ t :: ts₂) (by simp [hs]) c' q v a he' hq ws t ts₂ rfl p w hlt hp |>.left c value
      exact hn <| hk ▸ hm (hk ▸ he)
    case inr =>
      rcases hl with ⟨hx, ha⟩ | ⟨us, u, ws, rfl, hx, ha⟩
      case inl => exact h.unanswered r hs hx ha <| Machine.mem_events.mpr ⟨t, by simp, he⟩
      case inr =>
        have hs : ts = us ++ u :: (ws ++ t :: ts₂) := by simp [hs]
        exact h.unanswered r hs hx ha <| Machine.mem_events.mpr ⟨t, by simp, he⟩
  mpr h ts₁ t ts₂ hs c q v args he hv us u ws hu p w hlt hw := by
    have hs : ts = (ts₁ ++ t :: us) ++ u :: ws := by simp [hs, hu]
    have ha : args ∈ acked (events (ts₁ ++ t :: us)) w.viewnum :=
      mem_acked.mpr ⟨c, q, v, Machine.mem_events.mpr ⟨t, by simp, he⟩, hlt, hv⟩
    have not {xs} {x : Transition} {ys} (hs : ts = xs ++ x :: ys) : ¬StaleAnswer xs x.events :=
      (Step.of x).stale_iff.not.mp <| h xs x ys hs
    constructor
    case left =>
      intro c value hg
      by_contra hn
      exact not hs <| .inl ⟨c, p, w, ⟨args.key⟩, value, hg, args, ha, rfl, hn⟩
    case right =>
      intro args' hx c hm
      have ⟨x, hxs, hans⟩ := Machine.mem_events.mp hm
      cases List.mem_cons.mp hxs
      case inl he =>
        subst he
        exact not hs <| .inr ⟨c, p, w, args', hans, .inl ⟨hx, List.ne_nil_of_mem ha⟩⟩
      case inr hm =>
        obtain ⟨ys, zs, rfl⟩ := List.append_of_mem hm
        have hl : Late (ts₁ ++ t :: us ++ u :: ys) p w args' := ⟨_, u, ys, rfl, hx, List.ne_nil_of_mem ha⟩
        have hs : ts = (ts₁ ++ t :: us ++ u :: ys) ++ x :: zs := by simp [hs]
        exact not hs <| .inr ⟨c, p, w, args', hans, .inr hl⟩

-- Server a is primary of view 2 and executes a put. Then the view server misses its pings, and
-- makes its backup b primary of view 3, which executes a second put.
def failover : List Action :=
  [.startServer "a", .startServer "b", .tick "a", .handle 0, .receive "a", .tick "a", .handle 1,
    .receive "a", .tick "b", .handle 2, .receive "b", .tick "a", .handle 3, .receive "a", .handle 4,
    .receive "a", .tick "a", .handle 5, .receive "a", .makeClerk "" 7,
    .putAppend 0 "k" "old" "Put" 1, .handle 6, .clerkReceive 0, .handle 7, .handle 8, .receive "a",
    .clerkReceive 0, .vsTick, .vsTick, .vsTick, .vsTick, .vsTick, .tick "b", .handle 9, .receive "b",
    .makeClerk "" 8, .putAppend 1 "k" "new" "Put" 2, .handle 10, .clerkReceive 1, .handle 11]

-- If a hears of view 3 before it handles another request, it refuses the request.
theorem noStaleAnswer_refuse :
    NoStaleAnswer (cluster.trace .init
      (failover ++ [.tick "a", .handle 12, .receive "a", .get 0 "k", .handle 13])).1 :=
  noStaleAnswer_iff (cluster.path_trace ..) |>.mpr <| List.forall_split_iff.mpr (by decide)

-- Otherwise it answers with the old value.
theorem not_noStaleAnswer_partition :
    ∃ (ts : List Transition) (s : _), cluster.Run ts s ∧
      .putAppend 11 "b" ⟨3, "b", ""⟩ ⟨"k", "new", "Put", "2", "8"⟩ ⟨.ok⟩ ∈ Machine.events ts ∧
      .get 12 "a" ⟨2, "a", "b"⟩ ⟨"k"⟩ ⟨.ok, "old"⟩ ∈ Machine.events ts ∧ ¬NoStaleAnswer ts := by
  refine ⟨_, _, cluster.path_trace .init (failover ++ [.get 0 "k", .handle 12]), by decide, by decide,
    fun h => ?_⟩
  have h := List.forall_split_iff.mp h 39 (by decide) 11 "b" ⟨3, "b", ""⟩ ⟨"k", "new", "Put", "2", "8"⟩
    (by decide) rfl
  have h := List.forall_split_iff.mp h 1 (by decide) "a" ⟨2, "a", "b"⟩ (by decide) rfl |>.left 12 "old"
    (by decide)
  exact absurd h (by decide)

end PBService
