import LabSystems.PBService.Theorems.Pairs

namespace PBService

open ViewService (View ViewServer Consistent)
open Machine (events)

-- The keys that an update touches.
def PutAppendArgs.touched (args : PutAppendArgs) : List String :=
  if args.op = "Append" ∨ args.op = "Put" then [args.record, args.key] else [args.record]

theorem PutAppendArgs.mem_touched {args : PutAppendArgs} : k ∈ args.touched ↔ args.Touches k := by
  simp only [touched, Touches]
  split <;> simp [*]

instance {args : PutAppendArgs} {P : String → Prop} [DecidablePred P] : Decidable (∃ k, args.Touches k ∧ P k) :=
  decidable_of_iff (∃ k ∈ args.touched, P k) <| by simp only [PutAppendArgs.mem_touched]

instance {args : PutAppendArgs} {P : String → Prop} [DecidablePred P] : Decidable (∀ k, args.Touches k → P k) :=
  decidable_of_iff (∀ k ∈ args.touched, P k) <| by simp only [PutAppendArgs.mem_touched]

instance {h : Histories String PutAppendArgs} {l : List PutAppendArgs} : Decidable (h.Holds l) :=
  inferInstanceAs <| Decidable <| ∀ op ∈ l, ∀ k, op.Touches k → op ∈ h k

instance {r : Replicas String String PutAppendArgs} {l : List PutAppendArgs} : DecidablePred (r.Drops p l)
  | .start q     => inferInstanceAs <| Decidable <| q = p ∧ l ≠ []
  | .execute _ _ => isFalse id
  | .send _ _    => isFalse id
  | .merge c q   => inferInstanceAs <| Decidable <|
      q = p ∧ ∃ op ∈ l, ∃ k, op.Touches k ∧ op ∈ r.held p k ∧ r.sent c k ≠ [] ∧ op ∉ r.sent c k

-- The updates that a server has answered `OK`, also before it has been started again.
def Event.answered (p : String) : Event → Option PutAppendArgs
  | putAppend _ q _ args reply => if q = p ∧ reply.err = .ok then some args else none
  | _                          => none

def answered (es : List Event) (p : String) : List PutAppendArgs :=
  es.filterMap (Event.answered p)

-- Those that it had answered `OK` when it last sent a ping with a number.
def pledged (p : String) (n : Nat) : List Event → List PutAppendArgs
  | []      => []
  | e :: es => if .ping p n ∈ es then (Event.answered p e).toList ++ pledged p n es else []

-- The updates that a server has executed since its start, and all that it has answered `OK`.
def kept (es : List Event) (p : String) : List PutAppendArgs :=
  (replicas es).own p ++ answered es p

-- The backup of an acknowledged view holds every update that the primary has answered `OK` before it
-- has pinged with the number of the view.
def Synchronised (ts : List Transition) (s : State) : Prop :=
  s.vs.Acked → ∀ sv, s.servers s.vs.view.backup = some sv →
    sv.pb.db.Reflects ((replicas (events ts)).held s.vs.view.backup) ∧
    ∀ ts₁ t ts₂, ts = ts₁ ++ t :: ts₂ → .ping s.vs.view.primary s.vs.view.viewnum ∈ t.events →
      ((replicas (events ts)).held s.vs.view.backup).Holds (answered (events ts₁) s.vs.view.primary)

namespace State

-- A server names itself primary.
def Leads (s : State) (p : String) : Prop :=
  ∃ sv ∈ s.servers p, sv.pb.view.primary = p

instance {s : State} : Decidable (s.Leads p) :=
  inferInstanceAs <| Decidable <| ∃ _ ∈ _, _

-- The backup is to hold what the primary has kept, if the primary counts on it, and what the primary had answered
-- when it pinged with the number of the view.
def owed (es : List Event) (s : State) : List PutAppendArgs :=
  (if s.Counts s.vs.view.primary s.vs.view.backup then kept es s.vs.view.primary else []) ++
    pledged s.vs.view.primary s.vs.view.viewnum es

-- What a server is to hold, as a primary by its own view and as the backup.
def due (es : List Event) (s : State) (p : String) : List PutAppendArgs :=
  (if s.Leads p then kept es p else []) ++ if p = s.vs.view.backup then s.owed es else []

-- A running server lacks some of what another one has kept.
def Lacks (es : List Event) (s : State) (P B : String) : Prop :=
  (s.servers B).isSome ∧ ¬((replicas es).held B).Holds (kept es P)

instance {s : State} : Decidable (s.Lacks es P B) :=
  inferInstanceAs <| Decidable (_ ∧ _)

end State

def Request.Loses (es : List Event) (s : State) (c : Nat) : Request → Prop
  -- A delayed copy of a server replaces newer data.
  | forward p _   => (replicas es).Drops p (s.due es p) (.merge c p)
  -- A server becomes the backup of a primary that has it as its backup already, and will not send its data.
  | ping args     => ¬s.vs.HasBackup ∧ s.vs.Acked ∧ ¬s.vs.IsPrimary args.me ∧ s.Counts s.vs.view.primary args.me ∧
    s.Lacks es s.vs.view.primary args.me
  | get _ _ | putAppend _ _ => False

instance : DecidablePred (Request.Loses es s c)
  | .forward p _             => inferInstanceAs <| Decidable <| (replicas es).Drops p _ (.merge c p)
  | .ping _                  => inferInstanceAs <| Decidable (_ ∧ _)
  | .get _ _ | .putAppend _ _ => instDecidableFalse

-- The steps by which a primary or its backup comes to lack an update without the data being sent again.
def State.Loses (es : List Event) (s : State) : Action → Prop
  -- The primary takes a failed call of `Forward` for done, which has not been handled.
  | .fail p        => p = s.vs.view.primary ∧ s.Lacks es p s.vs.view.backup ∧
    ∃ sv ∈ s.servers p, sv.pb.view.backup = s.vs.view.backup ∧ ∃ c ∈ sv.lock.forward, (s.calls.pending c).isSome
  -- The backup starts again under its name, by which the primary does not notice it.
  | .startServer p => s.due es p ≠ []
  | .handle c      => ∃ r ∈ s.calls.pending c, r.Loses es s c
  -- A server becomes primary without what it has kept, for it has been started again since. Or its view does not
  -- name it primary yet, so that it will not send its data to the backup.
  | .receive p     => ∃ sv ∈ s.servers p, ∃ v ∈ s.told sv, v.primary = p ∧
    (¬((replicas es).held p).Holds (kept es p) ∨ sv.pb.view.primary ≠ p ∧ p = s.vs.view.primary ∧
      v.backup = s.vs.view.backup ∧ s.Lacks es p v.backup)
  | _              => False

instance : DecidablePred (State.Loses es s)
  | .fail _        => inferInstanceAs <| Decidable <| _ ∧ _ ∧ ∃ _ ∈ _, _ ∧ ∃ _ ∈ _, _
  | .startServer _ => inferInstanceAs <| Decidable <| _ ≠ _
  | .handle _      => inferInstanceAs <| Decidable <| ∃ _ ∈ _, _
  | .receive _     => inferInstanceAs <| Decidable <| ∃ _ ∈ _, ∃ _ ∈ _, _
  | .vsTick | .crash _ | .tick _ | .makeClerk _ _ | .get _ _ | .putAppend _ _ _ _ _ | .clerkReceive _ | .clerkFail _ =>
    instDecidableFalse

section

variable {s s' : State} {es es' : List Event} {p P B : String} {l : List PutAppendArgs} {ts : List Transition} {n : Nat}

theorem answered_append : answered (es ++ es') p = answered es p ++ answered es' p :=
  List.filterMap_append

theorem answered_subset_kept : answered es p ⊆ kept es p :=
  List.subset_append_right ..

theorem pledged_eq_nil (h : .ping p n ∉ es) : pledged p n es = [] := by
  cases es
  case nil       => rfl
  case cons e es => exact if_neg fun hm => h <| List.mem_cons_of_mem _ hm

theorem pledged_singleton : pledged p n [e] = [] :=
  if_neg List.not_mem_nil

theorem pledged_append : pledged p n (es ++ es') =
    if .ping p n ∈ es' then answered es p ++ pledged p n es' else pledged p n es := by
  induction es
  case nil =>
    split
    case isTrue    => simp [answered]
    case isFalse h => exact pledged_eq_nil h
  case cons e es hi =>
    simp only [List.cons_append, pledged, List.mem_append, hi]
    by_cases h : .ping p n ∈ es'
    case neg => simp [h]
    case pos => cases ha : Event.answered p e <;> simp [h, ha, answered]

-- What a server answers in a step it has executed since its start.
theorem Step.answered_own (h : Step s a s' es') (hm : s.Mirrored (replicas es)) :
    answered es' p ⊆ (replicas (es ++ es')).own p := by
  have self (q : String) (args : PutAppendArgs) : args ∈ ((replicas es).step (.execute q args)).own q := by
    simp [Replicas.step]
  have answer {q args reply} (c : Nat) (v : View) (r : Replicas String String PutAppendArgs)
      (hq : reply.err = .ok → args ∈ r.own q) : answered [.putAppend c q v args reply] p ⊆ r.own p := by
    intro op ho
    obtain ⟨_, he, ho⟩ := List.mem_filterMap.mp ho
    cases List.mem_singleton.mp he
    obtain ⟨⟨hp, hok⟩, ho⟩ := Option.ite_none_right_eq_some.mp ho
    cases ho
    exact hp ▸ hq hok
  rw [replicas_append]
  cases h
  case refuse c q _ pb reply _ _ hr =>
    refine answer c pb.view _ fun he => ?_
    rcases PBServer.refuse_eq_some hr with hw | ⟨hw, _⟩ <;> cases hw.symm.trans he
  case execute c q args pb _ _ _ _    => exact answer c pb.view _ fun _ => self q args
  case replicated pb _ client _ _ _ hu _ => exact answer client pb.view _ fun _ => (hm.server _ _ hu).own _ _ _ _ rfl
  all_goals exact List.nil_subset _

theorem Step.up (h : Step s a s' es) (hu : (s'.servers p).isSome) :
    (s.servers p).isSome ∨ a = .startServer p := by
  have ⟨sv, hup⟩ := Option.isSome_iff_exists.mp hu
  clear hu
  have other {q sv' sv''} (hq : s.servers q = some sv') (hu : (s.setServer q sv'').servers p = some sv) :
      (s.servers p).isSome := by
    rcases State.servers_setServer hu with ⟨he, _⟩ | ⟨_, h⟩
    case inl => simp [he, hq]
    case inr => simp [h]
  have same (hu : s.servers p = some sv) : (s.servers p).isSome := by simp [hu]
  cases h
  case start q _ _ =>
    rcases State.servers_setServer hup with ⟨he, _⟩ | ⟨_, h⟩
    case inl => exact .inr <| he ▸ rfl
    case inr => exact .inl <| same h
  case crash hq | tick hq | execute hq _ _ | replicate hq _ _ | merge hq | view hq _ _ | viewForward hq _ _ |
    forwarded hq _ | replicated hq _ => exact .inl <| other hq hup
  case get | putAppend =>
    simp only [State.beginOp] at hup
    split at hup <;> exact .inl <| same hup
  all_goals exact .inl <| same hup

-- A server that is started does not run.
theorem Step.down (h : Step s a s' es) (hs : .start p ∈ es) : a = .startServer p ∧ s.servers p = none := by
  cases h <;> simp at hs
  case start hd =>
    subst hs
    exact ⟨rfl, hd⟩

-- A server that counts on a backup has executed no update in the step.
theorem Step.quiet (h : Step s a s' es) (hb : B ≠ "") (hk : s'.Counts P B) :
    .start P ∉ es ∧ ∀ v args, .execute P v args ∉ es := by
  have ⟨sv, hup, hp, hbk, hf⟩ := hk
  have self {sv' : Option Server} (hup : (s.setServer P sv').servers P = some sv) : sv' = some sv :=
    State.servers_setServer hup |>.resolve_right (fun h => h.left rfl) |>.right
  cases h
  case start hn _ =>
    refine ⟨fun he => ?_, by simp⟩
    cases List.mem_singleton.mp he
    cases self hup
    exact hn hp.symm
  case execute ha =>
    refine ⟨by simp, fun v args he => ?_⟩
    cases (List.mem_cons.mp he).resolve_right (by simp)
    cases self hup
    exact ha fun hn => hb <| hbk.symm.trans <| (congrArg View.backup PBServer.execute_view).trans hn
  case replicate =>
    refine ⟨by simp, fun v args he => ?_⟩
    cases (List.mem_cons.mp he).resolve_right (by simp)
    cases self hup
    cases (hf _ rfl).symm.trans Calls.pending_send_length
  all_goals simp

theorem Step.own_of_quiet (h : Step s a s' es') (hq : .start p ∉ es' ∧ ∀ v args, .execute p v args ∉ es') :
    (replicas (es ++ es')).own p = (replicas es).own p := by
  rw [replicas_append]
  have ⟨hs, he⟩ := hq
  cases h
  case start q _ _ =>
    have hne : p ≠ q := by
      rintro rfl
      exact hs <| List.mem_singleton.mpr rfl
    exact Function.update_of_ne hne ..
  case execute q args pb _ _ _ _ | replicate q args pb _ _ _ _ =>
    have hne : p ≠ q := by
      rintro rfl
      exact he pb.view args <| List.mem_cons_self ..
    exact Function.update_of_ne hne ..
  all_goals rfl

-- So it has not kept more than before.
theorem Step.kept_of_quiet (h : Step s a s' es') (hm : s.Mirrored (replicas es))
    (hq : .start p ∉ es' ∧ ∀ v args, .execute p v args ∉ es') : kept (es ++ es') p ⊆ kept es p := by
  have ho : (replicas (es ++ es')).own p = (replicas es).own p := h.own_of_quiet hq
  have ha := ho ▸ h.answered_own (p := p) hm
  rw [kept, ho, answered_append]
  exact List.append_subset.mpr ⟨List.subset_append_left ..,
    List.append_subset.mpr ⟨List.subset_append_right .., List.subset_append_of_subset_left _ ha⟩⟩

theorem Step.holds (h : Step s a s' es') (hl : ((replicas es).held p).Holds l) (hs : .start p ∉ es')
    (hm : ∀ c args, .merge c p args ∈ es' → ¬(replicas es).Drops p l (.merge c p)) :
    ((replicas (es ++ es')).held p).Holds l := by
  rw [replicas_append]
  cases h
  case start q _ _ =>
    refine Replicas.holds_step (a := .start q) hl fun hd => hs ?_
    rw [hd.left]
    exact List.mem_singleton.mpr rfl
  case execute q args _ _ _ _ _ => exact Replicas.holds_step (a := .execute q args) hl id
  case replicate q args _ _ _ _ _ =>
    exact Replicas.holds_step (a := .send _ q) (Replicas.holds_step (a := .execute q args) hl id) id
  case viewForward q _ _ _ _ _ _ => exact Replicas.holds_step (a := .send _ q) hl id
  case merge c q args _ _ _ =>
    refine Replicas.holds_step (a := .merge c q) hl fun hd => ?_
    have hq := hd.left
    subst hq
    exact hm c args (List.mem_singleton.mpr rfl) hd
  all_goals exact hl

-- Servers hold their own updates if no copy replaces newer data.
theorem Step.holds_own (h : Step s a s' es') (hl : ((replicas es).held p).Holds ((replicas es).own p))
    (hm : ∀ c args, .merge c p args ∈ es' → ¬(replicas es).Drops p ((replicas es).own p) (.merge c p)) :
    ((replicas (es ++ es')).held p).Holds ((replicas (es ++ es')).own p) := by
  rw [replicas_append]
  cases h
  case start q _ _ => exact Replicas.holds_own_step (a := .start q) hl fun _ he => by cases he
  case execute q args _ _ _ _ _ => exact Replicas.holds_own_step (a := .execute q args) hl fun _ he => by cases he
  case replicate q args _ _ _ _ _ =>
    have hl := Replicas.holds_own_step (a := .execute q args) hl fun _ he => by cases he
    exact Replicas.holds_own_step (a := .send _ q) hl fun _ he => by cases he
  case viewForward q _ _ _ _ _ _ => exact Replicas.holds_own_step (a := .send _ q) hl fun _ he => by cases he
  case merge c q args _ _ _ =>
    refine Replicas.holds_own_step (a := .merge c q) hl fun c' he => ?_
    cases he
    exact hm c args <| List.mem_singleton.mpr rfl
  all_goals exact hl

theorem Step.holds_kept (h : Step s a s' es') (hm : s.Mirrored (replicas es))
    (hk : ((replicas es).held p).Holds (kept es p)) (hs : .start p ∉ es')
    (hd : ∀ c args, .merge c p args ∈ es' → ¬(replicas es).Drops p (kept es p) (.merge c p)) :
    ((replicas (es ++ es')).held p).Holds (kept (es ++ es') p) := by
  have ho := h.holds_own (hk.mono <| List.subset_append_left ..) fun c args hm hd' =>
    hd c args hm <| hd'.mono <| List.subset_append_left ..
  have ha := h.holds hk hs hd |>.mono answered_subset_kept
  rw [kept, answered_append]
  exact ho.append <| ha.append <| ho.mono <| h.answered_own hm

theorem Step.of_ping (h : Step s a s' es) (hp : .ping p n ∈ es) :
    ∃ pb : PBServer, s.servers p = some ⟨pb, .free⟩ ∧ pb.view.viewnum = n ∧ a = .tick p ∧ s'.vs = s.vs ∧
      es = [.ping p n] := by
  cases h <;> simp at hp
  case tick hi =>
    have ⟨hp, hn⟩ := hp
    subst hp hn
    exact ⟨_, hi, rfl, rfl, rfl, rfl⟩

theorem Step.of_merge_pending (h : Step s a s' es') (hm : .merge c p args ∈ es') :
    a = .handle c ∧ s.calls.pending c = some (.forward p args) := by
  cases h <;> simp at hm
  case merge hc _ =>
    have ⟨hc', hp, ha⟩ := hm
    subst hc' hp ha
    exact ⟨rfl, hc⟩

theorem Step.not_drops (h : Step s a s' es') (hl : ¬s.Loses es a) (hm : .merge c p args ∈ es') :
    ¬(replicas es).Drops p (s.due es p) (.merge c p) := by
  obtain ⟨rfl, hc⟩ := h.of_merge_pending hm
  exact fun hd => hl ⟨_, hc, hd⟩

-- The empty view names no server primary.
theorem State.Outcome.told (ho : s.Outcome c (.receive p) (.fail p) a result)
    (hs : s.servers p = some ⟨pb, .ping c⟩) (hn : s.servers "" = none)
    (hv : (Reply.view ⟨0, "", ""⟩ result).primary = p) :
    a = .receive p ∧ s.told ⟨pb, .ping c⟩ = some (Reply.view ⟨0, "", ""⟩ result) := by
  have hor := Reply.view_eq_or ⟨0, "", ""⟩ result
  generalize Reply.view ⟨0, "", ""⟩ result = v at hor hv ⊢
  rcases hor with hd | hr
  case inl =>
    subst hd hv
    cases hn.symm.trans hs
  case inr =>
    cases ho <;> cases hr
    case received hreply => exact ⟨rfl, by simp [State.told, hreply]⟩

-- A server has named itself primary before, or the view server has told it.
theorem Step.leads (h : Step s a s' es) (hn : s.servers "" = none) (hp : s'.Leads p) :
    s.Leads p ∨ a = .receive p ∧ ∃ sv ∈ s.servers p, ∃ v ∈ s.told sv, v.primary = p := by
  have ⟨sv, hup, hpr⟩ := hp
  have same (hup : s.servers p = some sv) : s.Leads p := ⟨sv, hup, hpr⟩
  have keep {q sv' sv''} (hq : s.servers q = some sv') (hup : (s.setServer q sv'').servers p = some sv)
      (hv : ∀ sv₁, sv'' = some sv₁ → sv₁.pb.view = sv'.pb.view) : s.Leads p := by
    rcases State.servers_setServer hup with ⟨he, hsv⟩ | ⟨_, h⟩
    case inr => exact same h
    case inl =>
      subst he
      exact ⟨sv', hq, (congrArg View.primary <| hv sv hsv).symm.trans hpr⟩
  have learn {q pb c result lock} (hq : s.servers q = some ⟨pb, .ping c⟩)
      (ho : s.Outcome c (.receive q) (.fail q) a result)
      (hup : (s.setServer q (some ⟨{ pb with view := Reply.view ⟨0, "", ""⟩ result }, lock⟩)).servers p = some sv) :
      s.Leads p ∨ a = .receive p ∧ ∃ sv ∈ s.servers p, ∃ v ∈ s.told sv, v.primary = p := by
    rcases State.servers_setServer hup with ⟨he, hsv⟩ | ⟨_, h⟩
    case inr => exact .inl <| same h
    case inl =>
      subst he
      cases hsv
      have ⟨ha, ht⟩ := ho.told hq hn hpr
      exact .inr ⟨ha, _, hq, _, ht, hpr⟩
  cases h
  case start q hq _ =>
    rcases State.servers_setServer hup with ⟨he, hsv⟩ | ⟨_, h⟩
    case inr => exact .inl <| same h
    case inl =>
      cases hsv
      exact absurd (he ▸ hpr.symm) hq
  case crash hq                          => exact .inl <| keep hq hup nofun
  case tick hq | merge hq | forwarded hq _ | replicated hq _ =>
    exact .inl <| keep hq hup fun _ he => Option.some.inj he ▸ rfl
  case execute hq _ _ | replicate hq _ _ =>
    exact .inl <| keep hq hup fun _ he => Option.some.inj he ▸ PBServer.execute_view
  case view hq _ ho        => exact learn hq ho hup
  case viewForward hq _ ho => exact learn hq ho hup
  case get | putAppend =>
    simp only [State.beginOp] at hup
    split at hup <;> exact .inl <| same hup
  all_goals exact .inl <| same hup

variable {t : Transition}

-- The view server takes a server as the backup of its primary in reply to a ping in the name of the server.
theorem Transition.members (r : cluster.Run ts t.pre) (hb : t.post.vs.view.backup ≠ "") :
    t.post.vs.view.primary = t.pre.vs.view.primary ∧ (t.post.vs.view.backup = t.pre.vs.view.backup ∨
      ∃ c args, t.act = .handle c ∧ t.pre.calls.pending c = some (.ping args) ∧ t.post.vs.view.backup = args.me ∧
        ¬t.pre.vs.IsPrimary args.me ∧ ¬t.pre.vs.HasBackup ∧ t.pre.vs.Acked) := by
  have hbeg := begun_vs_of_run r
  rcases Step.of t |>.vsAction with ⟨_, hv⟩ | ⟨_, hv⟩ | ⟨args, ha, hv⟩
  case inl => simp [hv]
  case inr.inl =>
    have ⟨hp, hq⟩ := ViewService.Step.backup (hv ▸ t.pre.vs.tick_step) hbeg hb
    exact ⟨hp, hq.imp_right fun ⟨_, he, _⟩ => by cases he⟩
  case inr.inr =>
    have ⟨hp, hq⟩ := ViewService.Step.backup (hv ▸ t.pre.vs.ping_step args) hbeg hb
    refine ⟨hp, hq.imp_right fun ⟨_, he, hj⟩ => ?_⟩
    cases he
    have ⟨c, ha, hc⟩ := State.vsAction_eq_ping ha
    exact ⟨c, args, ha, hc, hj⟩

theorem Transition.view_of_pinged (r : cluster.Run ts t.pre) (hb : t.post.vs.view.backup ≠ "")
    (hp : .ping t.post.vs.view.primary t.post.vs.view.viewnum ∈ events ts) : t.post.vs.view = t.pre.vs.view := by
  have hl := learned_of_run r
  have hc := consistent_of_run <| r.snoc t
  have hz : t.post.vs.view.viewnum ≠ 0 := fun hz => hb <| by rw [begun_vs_of_run (r.snoc t) hz]
  have ⟨v, hv, hvn⟩ := hl.pinged _ _ hp hz
  have hle := (consistent_of_run r).le _ <| hl.viewed _ _ hv
  have hm : t.pre.vs.view ∈ views (ts ++ [t]) := mem_views_snoc.mpr <| .inl <| view_mem_views r
  have hge := hc.le _ hm
  exact hc.unique _ (view_mem_views <| r.snoc t) _ hm <| by omega

-- All servers that run hold what they are to hold.
def State.Synced (es : List Event) (s : State) : Prop :=
  ∀ p, (s.servers p).isSome → ((replicas es).held p).Holds (s.due es p)

theorem State.kept_subset_due (h : s.Leads p) : kept es p ⊆ s.due es p := by
  rw [due, if_pos h]
  exact List.subset_append_left ..

theorem State.owed_subset_due : s.owed es ⊆ s.due es s.vs.view.backup := by
  rw [due, if_pos rfl]
  exact List.subset_append_right ..

theorem State.kept_subset_owed (h : s.Counts s.vs.view.primary s.vs.view.backup) :
    kept es s.vs.view.primary ⊆ s.owed es := by
  rw [owed, if_pos h]
  exact List.subset_append_left ..

namespace Transition

-- What a server is to hold it keeps.
theorem keeps (hl : ¬t.pre.Loses (events ts) t.act) (hi : t.pre.Synced (events ts)) (hs : l ⊆ t.pre.due (events ts) p)
    (hb : (t.post.servers p).isSome) : ((replicas (events ts ++ t.events)).held p).Holds l := by
  have h := Step.of t
  rcases h.up hb with hup | ha
  case inl =>
    refine h.holds (hi p hup |>.mono hs) (fun he => ?_) fun c args hm hd => h.not_drops hl hm <| hd.mono hs
    simp [(h.down he).right] at hup
  case inr =>
    have hd : t.pre.due (events ts) p = [] := not_not.mp fun hn => hl <| ha ▸ hn
    exact List.subset_nil.mp (hd ▸ hs) ▸ .nil

theorem synced_leads (r : cluster.Run ts t.pre) (hl : ¬t.pre.Loses (events ts) t.act) (hi : t.pre.Synced (events ts))
    (hp : t.post.Leads p) : ((replicas (events ts ++ t.events)).held p).Holds (kept (events ts ++ t.events) p) := by
  have h := Step.of t
  have hm := mirrored_of_run r
  rcases h.leads (servers_empty_of_run r) hp with hpre | ⟨ha, sv, hup, v, hv, hvp⟩
  case inl =>
    have ⟨_, hup, _⟩ := hpre
    have hs : kept (events ts) p ⊆ t.pre.due (events ts) p := State.kept_subset_due hpre
    refine h.holds_kept hm (hi p (Option.isSome_iff_exists.mpr ⟨_, hup⟩) |>.mono hs) (fun he => ?_) fun c args hm hd =>
      h.not_drops hl hm <| hd.mono hs
    cases (h.down he).right.symm.trans hup
  case inr =>
    have hk := not_not.mp fun hk => hl <| ha ▸ ⟨sv, hup, v, hv, hvp, .inl hk⟩
    refine h.holds_kept hm hk (fun he => ?_) fun c args hm _ => ?_
    case refine_1 => cases ha.symm.trans (h.down he).left
    case refine_2 => cases ha.symm.trans (h.of_merge_pending hm).left

theorem vs_of_quiet (t : Transition) (ha : t.pre.vsAction t.act = none) : t.post.vs = t.pre.vs := by
  rcases Step.of t |>.vsAction with ⟨_, hv⟩ | ⟨he, _⟩ | ⟨_, he, _⟩
  case inl => exact hv
  all_goals cases ha.symm.trans he

-- The primary comes to count on its backup only if the backup holds what the primary has kept.
theorem synced_counts (r : cluster.Run ts t.pre) (hl : ¬t.pre.Loses (events ts) t.act) (hi : t.pre.Synced (events ts))
    (hb : (t.post.servers t.post.vs.view.backup).isSome)
    (hk : t.post.Counts t.post.vs.view.primary t.post.vs.view.backup) :
    ((replicas (events ts ++ t.events)).held t.post.vs.view.backup).Holds
      (kept (events ts ++ t.events) t.post.vs.view.primary) := by
  have h := Step.of t
  have hm := mirrored_of_run r
  have hne : t.post.vs.view.backup ≠ "" := fun he => by
    simp [he, servers_empty_of_run <| r.snoc t] at hb
  suffices hs : ((replicas (events ts ++ t.events)).held t.post.vs.view.backup).Holds
      (kept (events ts) t.post.vs.view.primary) from hs.mono <| h.kept_of_quiet hm <| h.quiet hne hk
  cases h.counting (sound_of_run r) hne hk
  case kept hc =>
    have ⟨hp, hj⟩ := members r hne
    rcases hj with hB | ⟨c, args, ha, hc', hB, hme, hno, hack⟩
    case inl =>
      rw [hp, hB] at hc ⊢
      rw [hB] at hb
      exact keeps hl hi (List.Subset.trans (State.kept_subset_owed hc) State.owed_subset_due) hb
    case inr =>
      rw [hp, hB] at hc ⊢
      have hup := (h.up <| hB ▸ hb).resolve_right <| by simp [ha]
      have hh := not_not.mp fun hh => hl <| ha ▸ ⟨_, hc', hno, hack, hme, hc, hup, hh⟩
      refine h.holds hh (fun he => ?_) fun c args hm _ => ?_
      case refine_1 => cases ha.symm.trans (h.down he).left
      case refine_2 =>
        have ⟨ha', hf⟩ := h.of_merge_pending hm
        cases ha.symm.trans ha'
        cases hc'.symm.trans hf
  case failed sv c hup hp hbk hw hpend ha hq =>
    have hv := t.vs_of_quiet <| ha ▸ rfl
    have hupB := (h.up hb).resolve_right <| by simp [ha]
    rw [replicas_append, hq]
    rw [hv] at hup hbk hupB ha ⊢
    exact not_not.mp fun hh => hl <| ha ▸ ⟨rfl, ⟨hupB, hh⟩, sv, hup, hbk, c, hw, hpend⟩
  case merged sv c hup hp hw hes =>
    have hsent := (hm.server _ _ hup).sent c hw
    have hheld : (replicas (events ts ++ t.events)).held t.post.vs.view.backup =
        ((replicas (events ts)).held t.post.vs.view.backup).merge
          ((replicas (events ts)).held t.post.vs.view.primary) := by
      rw [replicas_append, hes, ← hsent]
      exact Function.update_self ..
    have hs : kept (events ts) t.post.vs.view.primary ⊆ t.pre.due (events ts) t.post.vs.view.primary :=
      State.kept_subset_due ⟨sv, hup, hp⟩
    exact hheld ▸ (hi _ (by simp [hup]) |>.mono hs).merge
  case entered sv v hup ho htold hp hbk ha hq =>
    have hv := t.vs_of_quiet <| ha ▸ rfl
    have hupB := (h.up hb).resolve_right <| by simp [ha]
    rw [replicas_append, hq]
    rw [hv] at hup ho hp hbk hupB ha ⊢
    refine not_not.mp fun hh => hl <| ha ▸ ⟨sv, hup, v, htold, hp, .inr ⟨ho, rfl, hbk, ?_⟩⟩
    exact hbk ▸ ⟨hupB, hh⟩

-- The primary pings with the number of the view while it counts on the backup.
theorem synced_pledged (r : cluster.Run ts t.pre) (hl : ¬t.pre.Loses (events ts) t.act) (hi : t.pre.Synced (events ts))
    (hb : (t.post.servers t.post.vs.view.backup).isSome) :
    ((replicas (events ts ++ t.events)).held t.post.vs.view.backup).Holds
      (pledged t.post.vs.view.primary t.post.vs.view.viewnum (events ts ++ t.events)) := by
  have h := Step.of t
  have hne : t.post.vs.view.backup ≠ "" := fun he => by
    simp [he, servers_empty_of_run <| r.snoc t] at hb
  rw [pledged_append]
  split
  case isTrue hp =>
    have ⟨pb, hup, hvn, ha, hv, hes⟩ := h.of_ping hp
    rw [hes, pledged_singleton, List.append_nil, ← hes]
    rw [hv] at hup hvn hb ⊢
    -- The primary has the current view, in which it does not wait for the backup.
    have hheld := (learned_of_run r).all.server _ _ hup |>.held
    have he := (consistent_of_run r).unique _ hheld _ (view_mem_views r) hvn
    have hc : t.pre.Counts t.pre.vs.view.primary t.pre.vs.view.backup :=
      ⟨_, hup, congrArg View.primary he, congrArg View.backup he, nofun⟩
    exact keeps hl hi (List.Subset.trans answered_subset_kept <|
      List.Subset.trans (State.kept_subset_owed hc) State.owed_subset_due) hb
  case isFalse =>
    by_cases hp : .ping t.post.vs.view.primary t.post.vs.view.viewnum ∈ events ts
    case neg => exact pledged_eq_nil hp ▸ .nil
    case pos =>
      have hv := view_of_pinged r hne hp
      rw [hv] at hb ⊢
      exact keeps hl hi (List.Subset.trans (List.subset_append_right ..) State.owed_subset_due) hb

theorem synced (r : cluster.Run ts t.pre) (hl : ¬t.pre.Loses (events ts) t.act) (hi : t.pre.Synced (events ts)) :
    t.post.Synced (events ts ++ t.events) := by
  intro p hb
  refine .append ?leads ?owed
  case leads =>
    split
    case isTrue hp => exact synced_leads r hl hi hp
    case isFalse   => exact .nil
  case owed =>
    split
    case isFalse => exact .nil
    case isTrue hp =>
      subst hp
      refine .append ?_ <| synced_pledged r hl hi hb
      split
      case isTrue hk => exact synced_counts r hl hi hb hk
      case isFalse   => exact .nil

end Transition

theorem synced_of_run (r : cluster.Run ts s)
    (hl : ∀ ts₁ t ts₂, ts = ts₁ ++ t :: ts₂ → ¬t.pre.Loses (events ts₁) t.act) : s.Synced (events ts) := by
  induction r
  case nil => exact nofun
  case snoc ts t r hi =>
    have hi := hi fun ts₁ u ts₂ hs => hl ts₁ u (ts₂ ++ [t]) <| by simp [hs]
    rw [Machine.events_append, Machine.events_singleton]
    exact Transition.synced r (hl ts t [] rfl) hi

theorem answered_subset_pledged {ts₁ ts₂ : List Transition} (hp : .ping p n ∈ t.events) :
    answered (events ts₁) p ⊆ pledged p n (events (ts₁ ++ t :: ts₂)) := by
  have ht : events (ts₁ ++ t :: ts₂) = events ts₁ ++ events (t :: ts₂) := Machine.events_append
  rw [ht, pledged_append, if_pos <| Machine.mem_events.mpr ⟨t, by simp, hp⟩]
  exact List.subset_append_left ..

end

-- Server a forwards its data to its new backup b, and takes the failure of the call for success.
def lostForward : List Action :=
  [.startServer "a", .startServer "b", .tick "a", .handle 0, .receive "a", .makeClerk "" 7,
    .putAppend 0 "k" "x" "Put" 1, .handle 1, .clerkReceive 0, .handle 2, .tick "a", .handle 3, .receive "a", .tick "b",
    .handle 4, .receive "b", .tick "a", .handle 5, .receive "a", .fail "a", .tick "a", .handle 7]

-- If b handles the request before a acknowledges view 2, it has the data. When a is started again, it becomes the
-- backup of b, and gets the data from it.
def forwarded : List Action :=
  lostForward.take 19 ++ [.handle 6, .receive "a", .tick "a", .handle 7, .receive "a", .crash "a", .startServer "a",
    .tick "a", .handle 8, .receive "a", .tick "b", .handle 9, .receive "b", .tick "b", .handle 10, .receive "b",
    .tick "a", .handle 11, .receive "a", .tick "b", .handle 12, .receive "b", .handle 13, .receive "b", .tick "b",
    .handle 14]

end PBService
