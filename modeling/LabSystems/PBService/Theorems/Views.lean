import LabSystems.PBService.Theorems.Invariant
import LabSystems.ViewService.Theorems.History

namespace PBService

open ViewService (View ViewServer Consistent)

-- The views that the view server has held so far.
def views (ts : List Transition) : List View :=
  ⟨0, "", ""⟩ :: ts.map (·.post.vs.view)

@[simp]
theorem mem_views_snoc {ts : List Transition} {t : Transition} :
    v ∈ views (ts ++ [t]) ↔ v ∈ views ts ∨ v = t.post.vs.view := by
  simp [views, or_assoc, eq_comm]

-- A step of the system is at most one step of the view server.
theorem Step.vs (h : Step s a s' es) :
    s'.vs = s.vs ∨ ∃ b vs, ViewService.server.step s.vs b = some (s'.vs, vs) := by
  cases h
  case vsTick => exact .inr ⟨.tick, _, rfl⟩
  case handlePing => exact .inr ⟨.ping _, _, rfl⟩
  case get | putAppend =>
    simp only [State.beginOp]
    split <;> exact .inl rfl
  all_goals exact .inl rfl

theorem vs_of_run (r : cluster.Run ts s) : ∃ us, ViewService.server.Run us s.vs ∧
    ∀ v, v ∈ ViewService.views us ↔ v ∈ views ts := by
  induction r
  case nil => exact ⟨[], .nil, fun _ => Iff.rfl⟩
  case snoc t _ hi =>
    have ⟨us, r, hm⟩ := hi
    cases Step.of t |>.vs
    case inl h =>
      refine ⟨us, h ▸ r, fun v => ?_⟩
      rw [mem_views_snoc, ← hm, h, or_iff_left_of_imp]
      exact fun he => he ▸ ViewService.view_mem_views r
    case inr h =>
      have ⟨b, vs, h⟩ := h
      refine ⟨us ++ [⟨_, b, vs, _, h⟩], .snoc ⟨_, b, vs, _, h⟩ r, fun v => ?_⟩
      rw [ViewService.mem_views_snoc, hm, mem_views_snoc]

theorem view_mem_views (r : cluster.Run ts s) : s.vs.view ∈ views ts :=
  have ⟨_, r, hm⟩ := vs_of_run r
  hm _ |>.mp <| ViewService.view_mem_views r

theorem consistent_of_run (r : cluster.Run ts s) : Consistent (views ts) s.vs.view := by
  have ⟨_, r, hm⟩ := vs_of_run r
  have h := ViewService.consistent_of_run r
  exact ⟨fun u hu => h.le u <| hm u |>.mpr hu,
    fun u hu w hw => h.unique u (hm u |>.mpr hu) w (hm w |>.mpr hw),
    fun u hu w hw => h.next u (hm u |>.mpr hu) w (hm w |>.mpr hw)⟩

-- The views of a server only get newer, apart from the empty view that a failed ping leaves behind.
structure Server.Learned (vs : List View) (es : List Event) (cs : Calls Request (Option Reply))
    (p : String) (sv : Server) : Prop where
  held   : sv.pb.view ∈ vs
  event  : sv.pb.view.viewnum ≠ 0 → .view p sv.pb.view ∈ es
  last   : sv.pb.view.viewnum ≠ 0 → ∀ v, .view p v ∈ es → v.viewnum ≤ sv.pb.view.viewnum
  coming : ∀ c v, sv.lock = .ping c → cs.reply c = some (some (.ping v)) →
    ∀ u, .view p u ∈ es → u.viewnum ≤ v.viewnum

structure State.Learned (vs : List View) (es : List Event) (s : State) : Prop where
  all    : s.All (fun p sv => sv.Learned vs es s.calls p) (fun _ => True) (fun _ => True)
    (fun _ call => ∀ v, call.reply = some (some (.ping v)) → v ∈ vs)
  viewed : ∀ p v, .view p v ∈ es → v ∈ vs
  pinged : ∀ p k, .ping p k ∈ es → k ≠ 0 → ∃ v, .view p v ∈ es ∧ v.viewnum = k

theorem Reply.view_eq_or (d : View) (result : Option Reply) :
    Reply.view d result = d ∨ result = some (.ping (Reply.view d result)) := by
  unfold Reply.view
  split
  case h_1 => exact .inr rfl
  case h_2 => exact .inl rfl

section

variable {s s' : State} {vs vs' : List View} {es es' : List Event} {p : String} {pb : PBServer}
  {lock : Lock} {r : Request} {rep : Option Reply} {cs : Calls Request (Option Reply)} {sv : Server}

namespace Server.Learned

theorem send (h : sv.Learned vs es cs p) : sv.Learned vs es (cs.send r) p :=
  { h with coming := fun c v hl hr => h.coming c v hl <| Calls.reply_of_send hr }

theorem answer (h : sv.Learned vs es cs p)
    (hr : ∀ v, rep = some (.ping v) → ∀ u, .view p u ∈ es → u.viewnum ≤ v.viewnum) :
    sv.Learned vs es (cs.answer c rep) p :=
  { h with
    coming := fun c v hl hc => by
      cases Calls.reply_of_answer hc
      case inl hc => exact h.coming c v hl hc
      case inr hc => exact hr v hc.right.symm
  }

-- The view of a server that does not wait for the view server.
theorem keep (h : sv.Learned vs es cs p) (hv : pb.view = sv.pb.view) (hl : ∀ c, lock ≠ .ping c) :
    Server.Learned vs es cs p ⟨pb, lock⟩ where
  held             := hv ▸ h.held
  event            := hv ▸ h.event
  last             := hv ▸ h.last
  coming c _ he    := absurd he <| hl c

theorem mono (h : sv.Learned vs es cs p) (hv : ∀ v ∈ vs, v ∈ vs') (he : ∀ e ∈ es, e ∈ es')
    (hw : ∀ v, .view p v ∈ es' → .view p v ∈ es) : sv.Learned vs' es' cs p where
  held               := hv _ h.held
  event hz           := he _ <| h.event hz
  last hz v hm       := h.last hz v <| hw v hm
  coming c v hl hr u := fun hm => h.coming c v hl hr u <| hw u hm

end Server.Learned

namespace State.Learned

theorem mono (h : s.Learned vs es) (hv : ∀ v ∈ vs, v ∈ vs') (he : ∀ e ∈ es, e ∈ es')
    (hw : ∀ p v, .view p v ∈ es' → .view p v ∈ es) (hp : ∀ p k, .ping p k ∈ es' → .ping p k ∈ es) :
    s.Learned vs' es' where
  all := State.All.mono h.all (fun p _ _ h => h.mono hv he (hw p)) (fun _ _ _ => id)
    (fun _ _ _ h v hr => hv v <| h v hr)
  viewed p v hm := hv v <| h.viewed p v <| hw p v hm
  pinged p k hm hz :=
    have ⟨v, hm, hk⟩ := h.pinged p k (hp p k hm) hz
    ⟨v, he _ hm, hk⟩

theorem send (h : s.Learned vs es) : (s.send r).Learned vs es :=
  { h with
    all := State.All.mono h.all (fun _ _ _ => .send) (fun _ _ _ => id) (fun _ _ _ => id)
      |>.send fun _ hr => by cases hr
  }

theorem answer (h : s.Learned vs es) (hr : ∀ v, rep = some (.ping v) → v ∈ vs ∧
    ∀ p u, .view p u ∈ es → u.viewnum ≤ v.viewnum) : (s.answer c rep).Learned vs es :=
  { h with
    all := State.All.mono h.all (fun p _ _ h => h.answer fun v he => (hr v he).right p)
      (fun _ _ _ => id) (fun _ _ _ => id) |>.answer fun _ _ _ v he => hr v (Option.some.inj he) |>.left
  }

theorem setServer (sv : Server) (h : s.Learned vs es) (hl : Server.Learned vs es s.calls p sv) :
    (s.setServer p (some sv)).Learned vs es :=
  { h with all := State.All.setServer h.all hl }

theorem setVs (h : s.Learned vs es) : State.Learned vs es { s with vs := v } :=
  { h with all := State.All.vs h.all }

theorem beginOp (h : s.Learned vs es) : (s.beginOp i ck op).Learned vs es := by
  have h {th} : (s.spawn th).Learned vs es := { h with all := State.All.spawn h.all trivial }
  simp only [State.beginOp]
  split <;> exact h.send

theorem setClerk (h : s.Learned vs es) : (s.setView i v).Learned vs es :=
  { h with all := State.All.setView h.all fun _ => id }

theorem setThread (wait : Wait) (h : s.Learned vs es) : (s.setThread t th wait).Learned vs es :=
  { h with all := State.All.setThread wait h.all trivial }

-- A server pings with the number of a view that it has gone on to.
theorem ping (h : s.Learned vs es) (hi : s.servers p = some ⟨pb, lock⟩) :
    s.Learned vs (es ++ [.ping p pb.view.viewnum]) where
  all := State.All.mono h.all
    (fun _ _ _ h => h.mono (fun _ => id) (fun _ => List.mem_append_left _) (by simp))
    (fun _ _ _ => id) (fun _ _ _ => id)
  viewed q v hm := h.viewed q v <| by simpa using hm
  pinged q k hm hk := by
    simp only [List.mem_append, List.mem_singleton, Event.ping.injEq, reduceCtorEq, or_false] at hm ⊢
    cases hm
    case inl hm => exact h.pinged q k hm hk
    case inr hm =>
      have ⟨hq, he⟩ := hm
      subst hq he
      exact ⟨_, (h.all.server _ _ hi).event hk, rfl⟩

-- A server goes on to the view that the view server has sent, or to the empty view.
theorem setView (lock : Lock) (h : s.Learned vs es) (hz : ⟨0, "", ""⟩ ∈ vs)
    (hi : s.servers p = some ⟨pb, .ping c⟩) (ho : s.Outcome c (.receive p) (.fail p) a result)
    (hl : ∀ c, lock ≠ .ping c) :
    (s.setServer p (some ⟨{ pb with view := Reply.view ⟨0, "", ""⟩ result }, lock⟩)).Learned vs
      (es ++ [.view p (Reply.view ⟨0, "", ""⟩ result)]) := by
  generalize hw : Reply.view ⟨0, "", ""⟩ result = w
  have hm : w = ⟨0, "", ""⟩ ∨ s.calls.reply c = some (some (.ping w)) := by
    cases hw ▸ Reply.view_eq_or ⟨0, "", ""⟩ result
    case inl hd => exact .inl hd
    case inr hr =>
      cases ho
      case received hc => exact .inr <| Option.some.inj hr ▸ hc
      case failed      => cases hr
  have hw : w ∈ vs := hm.elim (fun he => he ▸ hz) fun hc =>
    have ⟨_, hc⟩ := Calls.reply_eq_some.mp hc
    h.all.call _ _ hc w rfl
  constructor
  case all =>
    refine State.All.update p _ h.all ?other ?self
    case other =>
      intro q sv _ hn hq
      exact hq.mono (fun _ => id) (fun _ => List.mem_append_left _) fun v hm => by simpa [hn] using hm
    case self =>
      intro sv he
      cases he
      refine ⟨hw, fun _ => by simp, fun hne u hu => ?_, fun c _ he => absurd he <| hl c⟩
      cases List.mem_append.mp hu
      case inl hu =>
        have hc := hm.resolve_left fun he => hne <| he ▸ rfl
        exact (h.all.server _ _ hi).coming c w rfl hc u hu
      case inr hu => simp_all
  case viewed =>
    intro q v hv
    cases List.mem_append.mp hv
    case inl hv => exact h.viewed q v hv
    case inr hv => simp_all
  case pinged =>
    intro q k hp hk
    have ⟨v, hv, he⟩ := h.pinged q k (by simpa using hp) hk
    exact ⟨v, List.mem_append_left _ hv, he⟩

end State.Learned

theorem Step.learned (h : Step s a s' es') (hl : s.Learned vs es) (hv : ∀ v ∈ vs, v ∈ vs')
    (hn : s'.vs.view ∈ vs') (hz : ⟨0, "", ""⟩ ∈ vs) (hle : ∀ v ∈ vs, v.viewnum ≤ s'.vs.view.viewnum) :
    s'.Learned vs' (es ++ es') := by
  have grow (hw : ∀ p v, .view p v ∉ es') (hp : ∀ p k, .ping p k ∉ es') : s.Learned vs' (es ++ es') :=
    hl.mono hv (fun _ => List.mem_append_left _)
      (fun p v hm => List.mem_append.mp hm |>.resolve_right <| hw p v)
      (fun p k hm => List.mem_append.mp hm |>.resolve_right <| hp p k)
  cases h
  case vsTick => exact grow (by simp) (by simp) |>.setVs
  case start =>
    exact grow (by simp) (by simp) |>.setServer _ ⟨hv _ hz, absurd rfl, absurd rfl, fun _ _ he => by cases he⟩
  case crash =>
    have hl := grow (by simp) (by simp)
    exact { hl with all := State.All.crash hl.all }
  case makeClerk =>
    have hl := grow (by simp) (by simp)
    exact { hl with all := State.All.makeClerk hl.all trivial }
  case get | putAppend => exact grow (by simp) (by simp) |>.beginOp
  case tick p pb hi =>
    have hl := hl.ping hi |>.mono hv (fun _ => id) (fun _ _ => id) (fun _ _ => id)
    have hp := hl.all.server _ _ hi
    refine hl.setServer ⟨pb, .ping s.calls.length⟩ ⟨hp.held, hp.event, hp.last, fun c v he hr => ?_⟩
      |>.send
    cases he
    simp [Calls.reply_length] at hr
  case handlePing c args hc =>
    refine (grow (by simp) (by simp) |>.setVs).answer fun v he => ?_
    cases he
    exact ⟨hn, fun p u hu => hle u <| hl.viewed p u <| by simpa using hu⟩
  case handleGet | refuse => exact grow (by simp) (by simp) |>.answer fun _ he => by cases he
  case execute hi _ _ | merge hi =>
    have hl := grow (by simp) (by simp)
    exact hl.setServer _ ((hl.all.server _ _ hi).keep (by simp) fun _ he => by cases he) |>.answer
      fun _ he => by cases he
  case replicate c _ _ _ _ hi _ _ =>
    have hl : (s.answer c none).Learned _ _ :=
      grow (by simp) (by simp) |>.answer fun _ he => by cases he
    exact hl.setServer _ ((hl.all.server _ _ hi).keep (by simp) fun _ he => by cases he) |>.send
  case view hi _ ho =>
    exact hl.setView .free hz hi ho (fun _ he => by cases he) |>.mono hv (fun _ => id) (fun _ _ => id)
      (fun _ _ => id)
  case viewForward hi _ ho =>
    refine hl.setView (.tick _) hz hi ho (fun _ he => by cases he) |>.mono hv ?_ ?_ ?_ |>.send
    case refine_1 =>
      intro e he
      simp only [List.mem_append, List.mem_cons, List.not_mem_nil, or_false] at he ⊢
      exact he.imp_right .inl
    all_goals simp
  case forwarded hi _ =>
    have hl := grow (by simp) (by simp)
    exact hl.setServer _ <| (hl.all.server _ _ hi).keep rfl fun _ he => by cases he
  case replicated hi _ =>
    have hl := grow (by simp) (by simp)
    exact hl.setServer _ ((hl.all.server _ _ hi).keep rfl fun _ he => by cases he) |>.answer
      fun _ he => by cases he
  case updateView =>
    have hl := grow (by simp) (by simp)
    exact hl.setClerk |>.setThread _ |>.send
  case gotten | done => exact grow (by simp) (by simp) |>.setThread _
  case retry => exact grow (by simp) (by simp) |>.setThread _ |>.send

theorem learned_of_run (r : cluster.Run ts s) : s.Learned (views ts) (Machine.events ts) := by
  induction r
  case nil =>
    refine ⟨.init, ?_, ?_⟩ <;> simp
  case snoc ts t r hi =>
    have hc := consistent_of_run (r.snoc t)
    have hv : ∀ v ∈ views ts, v ∈ views (ts ++ [t]) := fun _ hv => mem_views_snoc.mpr <| .inl hv
    rw [Machine.events_append, Machine.events_singleton]
    exact Step.of t |>.learned hi hv (mem_views_snoc.mpr <| .inr rfl) (by simp [views])
      fun v hm => hc.le v <| hv v hm

end

end PBService
