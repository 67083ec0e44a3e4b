import LabSystems.ViewService.Theorems.Step

namespace ViewService

-- An acknowledged view has a primary, unless it is the view of a fresh server. A backup has only
-- joined an acknowledged view and is thus never the primary.
structure ViewServer.Sound (vs : ViewServer) : Prop where
  zero     : vs.view.viewnum = 0 → vs.view = ⟨0, "", ""⟩
  acked    : vs.view.viewnum ≠ 0 → vs.Acked → vs.HasPrimary
  distinct : vs.view.primary = vs.view.backup → vs.view.primary = ""
  backup   : ¬vs.HasPrimary → ¬vs.HasBackup

namespace ViewServer.Sound

variable {vs : ViewServer}

theorem start : startServer.Sound where
  zero _     := rfl
  acked h    := absurd rfl h
  distinct _ := rfl
  backup _ h := h rfl

theorem promote (vs : ViewServer) : vs.promote.Sound where
  zero h     := absurd h <| Nat.succ_ne_zero _
  acked _ h  := absurd h promote_not_acked
  distinct h := h
  backup _ h := h rfl

-- A server that can be joined has a primary.
theorem hasPrimary (hs : vs.Sound) (hb : ¬(vs.view.viewnum = 0 ∧ ¬vs.HasPrimary)) (ha : vs.Acked) :
    vs.HasPrimary := by
  by_cases hz : vs.view.viewnum = 0
  case pos => exact not_not.mp (hb ⟨hz, ·⟩)
  case neg => exact hs.acked hz ha

end ViewServer.Sound

namespace Step

variable {vs vs' : ViewServer} {a : Action}

theorem sound (h : Step vs a vs') (hn : a.Named) (hs : vs.Sound) : vs'.Sound := by
  cases h
  case first args hz hp =>
    have hv := hs.zero hz
    exact {
      zero     := fun h => absurd h <| Nat.succ_ne_zero _
      acked    := fun _ h => by simp [hv, ViewServer.Acked] at h
      distinct := fun h => by simpa [hv] using h
      backup   := fun _ => by simp [hv]
    }
  case restart => exact .promote vs
  case timeout => exact .promote _
  case ack args hb hp hz =>
    have hm : vs.HasPrimary := fun h => hn <| hp ▸ h
    exact ⟨hs.zero, fun _ _ => hm, hs.distinct, hs.backup⟩
  case join args hb ho hk ha =>
    have hm := hs.hasPrimary hb ha
    exact ⟨fun h => absurd h <| Nat.succ_ne_zero _, fun _ _ => hm, (absurd · ho), absurd hm⟩
  case rejoin args hb ho hk hz ha =>
    have hm := hs.hasPrimary hb ha
    exact ⟨fun h => absurd h <| Nat.succ_ne_zero _, fun _ _ => hm, hs.distinct, absurd hm⟩
  case refresh | idle => exact ⟨hs.zero, hs.acked, hs.distinct, hs.backup⟩
  case lone | ignore | get => exact hs
  case drop hb _ ha =>
    have hm : vs.HasPrimary := fun h => hs.backup (not_not.mpr h) hb
    exact ⟨fun h => absurd h <| Nat.succ_ne_zero _, fun _ _ => hm, id, absurd hm⟩

theorem primary_of_viewnum_succ (h : Step vs a vs') (hz : vs.view.viewnum ≠ 0)
    (hv : vs'.view.viewnum = vs.view.viewnum + 1) :
    vs'.view.primary = vs.view.primary ∨ vs'.view.primary = vs.view.backup := by
  cases h
  case first h _ => exact absurd h hz
  all_goals simp [ViewServer.promote] at hv ⊢

end Step

theorem sound_of_run (r : server.Run ts vs) (hn : ∀ t ∈ ts, t.act.Named) : vs.Sound :=
  r.invariant_of .start hn (fun t hn => Step.of t |>.sound hn)

-- The views held so far: none is ahead of the current view, a view number determines the view, and
-- the primary of a view was in the view before.
structure Consistent (vs : List View) (v : View) : Prop where
  le     : ∀ u ∈ vs, u.viewnum ≤ v.viewnum
  unique : ∀ u ∈ vs, ∀ w ∈ vs, u.viewnum = w.viewnum → u = w
  next   : ∀ u ∈ vs, ∀ w ∈ vs, u.viewnum ≠ 0 → w.viewnum = u.viewnum + 1 →
    w.primary = u.primary ∨ w.primary = u.backup

theorem consistent_of_run {ts : List Transition} (r : server.Run ts vs) :
    Consistent (views ts) vs.view := by
  induction r
  case nil => constructor <;> simp
  case snoc ts t r hi =>
    have hm := view_mem_views r
    have hs := Step.of t
    have hle := hs.viewnum_le
    have hsucc := hs.viewnum_le_succ
    constructor
    case le =>
      intro u hu
      cases mem_views_snoc.mp hu
      case inl hu => exact Nat.le_trans (hi.le u hu) hle
      case inr hu => exact hu ▸ Nat.le_refl _
    case unique =>
      have last {u} (hu : u ∈ views ts) (he : u.viewnum = t.post.view.viewnum) :
          u = t.post.view := by
        have hv := Nat.le_antisymm hle <| he ▸ hi.le u hu
        rw [hs.view_eq_of_viewnum_eq hv.symm]
        exact hi.unique u hu _ hm <| he.trans hv.symm
      intro u hu w hw he
      cases mem_views_snoc.mp hu <;> cases mem_views_snoc.mp hw
      case inl.inl hu hw => exact hi.unique u hu w hw he
      case inl.inr hu hw => exact hw ▸ last hu (hw ▸ he)
      case inr.inl hu hw => exact hu ▸ (last hw (hu ▸ he.symm)).symm
      case inr.inr hu hw => exact hu.trans hw.symm
    case next =>
      intro u hu w hw hz he
      cases mem_views_snoc.mp hu <;> cases mem_views_snoc.mp hw
      case inl.inl hu hw => exact hi.next u hu w hw hz he
      case inl.inr hu hw =>
        subst hw
        by_cases hv : t.post.view.viewnum = t.pre.view.viewnum
        case pos =>
          have hp := hs.view_eq_of_viewnum_eq hv
          exact hp ▸ hi.next u hu _ hm hz (hv ▸ he)
        case neg =>
          have hu' := hi.unique u hu _ hm <| by omega
          exact hu' ▸ hs.primary_of_viewnum_succ (hu' ▸ hz) (by omega)
      case inr.inl hu hw =>
        have := hi.le w hw
        subst hu
        omega
      case inr.inr hu hw =>
        subst hu hw
        omega

-- What the clients of the view service can rely on in every run.
theorem view_history {ts : List Transition} (r : server.Run ts vs)
    (hn : ∀ t ∈ ts, t.act.Named) :
    (∀ t ∈ ts, t.pre.view.viewnum ≤ t.post.view.viewnum ∧
      t.post.view.viewnum ≤ t.pre.view.viewnum + 1) ∧
    (∀ t₁ ∈ ts, ∀ t₂ ∈ ts, ∀ v₁ ∈ t₁.events, ∀ v₂ ∈ t₂.events, v₁.viewnum = v₂.viewnum →
      v₁.primary = v₂.primary ∧ v₁.backup = v₂.backup) ∧
    (∀ u ∈ views ts, ∀ w ∈ views ts, 1 ≤ u.viewnum → w.viewnum = u.viewnum + 1 →
      w.primary = u.primary ∨ w.primary = u.backup) ∧
    (vs.view.primary = vs.view.backup → vs.view.primary = "" ∧ vs.view.backup = "") := by
  have hc := consistent_of_run r
  refine ⟨?viewnum, ?reply, ?primary, ?distinct⟩
  case viewnum => exact fun t _ => ⟨Step.of t |>.viewnum_le, Step.of t |>.viewnum_le_succ⟩
  case reply =>
    intro t₁ h₁ t₂ h₂ v₁ hv₁ v₂ hv₂ he
    have hm₁ := reply_eq hv₁ ▸ post_view_mem_views h₁
    have hm₂ := reply_eq hv₂ ▸ post_view_mem_views h₂
    have hv := hc.unique v₁ hm₁ v₂ hm₂ he
    exact ⟨congrArg View.primary hv, congrArg View.backup hv⟩
  case primary =>
    exact fun u hu w hw hz => hc.next u hu w hw <| Nat.one_le_iff_ne_zero.mp hz
  case distinct =>
    intro he
    have hp := sound_of_run r hn |>.distinct he
    exact ⟨hp, he ▸ hp⟩

theorem view_history_failover :
    let ts := (server.trace .startServer
      [.ping ⟨"s1", 0⟩, .ping ⟨"s1", 1⟩, .ping ⟨"s2", 0⟩, .get, .ping ⟨"s1", 2⟩, .ping ⟨"s1", 0⟩,
        .tick]).1
    ∀ u ∈ views ts, ∀ w ∈ views ts, 1 ≤ u.viewnum → w.viewnum = u.viewnum + 1 →
      w.primary = u.primary ∨ w.primary = u.backup :=
  view_history (server.path_trace ..) (by decide) |>.right.right.left

end ViewService
