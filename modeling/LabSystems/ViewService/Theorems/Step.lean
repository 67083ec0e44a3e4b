import LabSystems.ViewService.Basic

namespace ViewService

theorem uintSub_of_le (h : b ≤ a) : uintSub a b = a - b :=
  if_pos h

-- What a step can do, with the guards under which it does it.
inductive Step (vs : ViewServer) : Action → ViewServer → Prop
  -- The very first ping names the primary of view 1.
  | first (zero : vs.view.viewnum = 0) (none : ¬vs.HasPrimary) :
    Step vs (.ping args) { vs with
      view         := { vs.view with viewnum := vs.view.viewnum + 1, primary := args.me }
      primaryAcked := 0
      primaryTick  := vs.currentTick }
  -- A ping of the primary with view number 0 makes the backup primary.
  | restart (begun : ¬(vs.view.viewnum = 0 ∧ ¬vs.HasPrimary)) (primary : vs.IsPrimary args.me)
    (zero : args.viewnum = 0) (backup : vs.HasBackup) : Step vs (.ping args) vs.promote
  | ack (begun : ¬(vs.view.viewnum = 0 ∧ ¬vs.HasPrimary)) (primary : vs.IsPrimary args.me)
    (nonzero : args.viewnum ≠ 0) :
    Step vs (.ping args) { vs with
      primaryAcked := args.viewnum, primaryTick := vs.currentTick }
  | join (begun : ¬(vs.view.viewnum = 0 ∧ ¬vs.HasPrimary)) (other : ¬vs.IsPrimary args.me)
    (alone : ¬vs.HasBackup) (acked : vs.Acked) :
    Step vs (.ping args) { vs with
      view       := { vs.view with viewnum := vs.view.viewnum + 1, backup := args.me }
      backupTick := vs.currentTick }
  | rejoin (begun : ¬(vs.view.viewnum = 0 ∧ ¬vs.HasPrimary)) (other : ¬vs.IsPrimary args.me)
    (backup : vs.IsBackup args.me) (zero : args.viewnum = 0) (acked : vs.Acked) :
    Step vs (.ping args) { vs with
      view       := { vs.view with viewnum := vs.view.viewnum + 1 }
      backupTick := vs.currentTick }
  | refresh (begun : ¬(vs.view.viewnum = 0 ∧ ¬vs.HasPrimary)) (other : ¬vs.IsPrimary args.me)
    (backup : vs.IsBackup args.me) :
    Step vs (.ping args) { vs with backupTick := vs.currentTick }
  | lone (begun : ¬(vs.view.viewnum = 0 ∧ ¬vs.HasPrimary)) (primary : vs.IsPrimary args.me)
    (zero : args.viewnum = 0) (alone : ¬vs.HasBackup) : Step vs (.ping args) vs
  | ignore (begun : ¬(vs.view.viewnum = 0 ∧ ¬vs.HasPrimary)) (other : ¬vs.IsPrimary args.me)
    (taken : ¬(¬vs.HasBackup ∧ vs.Acked)) (stranger : ¬vs.IsBackup args.me) :
    Step vs (.ping args) vs
  | get : Step vs .get vs
  | idle : Step vs .tick { vs with currentTick := vs.currentTick + 1 }
  | timeout (late : deadPings ≤ uintSub (vs.currentTick + 1) vs.primaryTick) (acked : vs.Acked) :
    Step vs .tick { vs with currentTick := vs.currentTick + 1 }.promote
  | drop (backup : vs.HasBackup) (late : deadPings ≤ uintSub (vs.currentTick + 1) vs.backupTick)
    (acked : vs.Acked) :
    Step vs .tick { vs with
      view        := { vs.view with viewnum := vs.view.viewnum + 1, backup := "" }
      currentTick := vs.currentTick + 1 }

namespace ViewServer

variable {vs : ViewServer}

theorem promote_not_acked : ¬vs.promote.Acked := by
  simp [promote]

-- Since a promotion is never acknowledged at once, at most one test of `tick` changes the view.
theorem promote_checkBackup : vs.promote.checkBackup = vs.promote := by
  simp [checkBackup, promote]

theorem ping_step (vs : ViewServer) (args : PingArgs) : Step vs (.ping args) (vs.pinged args) := by
  simp only [pinged]
  split
  case isTrue h => exact .first h.left h.right
  case isFalse hb =>
    split
    case isTrue hp =>
      split
      case isTrue hz =>
        split
        case isTrue h  => exact .restart hb hp hz h
        case isFalse h => exact .lone hb hp hz h
      case isFalse hz => exact .ack hb hp hz
    case isFalse hp =>
      split
      case isTrue h => exact .join hb hp h.left h.right
      case isFalse h =>
        split
        case isTrue hi =>
          split
          case isTrue h  => exact .rejoin hb hp hi h.left h.right
          case isFalse h => exact .refresh hb hp hi
        case isFalse hi => exact .ignore hb hp h hi

theorem tick_step (vs : ViewServer) : Step vs .tick vs.tick := by
  simp only [tick, checkPrimary]
  split
  case isTrue h => exact promote_checkBackup ▸ .timeout h.left h.right
  case isFalse =>
    simp only [checkBackup]
    split
    case isTrue h => exact .drop h.left h.right.left h.right.right
    case isFalse  => exact .idle

end ViewServer

theorem Step.of_server (h : server.step vs a = some (vs', es)) : Step vs a vs' := by
  cases a <;> simp [server] at h
  case ping args => exact h.left ▸ vs.ping_step args
  case get       => exact h.left ▸ .get
  case tick      => exact h.left ▸ vs.tick_step

theorem Step.of (t : Transition) : Step t.pre t.act t.post :=
  .of_server t.valid

-- Every reply carries the view that the step leaves behind.
theorem reply_eq {t : Transition} (h : v ∈ t.events) : v = t.post.view := by
  have hv := t.valid
  cases ha : t.act <;> simp [ha, server, ViewServer.ping, ViewServer.get] at hv
  case tick => simp [hv.right] at h
  all_goals simpa [← hv.left, ← hv.right] using h

namespace Step

variable {vs vs' : ViewServer} {a : Action}

theorem viewnum_le (h : Step vs a vs') : vs.view.viewnum ≤ vs'.view.viewnum := by
  cases h <;> simp [ViewServer.promote]

theorem viewnum_le_succ (h : Step vs a vs') : vs'.view.viewnum ≤ vs.view.viewnum + 1 := by
  cases h <;> simp [ViewServer.promote]

theorem view_eq_of_viewnum_eq (h : Step vs a vs') (he : vs'.view.viewnum = vs.view.viewnum) :
    vs'.view = vs.view := by
  cases h <;> simp [ViewServer.promote] at he ⊢

end Step

@[simp]
theorem views_nil : views [] = [⟨0, "", ""⟩] :=
  rfl

theorem mem_views_snoc {ts : List Transition} {t : Transition} :
    v ∈ views (ts ++ [t]) ↔ v ∈ views ts ∨ v = t.post.view := by
  simp [views, or_assoc, eq_comm]

theorem view_mem_views {ts : List Transition} (r : server.Run ts vs) : vs.view ∈ views ts := by
  cases r
  case nil    => simp
  case snoc t => exact mem_views_snoc.mpr <| .inr rfl

theorem post_view_mem_views {ts : List Transition} {t : Transition} (h : t ∈ ts) :
    t.post.view ∈ views ts := by
  simp only [views, List.mem_cons, List.mem_map]
  exact .inr ⟨t, h, rfl⟩

end ViewService
