import LabSystems.ViewService.Theorems.Step

namespace ViewService

def ticks (ts : List Transition) : Nat :=
  ts.map (·.act) |>.count .tick

theorem ticks_snoc_tick {ts : List Transition} {t : Transition} (h : t.act = .tick) :
    ticks (ts ++ [t]) = ticks ts + 1 := by
  simp [ticks, h]

theorem ticks_snoc {ts : List Transition} {t : Transition} (h : t.act ≠ .tick) :
    ticks (ts ++ [t]) = ticks ts := by
  simp [ticks, h]

namespace ViewServer

-- A server that has seen `n` ticks and no ping.
structure Fresh (vs : ViewServer) (n : Nat) : Prop where
  view         : vs.view = ⟨0, "", ""⟩
  primaryAcked : vs.primaryAcked = 0
  primaryTick  : vs.primaryTick = 0
  currentTick  : vs.currentTick = n
  early        : n < deadPings

-- A server that has a view without a primary.
structure Stuck (vs : ViewServer) : Prop where
  begun   : vs.view.viewnum ≠ 0
  primary : vs.view.primary = ""

variable {vs : ViewServer}

theorem Fresh.tick (h : vs.Fresh n) (he : n + 1 < deadPings) : vs.tick.Fresh (n + 1) := by
  have ⟨hv, ha, hp, hc, _⟩ := h
  have hl : ¬deadPings ≤ n + 1 := by omega
  have ht : vs.tick = { vs with currentTick := vs.currentTick + 1 } := by
    simp [ViewServer.tick, checkPrimary, checkBackup, uintSub, hv, hp, hc, hl]
  exact ht ▸ ⟨hv, ha, hp, by simp [hc], he⟩

theorem Fresh.tick_stuck (h : vs.Fresh n) (he : deadPings ≤ n + 1) : vs.tick.Stuck := by
  have ⟨hv, ha, hp, hc, _⟩ := h
  have ht : vs.tick = { vs with currentTick := vs.currentTick + 1 }.promote := by
    simp [ViewServer.tick, checkPrimary, promote_checkBackup, uintSub, hv, ha, hp, hc, he]
  exact ht ▸ ⟨by simp [promote], by simp [promote, hv]⟩

theorem Fresh.pinged (h : vs.Fresh n) (args : PingArgs) : (vs.pinged args).view = ⟨1, args.me, ""⟩ := by
  simp [ViewServer.pinged, h.view]

-- The primary of the next view would be a backup, or the one that has pinged the fresh server.
theorem Stuck.pinged_primary (h : vs.Stuck) (hm : args.me ≠ "") : (vs.pinged args).view.primary = "" := by
  have hn : ¬vs.IsPrimary args.me := fun hp => hm <| hp.symm.trans h.primary
  generalize hv : vs.pinged args = vs'
  cases hv ▸ vs.ping_step args
  case first hz _                => exact absurd hz h.begun
  case restart hp _ | ack hp _   => exact absurd hp hn
  all_goals exact h.primary

end ViewServer

theorem Step.viewnum_ne_zero (h : Step vs a vs') (hb : vs.view.viewnum ≠ 0) : vs'.view.viewnum ≠ 0 :=
  Nat.ne_of_gt <| Nat.lt_of_lt_of_le (Nat.pos_of_ne_zero hb) h.viewnum_le

-- No timeout test has met the view of the fresh server, and no client without a name has pinged it.
def Undisturbed (ts : List Transition) : Prop :=
  ticks ts < deadPings ∧ ∀ t ∈ ts, t.act.Named

theorem Undisturbed.of_snoc {ts : List Transition} (h : Undisturbed (ts ++ [t])) : Undisturbed ts :=
  ⟨Nat.lt_of_le_of_lt (by simp [ticks]) h.left, fun u hu => h.right u <| List.mem_append_left _ hu⟩

-- As long as no server has been primary, the server is fresh or will never name its first primary.
theorem fresh_or_stuck {ts : List Transition} (r : server.Run ts vs) (hp : ∀ v ∈ views ts, v.primary = "") :
    vs.Fresh (ticks ts) ∧ Undisturbed ts ∨ vs.Stuck ∧ ¬Undisturbed ts := by
  induction r
  case nil => exact .inl ⟨⟨rfl, rfl, rfl, rfl, by decide⟩, by decide, nofun⟩
  case snoc ts t r hi =>
    have hpost := hp t.post.view <| mem_views_snoc.mpr <| .inr rfl
    have hv := t.valid
    cases hi (fun v hv => hp v <| mem_views_snoc.mpr <| .inl hv)
    case inr h => exact .inr ⟨⟨Step.of t |>.viewnum_ne_zero h.left.begun, hpost⟩, fun hu => h.right hu.of_snoc⟩
    case inl h =>
      obtain ⟨h, hu⟩ := h
      have hnamed (hm : t.act.Named) : ∀ u ∈ ts ++ [t], u.act.Named := by
        simpa [or_imp, forall_and] using ⟨hu.right, hm⟩
      cases ha : t.act <;> simp only [ha, server, Option.some.injEq, Prod.mk.injEq] at hv
      case ping args =>
        -- The ping of a named server would have made it primary.
        have hq : t.post.view = ⟨1, args.me, ""⟩ := hv.left ▸ h.pinged args
        refine .inr ⟨⟨by simp [hq], hpost⟩, fun hu => ?_⟩
        have hm : t.act.Named := hu.right t <| by simp
        rw [ha] at hm
        exact hm <| by simpa [hq] using hpost
      case get =>
        refine .inl ⟨?_, ?_, hnamed <| by simp [ha, Action.Named]⟩
        case refine_1 =>
          rw [ticks_snoc <| by simp [ha], ← hv.left]
          exact h
        case refine_2 =>
          rw [ticks_snoc <| by simp [ha]]
          exact hu.left
      case tick =>
        rw [← hv.left]
        by_cases he : ticks ts + 1 < deadPings
        case pos =>
          refine .inl ⟨ticks_snoc_tick ha ▸ h.tick he, ?_, hnamed <| by simp [ha, Action.Named]⟩
          rw [ticks_snoc_tick ha]
          exact he
        case neg =>
          refine .inr ⟨h.tick_stuck <| Nat.le_of_not_lt he, fun hu => he ?_⟩
          rw [← ticks_snoc_tick ha]
          exact hu.left

-- A server can become the first primary exactly as long as the fresh server, whose view counts as
-- acknowledged, has met neither its timeout nor a client without a name.
theorem firstPrimary_iff {ts : List Transition} {args : PingArgs} (r : server.Run ts vs)
    (hp : ∀ v ∈ views ts, v.primary = "") (hm : args.me ≠ "") :
    (vs.ping args).2.view.primary = args.me ↔ ticks ts < deadPings ∧ ∀ t ∈ ts, t.act.Named := by
  cases fresh_or_stuck r hp
  case inl h => exact iff_of_true (congrArg View.primary <| h.left.pinged args) h.right
  case inr h =>
    have hv : (vs.ping args).2.view.primary = "" := h.left.pinged_primary hm
    exact iff_of_false (hv ▸ hm.symm) h.right

theorem firstPrimary_after_four_ticks :
    ((server.trace .startServer (.replicate 4 .tick)).2.ping ⟨"s1", 0⟩).2.view.primary = "s1" :=
  firstPrimary_iff (server.path_trace ..) (by decide) (by decide) |>.mpr (by decide)

-- After five ticks without a ping no server can become primary, also if no client has an empty name.
theorem not_firstPrimary_after_five_ticks :
    ∃ (ts : List Transition) (vs : _) (args : _), server.Run ts vs ∧ (∀ t ∈ ts, t.act.Named) ∧
      (∀ v ∈ views ts, v.primary = "") ∧ args.me ≠ "" ∧ (vs.ping args).2.view.primary ≠ args.me :=
  ⟨_, _, ⟨"s1", 0⟩, server.path_trace .startServer (.replicate 5 .tick), by decide⟩

end ViewService
