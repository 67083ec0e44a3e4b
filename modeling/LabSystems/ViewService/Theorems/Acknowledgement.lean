import LabSystems.ViewService.Theorems.Step

namespace ViewService

-- A view has a backup only if its number is positive.
def ViewServer.Begun (vs : ViewServer) : Prop :=
  vs.view.viewnum = 0 → vs.view = ⟨0, "", ""⟩

theorem Step.begun (h : Step vs a vs') (hb : vs.Begun) : vs'.Begun := by
  cases h
  case ack | refresh | lone | ignore | get | idle => exact hb
  all_goals simp [ViewServer.Begun, ViewServer.promote]

theorem begun_of_run (r : server.Run ts vs) : vs.Begun :=
  r.invariant (fun _ => rfl) (Step.of · |>.begun ·)

-- A positive acknowledgement was pinged by the server that is still the primary.
theorem pinged_of_primaryAcked (r : server.Run ts vs) (h : vs.primaryAcked ≠ 0) :
    ∃ t ∈ ts, t.act = .ping ⟨vs.view.primary, vs.primaryAcked⟩ := by
  refine r.history_invariant (m := server)
    (I := fun ts vs => vs.primaryAcked ≠ 0 →
      ∃ t ∈ ts, t.act = .ping ⟨vs.view.primary, vs.primaryAcked⟩)
    (fun h => absurd rfl h) (fun ts t hi h => ?_) h
  have keep (hp : t.post.view.primary = t.pre.view.primary)
      (ha : t.post.primaryAcked = t.pre.primaryAcked) :
      ∃ u ∈ ts ++ [t], u.act = .ping ⟨t.post.view.primary, t.post.primaryAcked⟩ := by
    have ⟨u, hm, hu⟩ := hi (ha ▸ h)
    exact ⟨u, List.mem_append_left _ hm, hp ▸ ha ▸ hu⟩
  have hs := Step.of t
  generalize ha : t.act = a, hv : t.post = vs' at hs
  cases hs
  case ack args _ hp _ =>
    refine ⟨t, by simp, ?_⟩
    simp only [ha, show t.pre.view.primary = args.me from hp]
  case first | restart | timeout => simp [hv, ViewServer.promote] at h
  all_goals exact hv ▸ keep (by simp [hv]) (by simp [hv])

namespace Transition

-- The transition replaces a view with a positive number by the next one.
def Replaces (t : Transition) : Prop :=
  1 ≤ t.pre.view.viewnum ∧ t.post.view.viewnum = t.pre.view.viewnum + 1

instance : DecidablePred Replaces :=
  fun _ => inferInstanceAs (Decidable (_ ∧ _))

-- The transition handles a ping by which a primary signals that it has restarted, at a time when
-- there is a backup to promote but the current view is not acknowledged. This is the only branch
-- that changes the view without testing `Acked`.
def RestartsUnacked (t : Transition) : Prop :=
  match t.act with
  | .ping args =>
    t.pre.IsPrimary args.me ∧ args.viewnum = 0 ∧ t.pre.HasBackup ∧ ¬t.pre.Acked
  | _ => False

instance (t : Transition) : Decidable t.RestartsUnacked :=
  match h : t.act with
  | .ping args =>
    decidable_of_iff
      (t.pre.IsPrimary args.me ∧ args.viewnum = 0 ∧ t.pre.HasBackup ∧ ¬t.pre.Acked)
      (by simp [RestartsUnacked, h])
  | .get | .tick => isFalse (by simp [RestartsUnacked, h])

theorem acked_or_restartsUnacked (t : Transition) (h : t.Replaces) :
    t.pre.Acked ∨ t.RestartsUnacked := by
  have hs := Step.of t
  have ⟨h₁, h₂⟩ := h
  unfold RestartsUnacked
  generalize t.act = a, t.post = vs' at hs h₂
  cases hs
  case first hz _ => omega
  case restart hp hz hb =>
    by_cases ha : t.pre.Acked
    case pos => exact .inl ha
    case neg => exact .inr ⟨hp, hz, hb, ha⟩
  case join ha | rejoin ha | timeout ha | drop ha => exact .inl ha
  all_goals simp at h₂

theorem replaces_of_restartsUnacked (t : Transition) (hb : t.pre.Begun) (h : t.RestartsUnacked) :
    t.Replaces ∧ ¬t.pre.Acked := by
  have hs := Step.of t
  unfold RestartsUnacked at h
  unfold Replaces
  generalize t.act = a, t.post = vs' at hs h
  have hn (hk : t.pre.HasBackup) : 1 ≤ t.pre.view.viewnum := by
    by_contra hz
    exact hk <| by simp [hb <| by omega]
  cases hs
  case first args hz _ => exact absurd (hn h.right.right.left) (by omega)
  case restart => exact ⟨⟨hn h.right.right.left, rfl⟩, h.right.right.right⟩
  case ack hz => exact absurd h.right.left hz
  case lone hk => exact absurd h.right.right.left hk
  case join ho _ _ | rejoin ho _ _ _ | refresh ho _ | ignore ho _ _ => exact absurd h.left ho
  all_goals exact h.elim

end Transition

-- Every step of a run that replaces a view with a positive number happens after the primary of
-- that view has pinged with the number of that view.
def WaitsForAck (ts : List Transition) : Prop :=
  ∀ ts₁ (t : Transition) ts₂, ts = ts₁ ++ t :: ts₂ → t.Replaces →
    t.pre.Acked ∧ ∃ u ∈ ts₁, u.act = .ping ⟨t.pre.view.primary, t.pre.view.viewnum⟩

theorem WaitsForAck.acked {ts : List Transition} (h : WaitsForAck ts) :
    ∀ t ∈ ts, Transition.Replaces t → t.pre.Acked := by
  intro t hm hr
  have ⟨ts₁, ts₂, hs⟩ := List.append_of_mem hm
  exact h ts₁ t ts₂ hs hr |>.left

theorem waitsForAck_iff (r : server.Run ts vs) :
    WaitsForAck ts ↔ ∀ t ∈ ts, ¬Transition.RestartsUnacked t where
  mp h t hm hr := by
    have ⟨ts₁, ts₂, hs⟩ := List.append_of_mem hm
    have hb := begun_of_run (hs ▸ r).split_cons.left
    have ⟨h₁, h₂⟩ := Transition.replaces_of_restartsUnacked t hb hr
    exact h₂ (h ts₁ t ts₂ hs h₁).left
  mpr h ts₁ t ts₂ hs hr := by
    have ha := t.acked_or_restartsUnacked hr |>.resolve_right <| h t (by simp [hs])
    have hn : t.pre.primaryAcked ≠ 0 := ha ▸ Nat.ne_of_gt hr.left
    have ⟨u, hm, hu⟩ := pinged_of_primaryAcked (hs ▸ r).split_cons.left hn
    exact ⟨ha, u, hm, ha ▸ hu⟩

-- A primary that restarts in an acknowledged view is replaced in accordance with the rule.
theorem waitsForAck_restart :
    WaitsForAck (server.trace .startServer
      [.ping ⟨"s1", 0⟩, .ping ⟨"s1", 1⟩, .ping ⟨"s2", 0⟩, .ping ⟨"s1", 2⟩, .ping ⟨"s1", 0⟩]).1 :=
  waitsForAck_iff (server.path_trace ..) |>.mpr (by decide)

-- A primary that restarts before it has acknowledged the view that gave it a backup is replaced
-- all the same: view 3 follows view 2 while `primaryAcked` is 1.
theorem not_waitsForAck_restart :
    ∃ ts vs, server.Run ts vs ∧ (∀ t ∈ ts, t.act.Named) ∧ ¬WaitsForAck ts := by
  let as : List Action :=
    [.ping ⟨"s1", 0⟩, .ping ⟨"s1", 1⟩, .ping ⟨"s2", 0⟩, .ping ⟨"s1", 0⟩]
  refine ⟨_, _, server.path_trace .startServer as, by decide, fun h => ?_⟩
  exact absurd h.acked (by decide)

end ViewService
