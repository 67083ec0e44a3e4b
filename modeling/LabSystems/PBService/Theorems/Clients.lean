import LabSystems.PBService.Theorems.LostPings

namespace PBService

open ViewService (View ViewServer PingArgs)

variable {s s' : State} {ts₁ ts₂ : List Transition} {t u : Transition} {ck : Clerk} {i : Nat} {r : Request}

-- The clerk whose goroutine takes a step.
def State.clerkOf (s : State) : Action → Option Clerk
  | .get i _ | .putAppend i _ _ _ _  => s.clerks[i]?
  | .clerkReceive t | .clerkFail t => s.threads[t]?.bind fun th => s.clerks[th.clerk]?
  | _                              => none

-- The step begins a call by which `updateView` of the clerk pings the view server.
def Transition.UpdatesView (ck : Clerk) (t : Transition) : Prop :=
  t.pre.clerkOf t.act = some ck ∧ ∃ args, t.post.calls[t.pre.calls.length]? = some ⟨.ping args, none⟩

theorem Calls.eq_of_send_self {ρ σ : Type} {cs : Calls ρ σ} {r r' : ρ} {rep : Option σ}
    (h : (cs.send r)[cs.length]? = some ⟨r', rep⟩) : r' = r := by
  cases Calls.send_self.symm.trans h
  rfl

-- A clerk pings the view server with its own name and the number of the view that it knows.
theorem Step.updatesView (h : Step s a s' es) (hk : s.clerkOf a = some ck)
    (hp : s'.calls[s.calls.length]? = some ⟨.ping args, none⟩) : args = ⟨ck.name, ck.view.viewnum⟩ := by
  have none {cs : Calls Request (Option Reply)} : cs[cs.length]? = Option.none := List.getElem?_eq_none (Nat.le_refl _)
  have request {op : Op} {q} : Request.ping args ≠ op.request q := by cases op <;> simp [Op.request]
  cases h
  case get ck' hck | putAppend ck' hck =>
    cases hck.symm.trans hk
    simp only [State.beginOp] at hp
    split at hp
    case isTrue  => exact Request.ping.inj <| Calls.eq_of_send_self hp
    case isFalse => exact absurd (Calls.eq_of_send_self hp) request
  case updateView => exact absurd (Calls.eq_of_send_self hp) request
  case gotten | done => cases none.symm.trans hp
  case retry th ck' _ _ ht hck _ _ _ ho =>
    have hk : s.clerks[th.clerk]? = some ck := by cases ho <;> simpa [State.clerkOf, ht] using hk
    cases hck.symm.trans hk
    exact Request.ping.inj <| Calls.eq_of_send_self hp
  case view ho | viewForward ho | forwarded ho | replicated ho => cases ho <;> cases hk
  all_goals cases hk

-- The request of a call never changes.
theorem Step.carries (h : Step s a s' es) (hc : s.calls.Carries i r) : s'.calls.Carries i r := by
  cases h
  case vsTick | start | crash | makeClerk | view | forwarded | gotten | done => exact hc
  case tick | viewForward | updateView | retry => exact hc.send
  case handlePing | handleGet | refuse | execute | merge | replicated => exact hc.answer
  case replicate => exact hc.answer.send
  case get | putAppend =>
    simp only [State.beginOp]
    split <;> exact hc.send

theorem carries_of_path (q : cluster.Path s ts₁ s') (hc : s.calls.Carries i r) : s'.calls.Carries i r :=
  q.invariant (I := fun s => s.calls.Carries i r) hc (Step.of · |>.carries ·)

-- The ping by which a clerk refreshes its view leaves the view alone exactly if the view server would
-- not admit a server that sends this ping.
theorem keepsView_iff (r : cluster.Run (ts₁ ++ t :: (ts₂ ++ [u])) s) (ht : t.UpdatesView ck)
    (hu : u.act = .handle t.pre.calls.length) :
    u.post.vs.view = u.pre.vs.view ↔ ¬u.pre.vs.Admits ⟨ck.name, ck.view.viewnum⟩ := by
  have r' : cluster.Run ((ts₁ ++ t :: ts₂) ++ [u]) s := by simpa using r
  have r₁ := r'.of_snoc.left
  have hb := begun_vs_of_run r₁
  have ⟨hk, args, hp⟩ := ht
  have hargs := Step.of t |>.updatesView hk hp
  have hc := carries_of_path r₁.split_cons.right ⟨none, hp⟩
  have hr {r} (hi : u.pre.calls.pending t.pre.calls.length = some r) : r = .ping args := by
    have ⟨_, hc⟩ := hc
    cases hc.symm.trans <| Calls.pending_eq_some.mp hi
    rfl
  have hs := hu ▸ Step.of u
  generalize u.post = s', u.events = es at hs
  cases hs
  case handlePing hi =>
    cases hr hi
    exact hargs ▸ ViewServer.pinged_view_eq_iff hb
  case handleGet hi | refuse hi | execute hi | replicate hi | merge hi => cases hr hi
  case view ho | viewForward ho | forwarded ho | replicated ho | updateView ho | retry ho => cases ho

-- A clerk begins its first operation when view 2 has a backup.
def backedUp : List Action :=
  lostPing.take 19 ++ [.makeClerk "" 7, .get 0 "k", .handle 6]

-- A clerk begins its first operation when server a is primary of the acknowledged view 1.
def alone (name : String) : List Action :=
  [.startServer "a", .tick "a", .handle 0, .receive "a", .tick "a", .handle 1, .receive "a", .makeClerk name 7,
    .get 0 "k", .handle 2]

theorem keepsView_backedUp :
    let ts := (cluster.trace .init backedUp).1
    ts[21].post.vs.view = ts[21].pre.vs.view := by
  intro ts
  have r : cluster.Run (ts.take 20 ++ ts[20] :: ([] ++ [ts[21]])) (cluster.trace .init backedUp).2 :=
    cluster.path_trace .init backedUp |>.splitAt (i := 20) (by decide)
  exact keepsView_iff r ⟨(by decide : _ = some (⟨"", "7", ⟨0, "", ""⟩⟩ : Clerk)), ⟨"", 0⟩, rfl⟩ (by decide) |>.mpr (by decide)

-- A clerk with this name replaces the acknowledged view 1 by a view which it is the backup of.
def Joins (name : String) : Prop :=
  ∃ (ts₁ : List Transition) (t : Transition) (ts₂ : List Transition) (u : Transition) (s : _) (ck : _),
    cluster.Run (ts₁ ++ t :: (ts₂ ++ [u])) s ∧ ck.name = name ∧ t.UpdatesView ck ∧
      u.act = .handle t.pre.calls.length ∧ u.pre.vs.view = ⟨1, "a", ""⟩ ∧ u.post.vs.view = ⟨2, "a", name⟩

theorem not_keepsView : Joins "" ∧ Joins "c" := by
  have r (name) := cluster.path_trace .init (alone name) |>.splitAt (i := 8)
  constructor
  case left =>
    exact ⟨_, _, [], _, _, ⟨"", "7", ⟨0, "", ""⟩⟩, r "" (by decide), rfl, ⟨by decide, ⟨"", 0⟩, rfl⟩, by decide⟩
  case right =>
    exact ⟨_, _, [], _, _, ⟨"c", "7", ⟨0, "", ""⟩⟩, r "c" (by decide), rfl, ⟨by decide, ⟨"c", 0⟩, rfl⟩, by decide⟩

end PBService
