import LabSystems.PBService.Theorems.Duplicates
import LabSystems.PBService.Theorems.Pairs

namespace PBService

open Machine (events)
open ViewService (View)

-- An update that a server has handled as the primary.
def Event.delivery (p : String) : Event → Option (View × PutAppendArgs)
  | putAppend _ q v args _ => if q = p ∧ v.primary = p then some (v, args) else none
  | _                      => none

def delivered (p : String) (es : List Event) : List (View × PutAppendArgs) :=
  es.filterMap (Event.delivery p)

-- A server is not started again, gets no data from another server and goes on to views without a backup.
def Event.LeavesAlone (p : String) : Event → Prop
  | start q | merge _ q _ => q ≠ p
  | view q v              => q = p → v.backup = ""
  | _                     => True

-- A server is where the handling of some requests takes it, one after the other.
structure Server.Alone (p : String) (reqs : List (View × PutAppendArgs)) (sv : Server) : Prop where
  pb    : sv.pb = { (PBServer.startServer p).serve reqs with view := sv.pb.view }
  alone : ¬sv.pb.HasBackup
  waits : ∀ c client args reply, sv.lock ≠ .putAppend c client args reply

structure State.Serves (p : String) (es : List Event) (s : State) : Prop where
  server : ∀ sv, s.servers p = some sv → sv.Alone p (delivered p es)
  single : ∀ r ∈ delivered p es, Single p r.1

variable {s s' : State} {es es' : List Event} {ts₁ ts₂ : List Transition} {t u : Transition} {p : String}
  {pb : PBServer} {lock : Lock} {v : View} {args : PutAppendArgs} {reqs : List (View × PutAppendArgs)}

-- In the cluster, a server without a backup handles a request in one step.
theorem State.putAppend_alone (c : Nat) (args : PutAppendArgs) (hi : s.servers p = some ⟨pb, .free⟩)
    (hb : ¬pb.HasBackup) : (s.putAppend c p pb args).1.servers p = some ⟨pb.putAppend args, .free⟩ := by
  cases hr : pb.refuse args <;> simp only [State.putAppend, PBServer.putAppend, hr]
  case none => simp [hb, State.answer, State.setServer]
  case some => exact hi

theorem PBServer.putAppend_view : (pb.putAppend args).view = pb.view := by
  simp only [PBServer.putAppend]
  split <;> simp

theorem delivered_append : delivered p (es ++ es') = delivered p es ++ delivered p es' :=
  List.filterMap_append

theorem delivered_putAppend :
    delivered p [.putAppend c q v args reply] = if q = p ∧ v.primary = p then [(v, args)] else [] := by
  simp only [delivered, List.filterMap_cons, List.filterMap_nil, Event.delivery]
  split <;> simp_all

namespace Server.Alone

theorem me (h : Alone p reqs ⟨pb, lock⟩) : pb.me = p :=
  (congrArg PBServer.me h.pb).trans PBServer.serve_me

theorem db (h : Alone p reqs ⟨pb, lock⟩) : pb.db = ((PBServer.startServer p).serve reqs).db :=
  (congrArg PBServer.db h.pb : _)

theorem of_lock {lock' : Lock} (h : Alone p reqs ⟨pb, lock⟩)
    (hw : ∀ c client args reply, lock' ≠ .putAppend c client args reply) : Alone p reqs ⟨pb, lock'⟩ :=
  ⟨h.pb, h.alone, hw⟩

theorem view (h : Alone p reqs ⟨pb, lock⟩) (hb : v.backup = "") : Alone p reqs ⟨{ pb with view := v }, .free⟩ where
  pb    := congrArg (fun pb : PBServer => { pb with view := v }) h.pb
  alone := not_not.mpr hb
  waits := nofun

theorem putAppend (h : Alone p reqs ⟨pb, .free⟩) :
    Alone p (reqs ++ if pb.view.primary = p then [(pb.view, args)] else []) ⟨pb.putAppend args, .free⟩ where
  pb := by
    have hpb := h.pb
    split
    case isTrue =>
      simp only [PBServer.serve, List.foldl_append, List.foldl_cons, List.foldl_nil] at hpb ⊢
      rw [← hpb]
    case isFalse hp =>
      -- Who is not the primary refuses.
      have hr : pb.putAppend args = pb := by
        simp [PBServer.putAppend, PBServer.refuse, PBServer.IsPrimary, h.me, hp]
      rwa [hr, List.append_nil]
  alone := by
    rw [PBServer.HasBackup, PBServer.putAppend_view]
    exact h.alone
  waits := nofun

end Server.Alone

namespace State.Serves

theorem start (hi : s.servers p = some ⟨.startServer p, .free⟩) : s.Serves p [] where
  server sv hsv := by
    cases hi.symm.trans hsv
    exact ⟨rfl, not_not.mpr rfl, nofun⟩
  single := by simp [delivered]

-- Nothing is delivered.
theorem quiet (hs : s.Serves p es) (hd : delivered p es' = [])
    (hsv : ∀ sv, s'.servers p = some sv → sv.Alone p (delivered p es)) : s'.Serves p (es ++ es') := by
  constructor <;> rw [delivered_append, hd, List.append_nil]
  exacts [hsv, hs.single]

theorem update {sv' : Option Server} (hs : s.Serves p es)
    (hp : p = q → ∀ sv, sv' = some sv → sv.Alone p (delivered p es)) :
    ∀ sv, (s.setServer q sv').servers p = some sv → sv.Alone p (delivered p es) := by
  intro sv hsv
  rcases State.servers_setServer hsv with ⟨he, hsv⟩ | ⟨_, hsv⟩
  case inl => exact hp he sv hsv
  case inr => exact hs.server sv hsv

-- A server handles an update.
theorem handle (hs : s.Serves p es) (hi : s.servers q = some ⟨pb, .free⟩)
    (hd : delivered p es' = if q = p ∧ pb.view.primary = p then [(pb.view, args)] else [])
    (hq : ¬pb.HasBackup → s'.servers q = some ⟨pb.putAppend args, .free⟩)
    (hne : p ≠ q → s'.servers p = s.servers p) : s'.Serves p (es ++ es') := by
  by_cases he : q = p
  case neg =>
    refine hs.quiet (hd.trans <| if_neg fun h => he h.left) fun sv hsv => hs.server sv ?_
    exact (hne <| Ne.symm he).symm.trans hsv
  case pos =>
    subst he
    have ha := hs.server _ hi
    simp only [true_and] at hd
    constructor <;> rw [delivered_append, hd]
    case server =>
      intro sv hsv
      cases (hq ha.alone).symm.trans hsv
      exact ha.putAppend
    case single =>
      refine List.forall_mem_append.mpr ⟨hs.single, ?_⟩
      split
      case isTrue hp => simpa [Single, hp] using ha.alone
      case isFalse   => exact List.forall_mem_nil _

end State.Serves

theorem Step.servers_start (h : Step s a s' es) (hs : .start p ∈ es) :
    s'.servers p = some ⟨.startServer p, .free⟩ := by
  cases h <;> simp at hs
  case start =>
    subst hs
    exact Function.update_self ..

theorem Step.serves (h : Step s a s' es') (hl : ∀ e ∈ es', e.LeavesAlone p) (hs : s.Serves p es) :
    s'.Serves p (es ++ es') := by
  cases h
  case start q _ _ => exact hs.quiet rfl <| hs.update fun he => absurd he.symm <| hl (.start q) List.mem_cons_self
  case crash => exact hs.quiet rfl <| hs.update fun _ _ he => by cases he
  case tick q pb hi =>
    refine hs.quiet rfl <| hs.update ?_
    rintro rfl _ ⟨⟩
    exact hs.server _ hi |>.of_lock fun _ _ _ _ he => by cases he
  case get | putAppend =>
    refine hs.quiet rfl fun sv hsv => hs.server sv ?_
    simp only [State.beginOp] at hsv
    split at hsv <;> exact hsv
  case merge c q args _ _ _ =>
    exact hs.quiet rfl <| hs.update fun he => absurd he.symm <| hl (.merge c q args) List.mem_cons_self
  case view q _ _ hi _ _ =>
    refine hs.quiet rfl <| hs.update ?_
    rintro rfl _ ⟨⟩
    exact hs.server _ hi |>.view <| hl (.view _ _) List.mem_cons_self rfl
  case viewForward hn _ =>
    refine hs.quiet rfl <| hs.update ?_
    rintro rfl
    exact absurd (hl (.view _ _) List.mem_cons_self rfl) hn.left
  case forwarded q _ _ hi _ =>
    refine hs.quiet rfl <| hs.update ?_
    rintro rfl _ ⟨⟩
    exact hs.server _ hi |>.of_lock fun _ _ _ _ he => by cases he
  case refuse c _ args _ _ _ hi hr =>
    refine hs.handle hi delivered_putAppend (fun hb => ?_) fun _ => rfl
    simpa [State.putAppend, hr] using State.putAppend_alone c args hi hb
  case execute c _ args _ _ hi hr hb =>
    refine hs.handle hi delivered_putAppend (fun hb => ?_) (Function.update_of_ne · _ _)
    simpa [State.putAppend, hr, hb] using State.putAppend_alone c args hi hb
  case replicate hi _ hb =>
    refine hs.quiet rfl <| hs.update ?_
    rintro rfl
    exact absurd hb (hs.server _ hi).alone
  case replicated q _ _ _ _ _ _ hi _ =>
    have hne : p ≠ q := by
      rintro rfl
      exact (hs.server _ hi).waits _ _ _ _ rfl
    exact hs.quiet (delivered_putAppend.trans <| if_neg fun h => hne h.left.symm) <| hs.update fun he => absurd he hne
  all_goals exact hs.quiet rfl hs.server

-- A server that is left alone since its start has handled the updates as if they had come one after the other.
theorem serves_of_run (r : cluster.Run (ts₁ ++ t :: ts₂) s) (hs : .start p ∈ t.events)
    (hl : ∀ e ∈ events ts₂, e.LeavesAlone p) : s.Serves p (events ts₂) := by
  have ⟨_, r₂⟩ := r.split_cons
  refine r₂.history_invariant (I := fun ts s => (∀ e ∈ events ts, e.LeavesAlone p) → s.Serves p (events ts)) ?_ ?_ hl
  case refine_1 => exact fun _ => .start <| Step.of t |>.servers_start hs
  case refine_2 =>
    intro ts u hi hl
    rw [Machine.events_append, Machine.events_singleton] at hl ⊢
    exact Step.of u |>.serves (fun e he => hl e <| List.mem_append_right _ he) <|
      hi fun e he => hl e <| List.mem_append_left _ he

-- Whenever it is the primary, its clients read what the distinct updates are meant to make of the key.
theorem get_of_alone (r : cluster.Run (ts₁ ++ t :: ts₂) u.pre) (hs : .start p ∈ t.events)
    (hl : ∀ e ∈ events ts₂, e.LeavesAlone p) (hg : .get c p v ⟨k⟩ reply ∈ u.events) (hv : v.primary = p)
    (hd : Deliveries keys <| (delivered p <| events ts₂).map (·.2)) (hc : ¬Collides keys k) :
    reply = valueReply (intended k <| (delivered p <| events ts₂).map (·.2)) := by
  obtain ⟨pb, hi, rfl, rfl⟩ := Step.of u |>.of_get hg
  have h := serves_of_run r hs hl
  have ha := h.server _ hi
  rw [PBServer.get_eq <| hv.trans ha.me.symm, ha.db, (tracks_of_serve h.single hd hc).value]

end PBService
