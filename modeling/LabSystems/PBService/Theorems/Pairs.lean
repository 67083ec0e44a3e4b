import LabSystems.PBService.Theorems.Deposed
import LabSystems.PBService.Theorems.LostPings

namespace PBService

open ViewService (View ViewServer PingArgs)

variable {s s' : State} {es : List Event} {p q P B : String} {sv : Server} {c : Nat}

-- A server counts on a backup: in its view it is the primary with this backup, and it does not wait
-- for a call of `Forward` that may still be handled.
def State.Counts (s : State) (P B : String) : Prop :=
  ∃ sv ∈ s.servers P, sv.pb.view.primary = P ∧ sv.pb.view.backup = B ∧
    ∀ c ∈ sv.lock.forward, s.calls.pending c = none

instance : Decidable (s.Counts P B) :=
  inferInstanceAs <| Decidable <| ∃ _ ∈ _, _

-- The view that the view server has sent to a server that waits for it.
def State.told (s : State) (sv : Server) : Option View :=
  match sv.lock with
  | .ping c =>
    match s.calls.reply c with
    | some (some (.ping v)) => some v
    | _                     => none
  | .free | .tick _ | .putAppend _ _ _ _ => none

namespace State

theorem servers_setServer {sv' : Option Server} (h : (s.setServer q sv').servers p = some sv) :
    p = q ∧ sv' = some sv ∨ p ≠ q ∧ s.servers p = some sv := by
  by_cases hp : p = q
  case pos =>
    subst hp
    exact .inl ⟨rfl, by simpa [setServer] using h⟩
  case neg => exact .inr ⟨hp, by simpa [setServer, hp] using h⟩

end State

-- The request of `Forward` is under way until it is handled.
theorem Step.pending_forward (h : Step s a s' es) (hs : s.Sound)
    (hp : s.calls.pending c = some (.forward q args)) : s'.calls.pending c = some (.forward q args) ∨
      a = .handle c ∧ es = [.merge c q args] := by
  have send {r} (h : s.calls.pending c = some (.forward q args)) : (s.calls.send r).pending c = some (.forward q args) :=
    Calls.pending_eq_some.mpr <| Calls.send_getElem? <| Calls.pending_eq_some.mp h
  have answer {i r rep} (hi : s.calls.pending i = some r) (hn : r ≠ .forward q args) :
      (s.calls.answer i rep).pending c = some (.forward q args) := by
    have hne : c ≠ i := by
      rintro rfl
      exact hn <| Option.some.inj <| hi.symm.trans hp
    exact Calls.pending_eq_some.mpr <| Calls.answer_getElem?_ne hne |>.trans <| Calls.pending_eq_some.mp hp
  cases h
  case get | putAppend =>
    simp only [State.beginOp]
    split <;> exact .inl <| send hp
  case tick | viewForward | updateView | retry => exact .inl <| send hp
  case handlePing hi | handleGet hi _ | refuse hi _ _ | execute hi _ _ _ =>
    exact .inl <| answer hi fun he => by cases he
  case replicate hi _ _ _ =>
    have ha := @answer _ _ none hi fun he => by cases he
    exact .inl <| Calls.pending_eq_some.mpr <| Calls.send_getElem? <| Calls.pending_eq_some.mp ha
  case merge i p args' _ hi _ =>
    by_cases he : c = i
    case neg =>
      exact .inl <| Calls.pending_eq_some.mpr <| Calls.answer_getElem?_ne he |>.trans <| Calls.pending_eq_some.mp hp
    case pos =>
      subst he
      cases hi.symm.trans hp
      exact .inr ⟨rfl, rfl⟩
  case replicated client _ _ _ hi _ =>
    have hne : c ≠ client := by
      rintro rfl
      cases (Calls.pending_eq_some.mp hp).symm.trans (hs.server _ _ hi).lock.right
    exact .inl <| Calls.pending_eq_some.mpr <| Calls.answer_getElem?_ne hne |>.trans <| Calls.pending_eq_some.mp hp
  all_goals exact .inl hp

-- How it comes that a server counts on its backup after a step.
inductive Counting (s : State) (a : Action) (es : List Event) (P B : String) : Prop
  | kept (counts : s.Counts P B)
  -- A call of `Forward` has failed, which may not have been handled.
  | failed {sv : Server} {c : Nat} (up : s.servers P = some sv) (primary : sv.pb.view.primary = P)
    (backup : sv.pb.view.backup = B) (waits : sv.lock.forward = some c) (pending : (s.calls.pending c).isSome)
    (fails : a = .fail P) (quiet : es.filterMap Event.replicas = [])
  -- The call of `Forward` for which it waits has been handled.
  | merged {sv : Server} {c : Nat} (up : s.servers P = some sv) (primary : sv.pb.view.primary = P)
    (waits : sv.lock.forward = some c) (merges : es = [.merge c B args])
  -- It has not been primary before it has learned of the view with its backup.
  | entered {sv : Server} {v : View} (up : s.servers P = some sv) (other : sv.pb.view.primary ≠ P)
    (told : s.told sv = some v) (primary : v.primary = P) (backup : v.backup = B) (receives : a = .receive P)
    (quiet : es.filterMap Event.replicas = [])

-- A server that has not changed may wait for a call that has been handled.
theorem Step.counting_of_up (h : Step s a s' es) (hs : s.Sound) (hup : s.servers P = some sv)
    (hp : sv.pb.view.primary = P) (hbk : sv.pb.view.backup = B)
    (hf : ∀ c, sv.lock.forward = some c → s'.calls.pending c = none) : Counting s a es P B := by
  cases hw : sv.lock.forward
  case none => exact .kept ⟨sv, hup, hp, hbk, by simp [hw]⟩
  case some c =>
    cases hpend : s.calls.pending c
    case none => exact .kept ⟨sv, hup, hp, hbk, by simp [hw, hpend]⟩
    case some r =>
      obtain ⟨_, hcall⟩ := (hs.server _ _ hup).lock.forward hw
      cases (Calls.pending_eq_some.mp hpend).symm.trans hcall
      rcases h.pending_forward hs hpend with hpend' | ⟨_, hes⟩
      case inl => cases (hf c hw).symm.trans hpend'
      case inr hes =>
        subst hbk
        exact .merged hup hp hw hes

-- It may no longer wait since the call has failed.
theorem Counting.of_outcome (hi : s.servers P = some ⟨pb, lock⟩) (hl : lock.forward = some c)
    (hp : pb.view.primary = P) (hbk : pb.view.backup = B) (hq : es.filterMap Event.replicas = [])
    (ho : s.Outcome c (.receive P) (.fail P) a result) : Counting s a es P B := by
  cases hpend : s.calls.pending c
  case none => exact .kept ⟨_, hi, hp, hbk, by simp [hl, hpend]⟩
  case some r =>
    cases ho
    case failed          => exact .failed hi hp hbk hl (by simp [hpend]) rfl hq
    case received hreply =>
      obtain ⟨_, hcall⟩ := Calls.reply_eq_some.mp hreply
      cases (Calls.pending_eq_some.mp hpend).symm.trans hcall

-- A primary that goes on to a view without forwarding had the backup before.
theorem Counting.of_view (hs : s.Sound) (hb : B ≠ "") (hi : s.servers P = some ⟨pb, .ping c⟩)
    (hkeep : ¬pb.NeedForward (Reply.view ⟨0, "", ""⟩ result)) (hp : (Reply.view ⟨0, "", ""⟩ result).primary = P)
    (hbk : (Reply.view ⟨0, "", ""⟩ result).backup = B) (hq : es.filterMap Event.replicas = [])
    (ho : s.Outcome c (.receive P) (.fail P) a result) : Counting s a es P B := by
  rcases Reply.view_eq_or ⟨0, "", ""⟩ result with hd | hr
  case inl =>
    rw [hd] at hbk
    exact absurd hbk.symm hb
  case inr =>
    cases ho
    case failed => cases hr
    case received hreply =>
      have hreply := Option.some.inj hr ▸ hreply
      by_cases hprim : pb.view.primary = P
      case neg => exact .entered hi hprim (by simp [State.told, hreply]) hp hbk rfl hq
      case pos =>
        have hold := not_not.mp fun hne => hkeep ⟨by rwa [hbk], hne, (hs.isPrimary_iff hi).mpr hprim⟩
        exact .kept ⟨_, hi, hprim, hold.symm.trans hbk, fun _ he => by cases he⟩

theorem Step.counting (h : Step s a s' es) (hs : s.Sound) (hb : B ≠ "") (hk : s'.Counts P B) :
    Counting s a es P B := by
  obtain ⟨sv, hup, hp, hbk, hf⟩ := hk
  have same (hup : s.servers P = some sv) : Counting s a es P B := h.counting_of_up hs hup hp hbk hf
  have other {q : String} {sv' : Option Server} (hup : (s.setServer q sv').servers P = some sv)
      (hq : P = q → sv' = some sv → Counting s a es P B) : Counting s a es P B := by
    rcases State.servers_setServer hup with ⟨he, hsv⟩ | ⟨_, h⟩
    case inl => exact hq he hsv
    case inr => exact same h
  cases h
  case get | putAppend =>
    simp only [State.beginOp] at hup
    split at hup <;> exact same hup
  case start hn _ =>
    refine other hup fun he hsv => absurd ?_ hn
    cases hsv
    exact he ▸ hp.symm
  case crash => exact other hup fun _ hsv => by cases hsv
  case tick hi | merge hi =>
    refine other hup fun he hsv => ?_
    subst he
    cases hsv
    exact .kept ⟨_, hi, hp, hbk, fun _ he => by cases he⟩
  case execute ha =>
    refine other hup fun _ hsv => ?_
    cases hsv
    have hbk : _ = B := PBServer.execute_view ▸ hbk
    exact absurd (fun he => hb <| hbk.symm.trans he) ha
  case replicate | viewForward =>
    refine other hup fun _ hsv => ?_
    cases hsv
    cases (hf _ rfl).symm.trans Calls.pending_send_length
  case view hi hkeep ho =>
    refine other hup fun he hsv => ?_
    subst he
    cases hsv
    exact .of_view hs hb hi hkeep hp hbk rfl ho
  case forwarded hi ho | replicated hi ho =>
    refine other hup fun he hsv => ?_
    subst he
    cases hsv
    exact .of_outcome hi rfl hp hbk rfl ho
  all_goals exact same hup

end PBService
