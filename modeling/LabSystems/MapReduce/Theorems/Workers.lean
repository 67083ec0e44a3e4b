import LabSystems.MapReduce.Theorems.Step
import LabSystems.Tokens.Basic

namespace MapReduce

variable {mr : MapReduce} {s s' : State} {es es' : List Event} {t : JobType} {i : Nat} {src p q : Sender}
  {task old : Task} {w : String}

def Event.registered : Event → Option String
  | register w => some w
  | _          => none

-- The workers that have registered, in order.
def registered (es : List Event) : List String :=
  es.filterMap Event.registered

theorem registered_append : registered (es ++ es') = registered es ++ registered es' :=
  List.filterMap_append

def Task.worker : Task → Option String
  | calling w | succeeded w | returning w => some w
  | _ => none

-- The worker that a goroutine of the master has.
def State.holds (s : State) : Sender → Option String
  | .handler k => s.offer (.handler k)
  | .task t i  => (s.tasks t)[i]?.bind Task.worker

namespace State

theorem holds_of_offer (h : s.offer src = some w) : s.holds src = some w := by
  cases src
  case handler => exact h
  case task =>
    simp only [offer] at h
    split at h <;> cases h
    case h_1 ht => simp [holds, ht, Task.worker]

theorem holds_setTask_ne (h : p ≠ .task t i) : (s.setTask t i task).holds p = s.holds p := by
  cases p
  case handler => rfl
  case task t' j =>
    by_cases ht : t' = t
    case neg => simp [holds, setTask, ht]
    case pos =>
      subst ht
      have hj : i ≠ j := fun hj => h <| hj ▸ rfl
      simp [holds, setTask, hj]

theorem holds_setTask (h : (s.tasks t)[i]? = some old) : (s.setTask t i task).holds (.task t i) = task.worker := by
  have hi : i < (s.tasks t).length := (List.getElem?_eq_some_iff.mp h).choose
  simp [holds, setTask, hi]

-- A goroutine without a worker gets one, or a goroutine keeps its worker or loses it.
theorem holds_of_setTask (h : (s.tasks t)[i]? = some old) (hw : (s.setTask t i task).holds p = some w) :
    s.holds p = some w ∨ p = .task t i ∧ task.worker = some w := by
  by_cases hp : p = .task t i
  case neg => exact .inl <| holds_setTask_ne hp ▸ hw
  case pos => exact .inr ⟨hp, holds_setTask h ▸ hp ▸ hw⟩

theorem holds_handler : s.holds (.handler i) = some w ↔ s.handlers[i]? = some ⟨w, true⟩ := by
  simp only [holds, offer]
  split <;> simp_all

theorem release_holds (h : s.offer src = some w) : (s.release src).holds src = none := by
  cases src
  case handler k =>
    have hk := holds_handler.mp h
    simp [holds, offer, release, hk]
  case task =>
    simp only [offer] at h
    split at h <;> cases h
    case h_1 ht => exact holds_setTask ht

theorem holds_of_release {v : String} (h : s.offer src = some w) (hv : (s.release src).holds p = some v) :
    s.holds p = some v := by
  have hne : p ≠ src := by
    rintro rfl
    cases (release_holds h).symm.trans hv
  cases src
  case task => exact holds_setTask_ne hne ▸ hv
  case handler k =>
    cases p
    case task      => exact hv
    case handler j =>
      have hj : k ≠ j := fun hj => hne <| hj ▸ rfl
      rw [holds_handler] at hv ⊢
      simpa [release, hj] using hv

-- The goroutine that receives a worker is not the one that sends it.
theorem receive_tasks (ht : (s.tasks t)[i]? = some .waiting) (h : s.offer src = some w) :
    src ≠ .task t i ∧ ((s.release src).tasks t)[i]? = some .waiting := by
  have hne : src ≠ .task t i := by
    rintro rfl
    simp [offer, ht] at h
  refine ⟨hne, ?_⟩
  cases src
  case handler => exact ht
  case task t' j =>
    by_cases he : t = t'
    case neg => simpa [release, setTask, he] using ht
    case pos =>
      subst he
      have hj : j ≠ i := fun hj => hne <| hj ▸ rfl
      simpa [release, setTask, hj] using ht

end State

-- No worker is at two goroutines, and all of them have registered.
structure Workers (es : List Event) (s : State) : Prop where
  exclusive : Tokens.Exclusive s.holds
  known     : ∀ p w, s.holds p = some w → w ∈ registered es

namespace Workers

theorem mono (h : Workers es s) (hs : ∀ p w, s'.holds p = some w → s.holds p = some w) : Workers (es ++ es') s' where
  exclusive      := h.exclusive.mono hs
  known p w hp := by
    rw [registered_append]
    exact List.mem_append_left _ <| h.known p w <| hs p w hp

theorem step (h : Workers es s) (hs : Step mr s a s' es') (hd : (registered (es ++ es')).Nodup) :
    Workers (es ++ es') s' := by
  have task {t i old task} (ht : (s.tasks t)[i]? = some old) (hw : ∀ w, task.worker = some w → old.worker = some w) :
      Workers (es ++ es') (s.setTask t i task) := by
    refine h.mono fun p w hp => ?_
    cases State.holds_of_setTask ht hp
    case inl hp => exact hp
    case inr hp => simp [hp.left, State.holds, ht, hw w hp.right]
  cases hs
  case spawned | collect | closeMap | closeReduce | panic => exact h.mono fun _ _ => id
  case succeed ht => exact task ht fun _ => id
  case fail ht    => exact task ht fun _ hw => by cases hw
  case send w ht _ _ =>
    have hw := task ht fun v (hv : (Task.returning w).worker = some v) => hv
    exact ⟨hw.exclusive, hw.known⟩
  case spawn t _ _ _ =>
    refine h.mono fun p w hp => ?_
    cases p
    case handler => exact hp
    case task t' j =>
      by_cases he : t' = t
      case neg => simpa [State.holds, he] using hp
      case pos =>
        subst he
        simp only [State.holds, Function.update_self, List.getElem?_append] at hp ⊢
        split at hp
        case isTrue  => exact hp
        case isFalse => cases hj : j - (s.tasks t').length <;> simp [hj, Task.worker] at hp
  case register w =>
    -- The worker has not registered before.
    have hn p : s.holds p ≠ some w := by
      intro hp
      rw [registered_append] at hd
      exact List.nodup_append.mp hd |>.right.right _ (h.known p w hp) _ (by simp [registered, Event.registered]) rfl
    have hs p v (hp : State.holds { s with handlers := s.handlers ++ [⟨w, true⟩] } p = some v) :
        s.holds p = some v ∨ p = .handler s.handlers.length ∧ v = w := by
      cases p
      case task      => exact .inl hp
      case handler j =>
        rw [State.holds_handler] at hp ⊢
        simp only [List.getElem?_append] at hp
        split at hp
        case isTrue  => exact .inl hp
        case isFalse =>
          have ⟨hj, hv⟩ := List.getElem?_eq_some_iff.mp hp
          simp only [List.length_singleton] at hj
          refine .inr ⟨congrArg _ <| by omega, ?_⟩
          simpa [show j - s.handlers.length = 0 by omega] using hv.symm
    refine ⟨h.exclusive.add hs hn, fun p v hp => ?_⟩
    rw [registered_append]
    cases hs p v hp
    case inl hp => exact List.mem_append_left _ <| h.known p v hp
    case inr hp => simp [hp.right, registered, Event.registered]
  case receive t i src w ht ho =>
    have ⟨hne, ht'⟩ := State.receive_tasks ht ho
    have hs p v (hp : ((s.release src).setTask t i (.calling w)).holds p = some v) :
        s.holds p = some v ∨ p = .task t i ∧ s.holds src = some v := by
      cases State.holds_of_setTask ht' hp
      case inl hp => exact .inl <| State.holds_of_release ho hp
      case inr hp => exact .inr ⟨hp.left, State.holds_of_offer ho |>.trans hp.right⟩
    refine ⟨h.exclusive.move hs <| State.holds_setTask_ne hne |>.trans <| State.release_holds ho, fun p v hp => ?_⟩
    rw [registered_append]
    exact List.mem_append_left _ <| (hs p v hp).elim (h.known p v) fun hp => h.known src v hp.right

end Workers

theorem workers_of_run {ts : List (Transition mr)} (r : (master mr).Run ts s)
    (hd : (registered <| Machine.events ts).Nodup) : Workers (Machine.events ts) s := by
  induction r
  case nil =>
    have hn : (master mr).init.holds = fun _ => none := by
      funext p
      cases p <;> rfl
    exact ⟨hn ▸ .empty, fun p w hp => by simp [hn] at hp⟩
  case snoc t _ hi =>
    rw [Machine.events_append, Machine.events_singleton] at hd ⊢
    have hn := List.nodup_append.mp (registered_append ▸ hd) |>.left
    exact (hi hn).step (.of t) hd

end MapReduce
