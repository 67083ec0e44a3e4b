import LabSystems.MapReduce.Theorems.Workers

namespace MapReduce

variable {mr : MapReduce} {s s' : State} {es es' : List Event} {t t' : JobType} {i j : Nat} {src : Sender}
  {task old : Task} {w : String}

def Event.success : Event → Option DoJobArgs
  | succeeded _ job => some job
  | _               => none

-- The jobs whose calls have returned without an error, in order.
def successes (es : List Event) : List DoJobArgs :=
  es.filterMap Event.success

theorem successes_append : successes (es ++ es') = successes es ++ successes es' :=
  List.filterMap_append

theorem mem_successes {job : DoJobArgs} : job ∈ successes es ↔ ∃ w, .succeeded w job ∈ es := by
  rw [successes, List.mem_filterMap]
  constructor
  case mp =>
    intro ⟨e, he, hj⟩
    cases e <;> cases hj
    exact ⟨_, he⟩
  case mpr => exact fun ⟨w, h⟩ => ⟨_, h, rfl⟩

theorem job_inj : mr.job t i = mr.job t' j ↔ t = t' ∧ i = j := by
  constructor
  case mp =>
    intro h
    injection h
    exact ⟨‹_›, ‹_›⟩
  case mpr => exact fun ⟨ht, hi⟩ => ht ▸ hi ▸ rfl

-- The goroutine has sent its index.
def Task.sent : Task → Bool
  | returning _ | returned => true
  | _                      => false

-- The call of the goroutine has returned without an error.
def Task.done : Task → Bool
  | succeeded _ | returning _ | returned => true
  | _                                    => false

theorem Task.done_of_sent (h : sent task) : task.done := by
  cases task <;> first | rfl | cases h

namespace Main

-- How many goroutines of a phase have been started.
def spawned (mr : MapReduce) : Main → JobType → Nat
  | spawn .map i, .map | spawn .reduce i, .reduce     => i
  | spawn .map _, .reduce | collect .map _, .reduce   => 0
  | _, t                                              => mr.numJobs t

-- How many indices of a phase have been received.
def received (mr : MapReduce) : Main → JobType → Nat
  | collect .map i, .map | collect .reduce i, .reduce => i
  | killWorkers, t                                    => mr.numJobs t
  | spawn .reduce _, .map | collect .reduce _, .map   => mr.nMap
  | _, _                                              => 0

theorem received_of_closed {m : Main} (h : m.Closed t) : m.received mr t = mr.numJobs t := by
  cases m
  case spawn t' _ | collect t' _ => cases t <;> cases t' <;> first | rfl | cases h
  case killWorkers => cases t <;> rfl
  case panicked    => cases t <;> cases h

-- The goroutines of the reduce phase are started when the channel of the map phase is closed.
theorem closed_of_spawned {m : Main} (h : 0 < m.spawned mr .reduce) (hm : m ≠ panicked) : m.Closed .map := by
  cases m
  case spawn t _ | collect t _ =>
    cases t
    case map    => cases h
    case reduce => trivial
  case killWorkers => trivial
  case panicked    => exact absurd rfl hm

theorem spawned_succ : (spawn t (i + 1)).spawned mr t' = (spawn t i).spawned mr t' + if t' = t then 1 else 0 := by
  cases t <;> cases t' <;> rfl

theorem received_succ :
    (collect t (i + 1)).received mr t' = (collect t i).received mr t' + if t' = t then 1 else 0 := by
  cases t <;> cases t' <;> rfl

theorem received_spawn : (spawn t i).received mr t' = (spawn t j).received mr t' := by
  cases t <;> cases t' <;> rfl

theorem spawned_collect : (collect t i).spawned mr t' = (collect t j).spawned mr t' := by
  cases t <;> cases t' <;> rfl

theorem spawned_all : (collect t i).spawned mr t' = (spawn t (mr.numJobs t)).spawned mr t' := by
  cases t <;> cases t' <;> rfl

theorem received_zero : (collect t 0).received mr t' = (spawn t i).received mr t' := by
  cases t <;> cases t' <;> rfl

end Main

namespace State

-- The goroutine of a job exists and its call has returned without an error.
def done (s : State) (t : JobType) (i : Nat) : Bool :=
  (s.tasks t)[i]?.any Task.done

theorem tasks_setTask_length : ((s.setTask t i task).tasks t').length = (s.tasks t').length := by
  by_cases h : t' = t
  case pos => simp [setTask, h]
  case neg => simp [setTask, h]

theorem countP_setTask (task : Task) (t' : JobType) (h : (s.tasks t)[i]? = some old) :
    ((s.setTask t i task).tasks t').countP Task.sent + (if t' = t then old.sent.toNat else 0) =
    (s.tasks t').countP Task.sent + if t' = t then task.sent.toNat else 0 := by
  by_cases ht : t' = t
  case neg => simp [setTask, ht]
  case pos =>
    subst ht
    obtain ⟨hi, ho⟩ := List.getElem?_eq_some_iff.mp h
    have hp : old.sent → 0 < (s.tasks t').countP Task.sent := fun hs =>
      List.countP_pos_iff.mpr ⟨old, ho ▸ List.getElem_mem hi, hs⟩
    simp only [setTask, Function.update_self, List.countP_set hi, ho, if_true]
    cases hs : old.sent
    case false => cases task.sent <;> rfl
    case true =>
      have := hp hs
      cases task.sent <;> simp only [Bool.toNat_true, Bool.toNat_false, if_true, Bool.false_eq_true, if_false] <;> omega

theorem done_setTask (task : Task) (t' : JobType) (j : Nat) (h : (s.tasks t)[i]? = some old) :
    (s.setTask t i task).done t' j = if t' = t ∧ j = i then task.done else s.done t' j := by
  have hi := (List.getElem?_eq_some_iff.mp h).choose
  by_cases ht : t' = t
  case neg => simp [done, setTask, ht]
  case pos =>
    subst ht
    by_cases hj : i = j
    case neg => simp [done, setTask, hj, Ne.symm hj]
    case pos =>
      subst hj
      simp [done, setTask, hi]

end State

-- How the goroutines, the channels, the main goroutine and the calls that have succeeded are tied
-- together.
structure Counts (mr : MapReduce) (es : List Event) (s : State) : Prop where
  running  : s.main ≠ .panicked
  spawned  : ∀ t, s.main.spawned mr t ≤ mr.numJobs t
  received : ∀ t, s.main.received mr t ≤ mr.numJobs t
  tasks    : ∀ t, (s.tasks t).length = s.main.spawned mr t
  sent     : ∀ t, (s.tasks t).countP Task.sent = (s.chan t).length + s.main.received mr t
  done     : ∀ t i, (successes es).count (mr.job t i) = (s.done t i).toNat

namespace Counts

theorem init : Counts mr [] State.init where
  running  := nofun
  spawned  := fun t => by cases t <;> exact Nat.zero_le _
  received := fun t => by cases t <;> exact Nat.zero_le _
  tasks    := fun t => by cases t <;> rfl
  sent     := fun t => by cases t <;> rfl
  done     := fun _ _ => rfl

-- All goroutines of a phase have sent their indices when its channel is closed.
theorem sent_of_closed (h : Counts mr es s) (hc : s.main.Closed t) (ht : task ∈ s.tasks t) : task.sent := by
  have hs := h.sent t
  have hl := h.tasks t
  have hb := h.spawned t
  have hr : s.main.received mr t = mr.numJobs t := Main.received_of_closed hc
  have hp := (s.tasks t).countP_le_length (p := Task.sent)
  exact List.countP_eq_length.mp (by omega) task ht

-- The calls of a phase have succeeded once each when all goroutines have been started and all
-- indices received.
theorem succeeded (h : Counts mr es s) (hs : s.main.received mr t = mr.numJobs t) (hi : i < mr.numJobs t) :
    (successes es).count (mr.job t i) = 1 := by
  have hs := h.sent t
  have hl := h.tasks t
  have hb := h.spawned t
  have hp := (s.tasks t).countP_le_length (p := Task.sent)
  have hi : i < (s.tasks t).length := by omega
  have ht := List.countP_eq_length.mp (by omega : (s.tasks t).countP Task.sent = _) _ (List.getElem_mem hi)
  simp [h.done, State.done, hi, Task.done_of_sent ht]

-- A step that changes the main goroutine only.
theorem withMain {m : Main} (h : Counts mr es s) (hm : m ≠ .panicked) (hs : ∀ t, m.spawned mr t = s.main.spawned mr t)
    (hr : ∀ t, m.received mr t = s.main.received mr t) : Counts mr es { s with main := m } where
  running    := hm
  spawned t  := hs t ▸ h.spawned t
  received t := hr t ▸ h.received t
  tasks t    := hs t ▸ h.tasks t
  sent t     := hr t ▸ h.sent t
  done       := h.done

-- Events without a call that succeeds.
theorem quiet (h : Counts mr es s) (hq : successes es' = []) : Counts mr (es ++ es') s where
  running   := h.running
  spawned   := h.spawned
  received  := h.received
  tasks     := h.tasks
  sent      := h.sent
  done      := by simpa [successes_append, hq] using h.done

-- A step of a goroutine that neither sends its index nor gets its answer.
theorem withTask (h : Counts mr es s) (ht : (s.tasks t)[i]? = some old) (hs : task.sent = old.sent)
    (hd : task.done = old.done) : Counts mr es (s.setTask t i task) where
  running   := h.running
  spawned   := h.spawned
  received  := h.received
  tasks t'  := State.tasks_setTask_length.trans <| h.tasks t'
  sent t'   := by
    have hc := State.countP_setTask task t' ht
    rw [hs] at hc
    exact (Nat.add_right_cancel hc).trans <| h.sent t'
  done t' j := by
    rw [h.done, State.done_setTask _ t' j ht]
    split
    case isFalse => rfl
    case isTrue he => simp [State.done, he, ht, hd]

theorem succeed (h : Counts mr es s) (ht : (s.tasks t)[i]? = some (.calling w)) :
    Counts mr (es ++ [.succeeded w (mr.job t i)]) (s.setTask t i (.succeeded w)) where
  running   := h.running
  spawned   := h.spawned
  received  := h.received
  tasks t'  := State.tasks_setTask_length.trans <| h.tasks t'
  sent t'   :=
    have hc := State.countP_setTask (.succeeded w) t' ht
    (Nat.add_right_cancel hc).trans <| h.sent t'
  done t' j := by
    have hc : (successes [.succeeded w (mr.job t i)]).count (mr.job t' j) = if t' = t ∧ j = i then 1 else 0 := by
      have hj : mr.job t i = mr.job t' j ↔ t' = t ∧ j = i := job_inj.trans <| and_congr eq_comm eq_comm
      simp [successes, Event.success, List.count_singleton, hj]
    rw [successes_append, List.count_append, h.done, hc, State.done_setTask _ t' j ht]
    split
    case isFalse   => rfl
    case isTrue he => simp [State.done, he, ht, Task.done]

theorem release (h : Counts mr es s) (ho : s.offer src = some w) : Counts mr es (s.release src) := by
  cases src
  case handler => exact ⟨h.running, h.spawned, h.received, h.tasks, h.sent, h.done⟩
  case task t i =>
    simp only [State.offer] at ho
    split at ho <;> cases ho
    case h_1 ht =>
      exact h.withTask ht rfl rfl

theorem spawn (h : Counts mr es s) (hm : s.main = .spawn t i) (hi : i < mr.numJobs t) :
    Counts mr es { s with tasks := Function.update s.tasks t (s.tasks t ++ [.waiting]), main := .spawn t (i + 1) } where
  running     := nofun
  spawned t'  := by
    have := hm ▸ h.spawned t'
    cases t <;> cases t' <;> first | exact hi | exact this
  received t' := Main.received_spawn (j := i + 1) ▸ hm ▸ h.received t'
  tasks t'    := by
    rw [Main.spawned_succ, ← hm, ← h.tasks]
    by_cases ht : t' = t
    case neg => simp [ht]
    case pos => simp [ht]
  sent t'     := by
    rw [Main.received_spawn (j := i), ← hm, ← h.sent]
    by_cases ht : t' = t
    case neg => simp [ht]
    case pos => simp [ht, Task.sent]
  done t' j   := by
    rw [h.done]
    by_cases ht : t' = t
    case neg => simp [State.done, ht]
    case pos =>
      subst ht
      simp only [State.done, Function.update_self, List.getElem?_append]
      split
      case isTrue => rfl
      case isFalse hj =>
        rw [List.getElem?_eq_none <| Nat.le_of_not_lt hj]
        cases j - (s.tasks t').length <;> rfl

theorem collect {c : List Nat} (h : Counts mr es s) (hm : s.main = .collect t i) (hi : i < mr.numJobs t)
    (hc : s.chan t = k :: c) :
    Counts mr es { s with chan := Function.update s.chan t c, main := .collect t (i + 1) } where
  running     := nofun
  spawned t'  := Main.spawned_collect (j := i + 1) ▸ hm ▸ h.spawned t'
  received t' := by
    have := hm ▸ h.received t'
    cases t <;> cases t' <;> first | exact hi | exact this
  tasks t'    := Main.spawned_collect (j := i) ▸ hm ▸ h.tasks t'
  sent t'     := by
    have hs := h.sent t'
    rw [hm] at hs
    rw [Main.received_succ, hs]
    by_cases ht : t' = t
    case neg => simp [ht]
    case pos =>
      subst ht
      simp only [hc, List.length_cons, Function.update_self, if_true]
      omega
  done        := h.done

theorem send (h : Counts mr es s) (ht : (s.tasks t)[i]? = some (.succeeded w)) :
    Counts mr es { s.setTask t i (.returning w) with chan := Function.update s.chan t (s.chan t ++ [i]) } where
  running   := h.running
  spawned   := h.spawned
  received  := h.received
  tasks t'  := State.tasks_setTask_length.trans <| h.tasks t'
  sent t'   := by
    have hs := h.sent t'
    have hc := State.countP_setTask (.returning w) t' ht
    by_cases he : t' = t
    case neg => simpa [he, State.setTask] using hs
    case pos =>
      subst he
      simp only [Task.sent, if_true, Bool.toNat_true, Bool.toNat_false, Function.update_self, List.length_append,
        List.length_singleton] at hc ⊢
      have hm : (s.setTask t' i (.returning w)).main = s.main := rfl
      rw [hm]
      omega
  done t' j := by
    have hd := State.done_setTask (.returning w) t' j ht
    have := h.done t' j
    rw [this]
    congr 1
    refine Eq.trans ?_ hd.symm
    split
    case isFalse => rfl
    case isTrue he => simp [State.done, he, ht, Task.done]

theorem step (h : Counts mr es s) (hs : Step mr s a s' es') : Counts mr (es ++ es') s' := by
  cases hs
  case register w =>
    have hq : Counts mr (es ++ [.register w]) s := h.quiet rfl
    exact ⟨h.running, h.spawned, h.received, h.tasks, h.sent, hq.done⟩
  case receive t i src w ht ho =>
    have hr : Counts mr es ((s.release src).setTask t i (.calling w)) :=
      h.release ho |>.withTask (State.receive_tasks ht ho).right rfl rfl
    exact hr.quiet rfl
  case fail t i w ht =>
    have hf : Counts mr es (s.setTask t i .waiting) := h.withTask ht rfl rfl
    exact hf.quiet rfl
  case succeed ht  => exact h.succeed ht
  case panic ht hc => cases h.sent_of_closed hc <| List.mem_of_getElem? ht
  case closeReduce i hm hi =>
    have hr := h.received .reduce
    rw [hm] at hr
    have he : i = mr.nReduce := Nat.le_antisymm hr <| Nat.le_of_not_lt hi
    have hk : Counts mr es { s with main := .killWorkers } := h.withMain nofun (fun t => by cases t <;> simp [hm, Main.spawned])
      (fun t => by cases t <;> simp [hm, Main.received, he, numJobs])
    exact hk.quiet rfl
  all_goals rw [List.append_nil]
  case spawn hm hi      => exact h.spawn hm hi
  case collect hm hi hc => exact h.collect hm hi hc
  case send ht _ _      => exact h.send ht
  case spawned t i hm hi =>
    have hb := h.spawned t
    rw [hm] at hb
    have he : i = mr.numJobs t := by
      cases t <;> exact Nat.le_antisymm hb <| Nat.le_of_not_lt hi
    exact h.withMain nofun (fun t' => by rw [Main.spawned_all, hm, he]) (fun t' => by rw [hm, Main.received_zero])
  case closeMap i hm hi =>
    have hr := h.received .map
    rw [hm] at hr
    have he : i = mr.nMap := Nat.le_antisymm hr <| Nat.le_of_not_lt hi
    exact h.withMain nofun (fun t => by cases t <;> simp [hm, Main.spawned, numJobs])
      (fun t => by cases t <;> simp [hm, Main.received, he])

end Counts

theorem counts_of_run {ts : List (Transition mr)} (r : (master mr).Run ts s) : Counts mr (Machine.events ts) s := by
  refine r.history_invariant (I := fun ts s => Counts mr (Machine.events ts) s) .init fun ts t h => ?_
  rw [Machine.events_append, Machine.events_singleton]
  exact h.step <| .of t

-- The reduce phase has started.
theorem Counts.closed_of_reduce (h : Counts mr es s) (ht : (s.tasks .reduce)[i]? = some task) : s.main.Closed .map := by
  have hi := (List.getElem?_eq_some_iff.mp ht).choose
  rw [h.tasks] at hi
  exact Main.closed_of_spawned (Nat.zero_lt_of_lt hi) h.running

theorem Step.sent_tasks {job : DoJobArgs} (hs : Step mr s a s' es) (he : .sent w job ∈ es) :
    ∃ t i, job = mr.job t i ∧ (s.tasks t)[i]? = some .waiting := by
  cases hs <;> simp only [List.mem_singleton, List.not_mem_nil] at he <;> try contradiction
  case receive ht ho =>
    injection he with _ hj
    exact ⟨_, _, hj, ht⟩

theorem Step.killWorkers_main (hs : Step mr s a s' es) (he : .killWorkers ∈ es) :
    ∃ i, s.main = .collect .reduce i ∧ ¬i < mr.nReduce := by
  cases hs <;> simp only [List.mem_singleton, List.not_mem_nil] at he <;> try contradiction
  case closeReduce hm hi => exact ⟨_, hm, hi⟩

-- No reduce job is sent before every map job has succeeded, the workers are killed after every job
-- has succeeded exactly once, and no two jobs are outstanding at one worker.
theorem barrier_of_run {ts : List (Transition mr)} (r : (master mr).Run ts s)
    (hd : (registered <| Machine.events ts).Nodup) :
    (∀ us u ws w job, ts = us ++ u :: ws → .sent w job ∈ u.events → job.operation = .reduce →
      ∀ i < mr.nMap, ∃ v, .succeeded v (mr.job .map i) ∈ Machine.events us) ∧
    (∀ us u ws, ts = us ++ u :: ws → .killWorkers ∈ u.events →
      ∀ t, ∀ i < mr.numJobs t, (successes <| Machine.events us).count (mr.job t i) = 1) ∧
    (∀ (w : String) (t t' : JobType) (i j : Nat), (s.tasks t)[i]? = some (.calling w) →
      (s.tasks t')[j]? = some (.calling w) → t = t' ∧ i = j) := by
  refine ⟨?barrier, ?once, ?exclusive⟩
  case barrier =>
    intro us u ws w job hts he ho i hi
    have h := counts_of_run (hts ▸ r).split_cons.left
    have ⟨t, j, hj, ht⟩ := (Step.of u).sent_tasks he
    have ht : (u.pre.tasks .reduce)[j]? = some .waiting := by
      subst hj
      exact (show t = .reduce from ho) ▸ ht
    have hs := h.succeeded (t := .map) (Main.received_of_closed <| h.closed_of_reduce ht) hi
    exact mem_successes.mp <| List.one_le_count_iff.mp <| Nat.le_of_eq hs.symm
  case once =>
    intro us u ws hts he t i hi
    have h := counts_of_run (hts ▸ r).split_cons.left
    have ⟨k, hm, hk⟩ := (Step.of u).killWorkers_main he
    have hr := h.received .reduce
    rw [hm] at hr
    have hk : k = mr.nReduce := Nat.le_antisymm hr <| Nat.le_of_not_lt hk
    exact h.succeeded (by cases t <;> simp [hm, Main.received, hk, numJobs]) hi
  case exclusive =>
    intro w t t' i j hi hj
    have h := workers_of_run r hd |>.exclusive (.task t i) (.task t' j) w
    have he := h (by simp [State.holds, hi, Task.worker]) (by simp [State.holds, hj, Task.worker])
    injection he
    exact ⟨‹_›, ‹_›⟩

-- A worker fails, and its job is sent to another one.
theorem barrier_of_run_failure :
    let mr : MapReduce := ⟨1, 1, "f"⟩
    let r := (master mr).trace .init
      [.register "a", .register "b", .main, .receive .map 0 (.handler 0), .reply .map 0 false,
       .receive .map 0 (.handler 1), .reply .map 0 true, .send .map 0, .main, .main, .main, .main,
       .receive .reduce 0 (.task .map 0), .reply .reduce 0 true, .send .reduce 0, .main, .main, .main]
    Machine.events (r.1.drop 12) =
      [.sent "b" (mr.job .reduce 0), .succeeded "b" (mr.job .reduce 0), .killWorkers] ∧
    (∃ v, .succeeded v (mr.job .map 0) ∈ Machine.events (r.1.take 12)) ∧
    (∀ t, ∀ i < mr.numJobs t, (successes <| Machine.events (r.1.take 17)).count (mr.job t i) = 1) := by
  intro mr r
  have hr : (master mr).Run r.1 r.2 := (master mr).path_trace ..
  have ⟨hb, ho, _⟩ := barrier_of_run hr (by decide)
  have hs {i} (hi : i < r.1.length) : r.1 = r.1.take i ++ r.1[i] :: r.1.drop (i + 1) := by
    rw [← List.drop_eq_getElem_cons, List.take_append_drop]
  exact ⟨by decide, hb _ _ _ "b" (mr.job .reduce 0) (hs (i := 12) (by decide)) (by decide) rfl 0 (by decide),
    ho _ _ _ (hs (i := 17) (by decide)) (by decide)⟩

end MapReduce
