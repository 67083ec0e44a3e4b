import LabSystems.MapReduce.Master

namespace MapReduce

-- What a step can do, with the guards under which it does it.
inductive Step (mr : MapReduce) (s : State) : Action → State → List Event → Prop
  | register :
    Step mr s (.register w) { s with handlers := s.handlers ++ [⟨w, true⟩] } [.register w]
  | spawn (main : s.main = .spawn t i) (lt : i < mr.numJobs t) :
    Step mr s .main
      { s with tasks := Function.update s.tasks t (s.tasks t ++ [.waiting]), main := .spawn t (i + 1) } []
  | spawned (main : s.main = .spawn t i) (all : ¬i < mr.numJobs t) :
    Step mr s .main { s with main := .collect t 0 } []
  | collect (main : s.main = .collect t i) (lt : i < mr.numJobs t) (chan : s.chan t = k :: c) :
    Step mr s .main { s with chan := Function.update s.chan t c, main := .collect t (i + 1) } []
  | closeMap (main : s.main = .collect .map i) (all : ¬i < mr.nMap) :
    Step mr s .main { s with main := .spawn .reduce 0 } []
  | closeReduce (main : s.main = .collect .reduce i) (all : ¬i < mr.nReduce) :
    Step mr s .main { s with main := .killWorkers } [.killWorkers]
  | receive (task : (s.tasks t)[i]? = some .waiting) (offer : s.offer src = some w) :
    Step mr s (.receive t i src) ((s.release src).setTask t i (.calling w)) [.sent w (mr.job t i)]
  | succeed (task : (s.tasks t)[i]? = some (.calling w)) :
    Step mr s (.reply t i true) (s.setTask t i (.succeeded w)) [.succeeded w (mr.job t i)]
  | fail (task : (s.tasks t)[i]? = some (.calling w)) :
    Step mr s (.reply t i false) (s.setTask t i .waiting) [.failed w (mr.job t i)]
  | send (task : (s.tasks t)[i]? = some (.succeeded w)) (isOpen : ¬s.main.Closed t)
    (room : (s.chan t).length < mr.numJobs t) :
    Step mr s (.send t i)
      { s.setTask t i (.returning w) with chan := Function.update s.chan t (s.chan t ++ [i]) } []
  | panic (task : (s.tasks t)[i]? = some (.succeeded w)) (closed : s.main.Closed t) :
    Step mr s (.send t i) { s with main := .panicked } []

variable {mr : MapReduce} {s s' : State} {es : List Event}

theorem State.runMain_step (h : s.runMain mr = some (s', es)) : Step mr s .main s' es := by
  unfold runMain at h
  split at h
  case h_1 hm =>
    split at h <;> cases h
    case isTrue hi  => exact .spawn hm hi
    case isFalse hi => exact .spawned hm hi
  case h_2 t i hm =>
    split at h
    case isTrue hi =>
      split at h
      case h_1 => cases h
      case h_2 hc =>
        cases h
        exact .collect hm hi hc
    case isFalse hi =>
      cases t <;> cases h
      case map    => exact .closeMap hm hi
      case reduce => exact .closeReduce hm hi
  all_goals cases h

theorem State.step_step (h : s.step mr a = some (s', es)) : Step mr s a s' es := by
  cases a <;> simp only [step] at h
  case main => exact runMain_step h
  case register =>
    cases h
    exact .register
  case receive =>
    split at h <;> cases h
    exact .receive ‹_› ‹_›
  case reply ok =>
    split at h
    case h_1 ht =>
      cases ok <;> cases h
      case false => exact .fail ht
      case true  => exact .succeed ht
    case h_2 => cases h
  case send =>
    split at h
    case h_1 ht =>
      split at h
      case isTrue hc =>
        cases h
        exact .panic ht hc
      case isFalse ho =>
        split at h <;> cases h
        exact .send ht ho ‹_›
    case h_2 => cases h

theorem Step.of (t : Transition mr) : Step mr t.pre t.act t.post t.events :=
  State.step_step t.valid

end MapReduce
