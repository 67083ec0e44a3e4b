import LabSystems.Nsqd.Protocol

namespace Nsqd

open Machine (events)

-- The queues that a command names, if it gets as far as to use them.
def Command.queues (c : Command) : List Queue :=
  let params := NSQD.params c.line
  if params.head? = some (.ofString "SUB") then
    match params with
    | _ :: topicName :: channelName :: _ => [.topic topicName, .channel topicName channelName]
    | _                                  => []
  else if params.head? = some (.ofString "PUB") then
    match readPUB params c.input with
    | .ok (topicName, _, _) => [.topic topicName]
    | .error _              => []
  else
    []

-- A colon in a name is not taken for the colon between two names: there is no topic whose name is
-- made up of the names of a channel, and there are no two channels whose names together are the same
-- three names.
structure Separate (qs : List Queue) : Prop where
  topic   : ∀ t c, .channel t c ∈ qs → .topic (getBackendName t c) ∉ qs
  channel : ∀ t m c, .channel t (getBackendName m c) ∈ qs → .channel (getBackendName t m) c ∉ qs

-- No two queues have the same name.
def Distinct (opened : List (Queue × Bytes)) : Prop :=
  ∀ o ∈ opened, ∀ o' ∈ opened, o.1 ≠ o'.1 → o.2 ≠ o'.2

section

variable {t m c t' c' : Bytes} {qs : List Queue}

theorem getBackendName_assoc : getBackendName (getBackendName t m) c = getBackendName t (getBackendName m c) := by
  simp only [getBackendName, List.append_assoc]

theorem getBackendName_ne : getBackendName t c ≠ t := by
  intro h
  have hl := congrArg List.length h
  have hc : (Bytes.ofString ":").length = 1 := rfl
  simp only [getBackendName, List.length_append] at hl
  omega

-- Names that are put together in two ways have a third name between the two colons.
theorem eq_of_getBackendName_eq (h : t ++ .ofString ":" ++ c = t' ++ .ofString ":" ++ c') (ht : t' = t ++ x) :
    t = t' ∧ c = c' ∨ ∃ m, t' = getBackendName t m ∧ c = getBackendName m c' := by
  subst ht
  simp only [List.append_assoc] at h
  replace h := List.append_cancel_left h
  cases x
  case nil      => exact .inl ⟨(List.append_nil t).symm, List.append_cancel_left h⟩
  case cons b m =>
    have ⟨hb, hc⟩ := List.cons.inj h
    refine .inr ⟨m, ?_, hc.trans (List.append_assoc ..).symm⟩
    rw [getBackendName, ← hb, List.append_assoc]
    rfl

theorem getBackendName_eq_iff : getBackendName t c = getBackendName t' c' ↔ t = t' ∧ c = c' ∨
    (∃ m, t' = getBackendName t m ∧ c = getBackendName m c') ∨ ∃ m, t = getBackendName t' m ∧ c' = getBackendName m c := by
  constructor
  case mp =>
    intro h
    have hs := h
    simp only [getBackendName, List.append_assoc] at hs
    rcases List.append_eq_append_iff.mp hs with ⟨x, hx, _⟩ | ⟨x, hx, _⟩
    case inl => exact (eq_of_getBackendName_eq h hx).imp_right .inl
    case inr => exact (eq_of_getBackendName_eq h.symm hx).imp (fun h => ⟨h.left.symm, h.right.symm⟩) .inr
  case mpr =>
    rintro (⟨rfl, rfl⟩ | ⟨m, rfl, rfl⟩ | ⟨m, rfl, rfl⟩)
    · rfl
    · exact getBackendName_assoc.symm
    · exact getBackendName_assoc

theorem backendName_ne_iff : (∀ q ∈ qs, ∀ q' ∈ qs, q ≠ q' → q.backendName ≠ q'.backendName) ↔ Separate qs := by
  constructor
  case mp =>
    intro h
    constructor
    case topic   => exact fun t c hc ht => h _ hc _ ht nofun rfl
    case channel =>
      intro t m c hc hc'
      refine h _ hc _ hc' (fun he => ?_) getBackendName_assoc.symm
      exact getBackendName_ne (Queue.channel.inj he).left.symm
  case mpr =>
    intro h q hq q' hq' hn he
    cases q <;> cases q'
    case topic.topic => exact hn <| congrArg Queue.topic he
    case topic.channel t t' c' =>
      cases he
      exact h.topic _ _ hq' hq
    case channel.topic =>
      cases he
      exact h.topic _ _ hq hq'
    case channel.channel t c t' c' =>
      rcases getBackendName_eq_iff.mp he with ⟨rfl, rfl⟩ | ⟨m, rfl, rfl⟩ | ⟨m, rfl, rfl⟩
      · exact hn rfl
      · exact h.channel _ _ _ hq hq'
      · exact h.channel _ _ _ hq' hq

end

namespace NSQD

variable {n : NSQD} {q : Queue} {qs qs' : List Queue} {r r' : NSQD × List (Queue × Bytes)}

-- What a command does: it opens the queues that it names and that are not open.
structure Opens (n : NSQD) (qs : List Queue) (r : NSQD × List (Queue × Bytes)) : Prop where
  opened : ∃ new, r.1.queues = n.queues ++ new ∧ r.2 = new.map fun q => (q, q.backendName)
  mem    : ∀ q, q ∈ r.1.queues ↔ q ∈ n.queues ∨ q ∈ qs

theorem Opens.none : Opens n [] (n, []) :=
  ⟨⟨[], by simp⟩, by simp⟩

theorem Opens.append (h : Opens n qs r) (h' : Opens r.1 qs' r') : Opens n (qs ++ qs') (r'.1, r.2 ++ r'.2) := by
  have ⟨⟨new, hn, ho⟩, hm⟩ := h
  have ⟨⟨new', hn', ho'⟩, hm'⟩ := h'
  refine ⟨⟨new ++ new', ?_, ?_⟩, fun q => ?_⟩
  · rw [hn', hn, List.append_assoc]
  · rw [ho, ho', List.map_append]
  · rw [hm', hm, List.mem_append, or_assoc]

theorem opens_create : Opens n [q] (n.create q) := by
  unfold create
  split
  case isTrue h =>
    refine ⟨⟨[], by simp⟩, fun q' => ?_⟩
    rw [List.mem_singleton]
    exact (or_iff_left_of_imp fun he => he ▸ h).symm
  case isFalse => exact ⟨⟨[q], rfl, rfl⟩, fun q' => List.mem_append⟩

theorem opens_exec (c : Command) : Opens n c.queues (n.exec (params c.line) c.input) := by
  unfold exec Command.queues
  dsimp only
  split_ifs
  case pos =>
    unfold sub
    rcases params c.line with _ | ⟨_, _ | ⟨topicName, _ | ⟨channelName, _⟩⟩⟩
    case cons.cons.cons => exact opens_create.append opens_create
    all_goals exact .none
  case pos =>
    unfold pub
    cases readPUB (params c.line) c.input
    case error => exact .none
    case ok    => exact opens_create
  case neg => exact .none

end NSQD

variable {ts : List nsqd.Transition} {n : NSQD}

-- The queues that are open after a run are those that the commands have named.
theorem opens_of_run (r : nsqd.Run ts n) : NSQD.Opens ⟨[]⟩ (ts.flatMap (·.act.queues)) (n, events ts) := by
  induction r
  case nil         => exact .none
  case snoc t _ hi =>
    have h := NSQD.opens_exec (n := t.pre) t.act
    rw [Option.some.inj t.valid] at h
    rw [List.flatMap_append, List.flatMap_singleton, Machine.events_append, Machine.events_singleton]
    exact hi.append h

-- The queues of a run have different names on disk if, and only if, the names that the commands use
-- can be told apart.
theorem distinct_iff (r : nsqd.Run ts n) : Distinct (events ts) ↔ Separate (ts.flatMap (·.act.queues)) := by
  have ⟨⟨new, hn, ho⟩, hm⟩ := opens_of_run r
  have hq {q} : q ∈ ts.flatMap (·.act.queues) ↔ q ∈ new := by
    rw [← (hm q).trans <| or_iff_right <| List.not_mem_nil]
    exact hn ▸ Iff.rfl
  have ho : events ts = new.map fun q => (q, q.backendName) := ho
  rw [← backendName_ne_iff, ho]
  simp only [Distinct, List.forall_mem_map, hq]

-- A client publishes to one topic, and subscribes to a channel of another one.
def named : List nsqd.Transition × NSQD :=
  Machine.trace _ nsqd.init [⟨.ofString "PUB a:b\r", [0, 0, 0, 1, 120]⟩, ⟨.ofString "SUB a c:d\r", []⟩]

theorem distinct_named : (events named.1).length = 3 ∧ Distinct (events named.1) := by
  have hq : named.1.flatMap (·.act.queues) =
      [.topic (.ofString "a:b"), .topic (.ofString "a"), .channel (.ofString "a") (.ofString "c:d")] := by
    decide +kernel
  have r : nsqd.Run named.1 named.2 := Machine.path_trace ..
  refine ⟨by decide +kernel, (distinct_iff r).mpr ?_⟩
  rw [hq, ← backendName_ne_iff]
  decide

-- The same topic, and a channel that has its name.
def clash : List nsqd.Transition × NSQD :=
  Machine.trace _ nsqd.init [⟨.ofString "PUB a:b\r", [0, 0, 0, 1, 120]⟩, ⟨.ofString "SUB a b\r", []⟩]

theorem not_distinct : events clash.1 =
    [(.topic (.ofString "a:b"), .ofString "a:b"), (.topic (.ofString "a"), .ofString "a"),
      (.channel (.ofString "a") (.ofString "b"), .ofString "a:b")] ∧ ¬Distinct (events clash.1) := by
  have he : events clash.1 = [(.topic (.ofString "a:b"), .ofString "a:b"), (.topic (.ofString "a"), .ofString "a"),
      (.channel (.ofString "a") (.ofString "b"), .ofString "a:b")] := by
    decide +kernel
  exact ⟨he, he ▸ by unfold Distinct; decide⟩

end Nsqd
