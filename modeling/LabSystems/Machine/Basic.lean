import Mathlib.Data.List.Induction

-- A machine is a deterministic, executable step function over states. All nondeterminism of a
-- system (scheduling, message delivery, clock readings) is put into the actions, so that a run is
-- determined by the actions taken. A step also emits the events which an outside observer sees.
structure Machine (σ α ε : Type) where
  init : σ
  step : σ → α → Option (σ × List ε)

namespace Machine

-- A transition carries the proof that the machine can take it.
structure Transition (m : Machine σ α ε) where
  pre    : σ
  act    : α
  events : List ε
  post   : σ
  valid  : m.step pre act = some (post, events)

-- The transitions of a path are listed in the order in which they are taken.
inductive Path (m : Machine σ α ε) (s : σ) : List m.Transition → σ → Prop
  | nil  : Path m s [] s
  | snoc (t : m.Transition) : (Path m s ts t.pre) → Path m s (ts ++ [t]) t.post

abbrev Run (m : Machine σ α ε) (ts : List m.Transition) (s : σ) : Prop :=
  m.Path m.init ts s

-- What an observer has seen along a path.
def events {m : Machine σ α ε} (ts : List m.Transition) : List ε :=
  ts.flatMap (·.events)

variable {m : Machine σ α ε} {s s' : σ} {ts ts₁ ts₂ : List m.Transition} {t : m.Transition}

@[simp]
theorem events_nil : events ([] : List m.Transition) = [] :=
  rfl

@[simp]
theorem events_append : events (ts₁ ++ ts₂) = events ts₁ ++ events ts₂ :=
  List.flatMap_append

@[simp]
theorem events_singleton : events [t] = t.events := by
  simp [events]

theorem mem_events : e ∈ events ts ↔ ∃ t ∈ ts, e ∈ t.events :=
  List.mem_flatMap

namespace Path

theorem single (t : m.Transition) : m.Path t.pre [t] t.post :=
  snoc t nil

theorem trans (p₁ : m.Path s ts₁ s₁) (p₂ : m.Path s₁ ts₂ s₂) : m.Path s (ts₁ ++ ts₂) s₂ := by
  induction p₂
  case nil         => simpa using p₁
  case snoc t _ hi => simpa using hi.snoc t

theorem eq_of_nil (p : m.Path s [] s') : s' = s := by
  generalize hn : ([] : List m.Transition) = ts at p
  cases p
  case nil  => rfl
  case snoc => simp at hn

theorem of_snoc (p : m.Path s (ts ++ [t]) s') : m.Path s ts t.pre ∧ s' = t.post := by
  generalize hn : ts ++ [t] = ts' at p
  cases p
  case nil => simp at hn
  case snoc p =>
    have ⟨h₁, h₂⟩ := List.append_inj' hn rfl
    injection h₂ with h₂
    subst h₁ h₂
    exact ⟨p, rfl⟩

theorem split (p : m.Path s (ts₁ ++ ts₂) s') : ∃ u, m.Path s ts₁ u ∧ m.Path u ts₂ s' := by
  induction ts₂ using List.reverseRecOn generalizing s'
  case nil => exact ⟨_, by simpa using p, nil⟩
  case append_singleton ts₂ t hi =>
    have ⟨p, h⟩ := of_snoc (by simpa using p : m.Path s ((ts₁ ++ ts₂) ++ [t]) s')
    have ⟨u, p₁, p₂⟩ := hi p
    exact ⟨u, p₁, h ▸ p₂.snoc t⟩

-- The path up to and the path after a given transition.
theorem split_cons (p : m.Path s (ts₁ ++ t :: ts₂) s') :
    m.Path s ts₁ t.pre ∧ m.Path t.post ts₂ s' := by
  have ⟨_, p₁, p₂⟩ := split (by simpa using p : m.Path s ((ts₁ ++ [t]) ++ ts₂) s')
  have ⟨p₁, h⟩ := p₁.of_snoc
  exact ⟨p₁, h ▸ p₂⟩

-- The path from the start of a transition to the end of a later one.
theorem between (p : m.Path s (ts₁ ++ t :: ts₂) s') (h : t :: ts₂ = us ++ u :: vs) :
    m.Path t.pre (us ++ [u]) u.post := by
  have p₂ := (single t).trans p.split_cons.right
  rw [List.singleton_append, h] at p₂
  exact p₂.split_cons.left.snoc u

theorem splitAt (p : m.Path s ts s') (h : i < ts.length) :
    m.Path s (ts.take i ++ ts[i] :: ts.drop (i + 1)) s' := by
  rwa [← List.drop_eq_getElem_cons h, List.take_append_drop]

theorem take (p : m.Path s ts s') (h : i < ts.length) : m.Path s (ts.take i) ts[i].pre :=
  (p.splitAt h).split_cons.left

-- The invariant rule for a property of the transitions taken so far and the state they lead to.
theorem history_invariant {I : List m.Transition → σ → Prop} (p : m.Path s ts s') (init : I [] s)
    (step : ∀ ts t, I ts t.pre → I (ts ++ [t]) t.post) : I ts s' := by
  induction p
  case nil         => exact init
  case snoc t _ hi => exact step _ t hi

-- The invariant rule for runs all of whose transitions meet a condition.
theorem invariant_of {I : σ → Prop} {C : m.Transition → Prop} (p : m.Path s ts s') (init : I s)
    (cond : ∀ t ∈ ts, C t) (step : ∀ t, C t → I t.pre → I t.post) : I s' := by
  induction p
  case nil => exact init
  case snoc t _ hi =>
    exact step t (cond t <| by simp) <| hi (fun u hu => cond u <| List.mem_append_left _ hu)

theorem invariant {I : σ → Prop} (p : m.Path s ts s') (init : I s)
    (step : ∀ t : m.Transition, I t.pre → I t.post) : I s' :=
  p.invariant_of (C := fun _ => True) init (fun _ _ => trivial) (fun t _ => step t)

end Path

-- A property holds at every moment of a path.
def Throughout (m : Machine σ α ε) (s : σ) (ts : List m.Transition)
    (P : List m.Transition → σ → Prop) : Prop :=
  ∀ ts₁ u, ts₁ <+: ts → m.Path s ts₁ u → P ts₁ u

theorem throughout_nil {P : List m.Transition → σ → Prop} : m.Throughout s [] P ↔ P [] s := by
  constructor
  case mp => exact fun h => h [] s (List.prefix_refl _) .nil
  case mpr =>
    intro h ts₁ u hp p
    cases List.prefix_nil.mp hp
    exact p.eq_of_nil ▸ h

theorem throughout_snoc {P : List m.Transition → σ → Prop} (p : m.Path s ts t.pre) :
    m.Throughout s (ts ++ [t]) P ↔ m.Throughout s ts P ∧ P (ts ++ [t]) t.post := by
  constructor
  case mp =>
    intro h
    exact ⟨fun ts₁ u hp => h ts₁ u <| hp.trans <| List.prefix_append .., h _ _ (List.prefix_refl _) (p.snoc t)⟩
  case mpr =>
    intro ⟨h, hl⟩ ts₁ u hp p
    cases List.prefix_concat_iff.mp hp
    case inl he =>
      subst he
      exact p.of_snoc.right ▸ hl
    case inr hp => exact h ts₁ u hp p

theorem Throughout.last {P : List m.Transition → σ → Prop} (h : m.Throughout s ts P) (p : m.Path s ts s') :
    P ts s' :=
  h ts s' (List.prefix_refl _) p

-- The transitions that the machine takes for a list of actions, up to the first disabled one.
def trace (m : Machine σ α ε) (s : σ) : List α → List m.Transition × σ
  | []      => ([], s)
  | a :: as =>
    match h : m.step s a with
    | none          => ([], s)
    | some (s', es) => (⟨s, a, es, s', h⟩ :: (m.trace s' as).1, (m.trace s' as).2)

theorem path_trace (m : Machine σ α ε) (s : σ) (as : List α) :
    m.Path s (m.trace s as).1 (m.trace s as).2 := by
  induction as generalizing s
  case nil => exact .nil
  case cons a as hi =>
    simp only [trace]
    split
    case h_1       => exact .nil
    case h_2 s' es h => exact (Path.single ⟨s, a, es, s', h⟩).trans <| hi s'

end Machine
