import Mathlib.Logic.Function.Basic
import Mathlib.Data.List.Basic

-- Replicas of a store that is a map from keys to values. What a replica holds under a key results
-- from a list of updates, the history of the key. Replicas send each other copies of their stores
-- and replace the keys that they receive, so that histories are replaced as a whole.

-- An update determines the values of the keys that it touches, from the values that they had.
class Update (κ ω : Type) (υ : outParam Type) where
  Touches : ω → κ → Prop
  initial : υ
  update  : ω → κ → υ → υ

open Update (Touches)

abbrev Histories (κ ω : Type) :=
  κ → List ω

namespace Histories

variable {κ ω υ : Type} {h h' : Histories κ ω} {op op' : ω} {k : κ}

def empty : Histories κ ω :=
  fun _ => []

-- The received histories take precedence.
def merge (h content : Histories κ ω) : Histories κ ω :=
  fun k => if content k = [] then h k else content k

@[simp]
theorem empty_apply : (empty : Histories κ ω) k = [] :=
  rfl

theorem merge_eq_nil : h.merge h' k = [] ↔ h k = [] ∧ h' k = [] := by
  simp only [merge]
  split <;> simp [*]

theorem mem_merge_of_mem (hm : op ∈ h' k) : op ∈ h.merge h' k := by
  simp [merge, List.ne_nil_of_mem hm, hm]

theorem mem_merge_or (hm : op ∈ h.merge h' k) : op ∈ h k ∨ op ∈ h' k := by
  simp only [merge] at hm
  split at hm
  case isTrue  => exact .inl hm
  case isFalse => exact .inr hm

-- A merge drops an update from a key if the key is received without the update.
theorem mem_merge_iff (hm : op ∈ h k) : op ∈ h.merge h' k ↔ (h' k ≠ [] → op ∈ h' k) := by
  simp only [merge]
  split <;> simp [*]

section

variable [Update κ ω υ]

def value (h : Histories κ ω) (k : κ) : υ :=
  (h k).foldl (fun v op => Update.update op k v) (Update.initial κ ω)

theorem value_of_nil (hn : h k = []) : value h k = Update.initial κ ω := by
  simp [value, hn]

theorem value_merge : (h.merge h').value k = if h' k = [] then h.value k else h'.value k := by
  simp only [value, merge]
  split <;> rfl

variable [∀ op : ω, DecidablePred (Touches op : κ → Prop)]

def execute (h : Histories κ ω) (op : ω) : Histories κ ω :=
  fun k => if Touches op k then h k ++ [op] else h k

@[simp]
theorem mem_execute : op' ∈ h.execute op k ↔ op' ∈ h k ∨ (Touches op k ∧ op' = op) := by
  simp only [execute]
  split <;> simp [*]

theorem execute_eq_nil : h.execute op k = [] ↔ h k = [] ∧ ¬Touches op k := by
  simp only [execute]
  split <;> simp [*]

theorem value_execute : (h.execute op).value k =
    if Touches op k then Update.update op k (h.value k) else h.value k := by
  simp only [value, execute]
  split <;> simp

-- All updates of a list have been applied to the keys that they touch.
def Holds (h : Histories κ ω) (l : List ω) : Prop :=
  ∀ op ∈ l, ∀ k, Touches op k → op ∈ h k

namespace Holds

variable {l l' : List ω}

omit [∀ op : ω, DecidablePred (Touches op : κ → Prop)] in
theorem nil : h.Holds [] :=
  nofun

omit [∀ op : ω, DecidablePred (Touches op : κ → Prop)] in
theorem mono (hl : h.Holds l) (hs : l' ⊆ l) : h.Holds l' :=
  fun op hm => hl op <| hs hm

omit [∀ op : ω, DecidablePred (Touches op : κ → Prop)] in
theorem append (hl : h.Holds l) (hl' : h.Holds l') : h.Holds (l ++ l') :=
  fun op hm => (List.mem_append.mp hm).elim (hl op) (hl' op)

theorem execute (hl : h.Holds l) : (h.execute op).Holds l :=
  fun op' hm k ht => mem_execute.mpr <| .inl <| hl op' hm k ht

theorem executed (hl : h.Holds l) : (h.execute op).Holds (l ++ [op]) := by
  intro op' hm k ht
  cases List.mem_append.mp hm
  case inl hm => exact hl.execute op' hm k ht
  case inr hm =>
    cases List.mem_singleton.mp hm
    exact mem_execute.mpr <| .inr ⟨ht, rfl⟩

omit [∀ op : ω, DecidablePred (Touches op : κ → Prop)] in
theorem merge (hl : h'.Holds l) : (h.merge h').Holds l :=
  fun op hm k ht => mem_merge_of_mem <| hl op hm k ht

end Holds

end

end Histories

-- The histories of all replicas and of the copies that they have sent, and the updates which a
-- replica has executed itself since its start.
structure Replicas (ν κ ω : Type) where
  held : ν → Histories κ ω
  sent : Nat → Histories κ ω
  own  : ν → List ω

namespace Replicas

inductive Action (ν ω : Type)
  | start (p : ν)
  | execute (p : ν) (op : ω)
  | send (c : Nat) (p : ν)
  | merge (c : Nat) (p : ν)

variable {ν κ ω υ : Type} [DecidableEq ν] [Update κ ω υ]
  [∀ op : ω, DecidablePred (Touches op : κ → Prop)]

def init : Replicas ν κ ω where
  held _ := .empty
  sent _ := .empty
  own _  := []

def step (r : Replicas ν κ ω) : Action ν ω → Replicas ν κ ω
  | .start p => { r with
      held := Function.update r.held p .empty
      own  := Function.update r.own p [] }
  | .execute p op => { r with
      held := Function.update r.held p <| (r.held p).execute op
      own  := Function.update r.own p <| r.own p ++ [op] }
  | .send c p  => { r with sent := Function.update r.sent c (r.held p) }
  | .merge c p => { r with held := Function.update r.held p <| (r.held p).merge (r.sent c) }

-- A replica drops updates of a list: it starts afresh, or a copy that misses an update replaces the
-- history of a key that the update has touched.
def Drops (r : Replicas ν κ ω) (p : ν) (l : List ω) : Action ν ω → Prop
  | .start q   => q = p ∧ l ≠ []
  | .merge c q => q = p ∧ ∃ op ∈ l, ∃ k, Touches op k ∧ op ∈ r.held p k ∧ r.sent c k ≠ [] ∧ op ∉ r.sent c k
  | _          => False

section

variable {r : Replicas ν κ ω} {p q : ν} {l l' : List ω} {a : Action ν ω}

omit [DecidableEq ν] [∀ op : ω, DecidablePred (Touches op : κ → Prop)] in
theorem Drops.mono (h : r.Drops p l a) (hs : l ⊆ l') : r.Drops p l' a := by
  cases a
  case start => exact ⟨h.left, fun he => h.right <| List.subset_nil.mp <| he ▸ hs⟩
  case merge =>
    have ⟨hq, op, hm, hk⟩ := h
    exact ⟨hq, op, hs hm, hk⟩
  all_goals exact h

-- A replica keeps holding the updates that it does not drop.
theorem holds_step (hl : (r.held p).Holds l) (hd : ¬r.Drops p l a) : ((r.step a).held p).Holds l := by
  cases a
  case send => exact hl
  case start q =>
    by_cases hq : q = p
    case neg => simpa [step, Ne.symm hq] using hl
    case pos => exact not_not.mp (fun hn => hd ⟨hq, hn⟩) ▸ .nil
  case execute q op =>
    by_cases hq : p = q
    case neg => simpa [step, hq] using hl
    case pos =>
      subst hq
      simpa [step] using hl.execute
  case merge c q =>
    by_cases hq : p = q
    case neg => simpa [step, hq] using hl
    case pos =>
      subst hq
      simp only [step, Function.update_self]
      intro op hm k ht
      have hk := hl op hm k ht
      exact Histories.mem_merge_iff hk |>.mpr fun hn => not_not.mp fun ho => hd ⟨rfl, op, hm, k, ht, hk, hn, ho⟩

-- A replica that drops none of its own updates holds them all.
theorem holds_own_step (hl : (r.held p).Holds (r.own p)) (hd : ∀ c, a = .merge c p → ¬r.Drops p (r.own p) a) :
    ((r.step a).held p).Holds ((r.step a).own p) := by
  cases a
  case send => exact hl
  case start q =>
    by_cases hq : p = q
    case neg => simpa [step, hq] using hl
    case pos => simpa [step, hq] using Histories.Holds.nil
  case execute q op =>
    by_cases hq : p = q
    case neg => simpa [step, hq] using hl
    case pos =>
      subst hq
      simpa [step] using hl.executed
  case merge c q => exact holds_step hl fun h => hd c (by rw [h.left]) h

end

-- A property of histories which all replicas and all copies on their way have.
structure Forall (P : Histories κ ω → Prop) (r : Replicas ν κ ω) : Prop where
  held : ∀ p, P (r.held p)
  sent : ∀ c, P (r.sent c)

namespace Forall

variable {P Q : Histories κ ω → Prop} {r : Replicas ν κ ω} {g : Histories κ ω}

omit [DecidableEq ν] in
theorem init (h : P .empty) : (init : Replicas ν κ ω).Forall P :=
  ⟨fun _ => h, fun _ => h⟩

omit [DecidableEq ν] in
theorem mono (h : r.Forall P) (hp : ∀ h, P h → Q h) : r.Forall Q :=
  ⟨fun p => hp _ <| h.held p, fun c => hp _ <| h.sent c⟩

omit [Update κ ω υ] [∀ op : ω, DecidablePred (Touches op : κ → Prop)] in
theorem update (h : r.Forall P) (p : ν) (hg : P g) (q : ν) : P (Function.update r.held p g q) := by
  by_cases he : q = p
  case pos =>
    subst he
    simpa using hg
  case neg => simpa [he] using h.held q

theorem start (h : r.Forall P) (he : P .empty) : (r.step (.start p)).Forall P :=
  ⟨h.update p he, h.sent⟩

theorem execute (h : r.Forall P) (he : P ((r.held p).execute op)) :
    (r.step (.execute p op)).Forall P :=
  ⟨h.update p he, h.sent⟩

theorem merge (h : r.Forall P) (hm : P ((r.held p).merge (r.sent c))) :
    (r.step (.merge c p)).Forall P :=
  ⟨h.update p hm, h.sent⟩

theorem send (h : r.Forall P) : (r.step (.send c p)).Forall P := by
  refine ⟨h.held, fun i => ?_⟩
  by_cases he : i = c
  case pos => simpa [Replicas.step, he] using h.held p
  case neg => simpa [Replicas.step, he] using h.sent i

end Forall

end Replicas
