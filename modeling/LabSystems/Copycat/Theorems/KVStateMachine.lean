import LabSystems.Copycat.KVStateMachine
import Mathlib.Data.List.Induction
import Mathlib.Data.List.Nodup

namespace Copycat

variable {K : Type u} {V : Type v}

namespace Operation

def key : Operation K V → K
  | put op    => op.key
  | get op    => op.key
  | delete op => op.key

def Writes (o : Operation K V) (k : K) : Prop :=
  match o with
  | put op    => op.key = k
  | get _     => False
  | delete op => op.key = k

end Operation

-- A `Put` on the key that is followed by no other `Put` or `Delete` on the key.
def Latest (cs : List (Commit (Operation K V))) (k : K) (p : Commit (Put K V)) : Prop :=
  p.operation.key = k ∧ ∃ xs ys, cs = xs ++ ⟨p.index, .put p.operation⟩ :: ys ∧ ∀ c ∈ ys, ¬c.operation.Writes k

-- The value of the latest `Put`, or null.
def Current (cs : List (Commit (Operation K V))) (k : K) (v : Option V) : Prop :=
  (∃ p, Latest cs k p ∧ v = p.operation.value) ∨ (¬∃ p, Latest cs k p) ∧ v = none

-- A `Put` is applied while there is another one for the key.
def Overwrites (cs : List (Commit (Operation K V))) : Prop :=
  ∃ xs c ys p q, cs = xs ++ c :: ys ∧ c.operation = .put p ∧ Latest xs p.key q

namespace KVStateMachine

-- The commits which are not released are those in the storage, and none has been released twice.
structure Exact (cs : List (Commit (Operation K V))) (s : KVStateMachine K V) : Prop where
  held : ∀ n, n ∈ cs.map (·.index) ∧ n ∉ s.released ↔ ∃ k, ∃ p ∈ s.storage k, p.index = n
  once : s.released.Nodup

-- After each commit, the state machine has released what it should, and has returned the current value of the key.
def Correct [DecidableEq K] (cs : List (Commit (Operation K V))) : Prop :=
  ∀ xs c ys, cs = xs ++ c :: ys →
    (run (xs ++ [c])).Exact (xs ++ [c]) ∧ Current xs c.operation.key ((run xs).apply c).2

end KVStateMachine

variable {cs xs ys : List (Commit (Operation K V))} {c : Commit (Operation K V)} {k : K} {p q : Commit (Put K V)}

theorem Latest.nil : ¬Latest [] k p :=
  fun ⟨_, xs, ys, h, _⟩ => by simp at h

-- A commit that writes the key ends what was current, and any other commit keeps it.
theorem Latest.snoc : Latest (xs ++ [c]) k p ↔
    c = ⟨p.index, .put p.operation⟩ ∧ p.operation.key = k ∨ ¬c.operation.Writes k ∧ Latest xs k p where
  mp := by
    intro ⟨hk, as, bs, he, hn⟩
    cases bs using List.reverseRecOn
    case nil =>
      exact .inl ⟨(List.append_inj_right' he rfl |> List.singleton_inj.mp), hk⟩
    case append_singleton bs d _ =>
      rw [← List.cons_append, ← List.append_assoc] at he
      have ⟨he', hd⟩ := List.append_inj' he rfl
      cases List.singleton_inj.mp hd
      exact .inr ⟨hn _ (by simp), hk, as, bs, he', fun c hc => hn c (by simp [hc])⟩
  mpr := by
    intro h
    cases h
    case inl h => exact ⟨h.right, xs, [], by simp [h.left], by simp⟩
    case inr h =>
      have ⟨hw, hk, as, bs, he, hn⟩ := h
      refine ⟨hk, as, bs ++ [c], by simp [he], fun d hd => ?_⟩
      cases List.mem_append.mp hd
      case inl hd => exact hn d hd
      case inr hd => exact List.mem_singleton.mp hd ▸ hw

theorem Latest.mem (h : Latest cs k p) : ⟨p.index, .put p.operation⟩ ∈ cs :=
  have ⟨_, _, _, he, _⟩ := h
  he ▸ List.mem_append_right _ List.mem_cons_self

theorem Latest.index_mem (h : Latest cs k p) : p.index ∈ cs.map (·.index) :=
  List.mem_map_of_mem h.mem

-- The index of a commit tells its key.
theorem Latest.key_eq (hn : (cs.map (·.index)).Nodup) (h : Latest cs k p) (h' : Latest cs k' q) (he : p.index = q.index) :
    k = k' := by
  have hc := List.inj_on_of_nodup_map hn h.mem h'.mem he
  have ⟨_, ho⟩ := Commit.mk.inj hc
  rw [← h.left, ← h'.left, Operation.put.inj ho]

namespace KVStateMachine

variable [DecidableEq K] {s : KVStateMachine K V}

theorem run_snoc : run (xs ++ [c]) = ((run xs).apply c).1 := by
  simp [run]

theorem storage_iff : p ∈ (run cs).storage k ↔ Latest cs k p := by
  induction cs using List.reverseRecOn
  case nil => exact iff_of_false nofun Latest.nil
  case append_singleton cs c hi =>
    rw [run_snoc, Latest.snoc, ← hi]
    obtain ⟨i, o⟩ := c
    obtain ⟨j, a⟩ := p
    cases o
    case get op => simp [apply, KVStateMachine.get, release, Operation.Writes]
    case put op =>
      if h : op.key = k then
        simp only [apply, KVStateMachine.put, store, h, if_true, Operation.Writes, Option.mem_def, Option.some.injEq,
          Commit.mk.injEq, Operation.put.injEq, not_true, false_and, or_false]
        exact ⟨fun e => ⟨e, e.right ▸ h⟩, And.left⟩
      else
        simp only [apply, KVStateMachine.put, store, h, Ne.symm h, if_false, Operation.Writes, Commit.mk.injEq,
          Operation.put.injEq, not_false_eq_true, true_and]
        exact ⟨.inr, fun e => e.resolve_left fun ⟨e, hk⟩ => h <| e.right ▸ hk⟩
    case delete op =>
      have hs : ((apply (run cs) ⟨i, .delete op⟩).1).storage = ((run cs).store op.key none).storage := by
        simp only [apply, KVStateMachine.delete, release]
        cases (run cs).storage op.key <;> rfl
      rw [hs]
      if h : op.key = k then
        simp [store, h, Operation.Writes]
      else
        simp [store, h, Ne.symm h, Operation.Writes]

-- What a method returns is what the storage has for its key.
theorem apply_snd : (s.apply c).2 = valueOf (s.storage c.operation.key) := by
  obtain ⟨i, o⟩ := c
  cases o <;> rfl

theorem current : Current xs c.operation.key ((run xs).apply c).2 := by
  rw [apply_snd]
  cases h : (run xs).storage c.operation.key
  case none   => exact .inr ⟨fun ⟨p, hp⟩ => absurd (storage_iff.mpr hp) (by simp [h]), rfl⟩
  case some p => exact .inl ⟨p, storage_iff.mp h, rfl⟩

-- The commits that a method releases.
def freed (s : KVStateMachine K V) (c : Commit (Operation K V)) : List Nat :=
  match c.operation with
  | .put _     => []
  | .get _     => [c.index]
  | .delete op => ((s.storage op.key).map (·.index)).toList ++ [c.index]

theorem apply_released : (s.apply c).1.released = s.released ++ s.freed c := by
  obtain ⟨i, o⟩ := c
  cases o
  case put op    => simp [apply, KVStateMachine.put, store, freed]
  case get op    => rfl
  case delete op =>
    simp only [apply, KVStateMachine.delete, freed]
    cases s.storage op.key <;> simp [store, release]

-- A released commit has been applied, is released once, and is not in the storage.
structure Released (cs : List (Commit (Operation K V))) (s : KVStateMachine K V) : Prop where
  mem  : ∀ n ∈ s.released, n ∈ cs.map (·.index)
  once : s.released.Nodup
  gone : ∀ k, ∀ p ∈ s.storage k, p.index ∉ s.released

theorem mem_freed (h : n ∈ (run xs).freed c) :
    n = c.index ∨ ∃ op p, c.operation = .delete op ∧ Latest xs op.key p ∧ p.index = n := by
  obtain ⟨i, o⟩ := c
  cases o
  case put op    => cases h
  case get op    => exact .inl <| List.mem_singleton.mp h
  case delete op =>
    cases List.mem_append.mp h
    case inr h => exact .inl <| List.mem_singleton.mp h
    case inl h =>
      have ⟨p, hp, he⟩ := Option.map_eq_some_iff.mp <| Option.mem_toList.mp h
      exact .inr ⟨op, p, rfl, storage_iff.mp hp, he⟩

theorem index_mem_freed (hc : c.operation = .delete op) (h : Latest xs op.key p) : p.index ∈ (run xs).freed c := by
  have hs : (run xs).storage op.key = some p := storage_iff.mpr h
  simp [freed, hc, hs]

theorem nodup_freed (h : c.index ∉ xs.map (·.index)) : ((run xs).freed c).Nodup := by
  obtain ⟨i, o⟩ := c
  cases o with
  | put op    => exact .nil
  | get op    => exact List.nodup_singleton _
  | delete op =>
    simp only [freed]
    cases hs : (run xs).storage op.key
    case none => simp
    case some p =>
      have hp : p.index ≠ i := fun he => h <| he ▸ (storage_iff.mp hs).index_mem
      simpa using hp

theorem run_released (h : (cs.map (·.index)).Nodup) : Released cs (run cs) := by
  induction cs using List.reverseRecOn
  case nil => exact ⟨nofun, .nil, nofun⟩
  case append_singleton cs c hi =>
    have ⟨hn, _, hd⟩ := List.nodup_append.mp <| List.map_append ▸ h
    have ⟨hm, ho, hg⟩ := hi hn
    have hc : c.index ∉ cs.map (·.index) := fun hc => hd _ hc _ (by simp) rfl
    rw [run_snoc]
    constructor
    case mem =>
      intro n hr
      rw [apply_released] at hr
      rw [List.map_append]
      cases List.mem_append.mp hr
      case inl hr => exact List.mem_append_left _ <| hm n hr
      case inr hr =>
        cases mem_freed hr
        case inl hr => exact List.mem_append_right _ <| by simp [hr]
        case inr hr =>
          have ⟨_, _, _, hl, he⟩ := hr
          exact List.mem_append_left _ <| he ▸ hl.index_mem
    case once =>
      rw [apply_released, List.nodup_append]
      refine ⟨ho, ?nodup, ?disjoint⟩
      case nodup => exact nodup_freed hc
      case disjoint =>
        rintro n hr m hf rfl
        cases mem_freed hf
        case inl hf => exact hc <| hf ▸ hm n hr
        case inr hf =>
          have ⟨_, p, _, hl, he⟩ := hf
          exact hg _ p (storage_iff.mpr hl) (he ▸ hr)
    case gone =>
      intro k p hp hr
      rw [apply_released] at hr
      rw [← run_snoc] at hp
      cases Latest.snoc.mp <| storage_iff.mp hp
      case inl hl =>
        have ⟨hl, _⟩ := hl
        have hf : (run cs).freed c = [] := by rw [hl]; rfl
        rw [hf, List.append_nil] at hr
        exact hc <| hl ▸ hm _ hr
      case inr hl =>
        have ⟨hw, hl⟩ := hl
        cases List.mem_append.mp hr
        case inl hr => exact hg k p (storage_iff.mpr hl) hr
        case inr hr =>
          cases mem_freed hr
          case inl hr => exact hc <| hr ▸ hl.index_mem
          case inr hr =>
            have ⟨op, q, hq, hl', he⟩ := hr
            exact hw <| hq ▸ hl'.key_eq hn hl he

-- As long as nothing is overwritten, a commit that is not released is in the storage.
theorem stored (ho : ¬Overwrites cs) (hm : n ∈ cs.map (·.index)) (hr : n ∉ (run cs).released) :
    ∃ k p, Latest cs k p ∧ p.index = n := by
  induction cs using List.reverseRecOn
  case nil => cases hm
  case append_singleton cs c hi =>
    rw [run_snoc, apply_released, List.mem_append, not_or] at hr
    rw [List.map_append, List.mem_append] at hm
    cases hm
    case inl hm =>
      have ho' : ¬Overwrites cs := fun ⟨xs, d, ys, p, q, he, h⟩ => ho ⟨xs, d, ys ++ [c], p, q, by simp [he], h⟩
      have ⟨k, p, hl, he⟩ := hi ho' hm hr.left
      have hw : ¬c.operation.Writes k := by
        intro hw
        cases hc : c.operation with
        | get op    => exact (hc ▸ hw :)
        | put op    =>
          rw [hc] at hw
          have hk : op.key = k := hw
          exact ho ⟨cs, c, [], op, p, rfl, hc, hk ▸ hl⟩
        | delete op =>
          rw [hc] at hw
          have hk : op.key = k := hw
          exact hr.right <| he ▸ index_mem_freed hc (hk ▸ hl)
      exact ⟨k, p, Latest.snoc.mpr <| .inr ⟨hw, hl⟩, he⟩
    case inr hm =>
      have he : n = c.index := List.mem_singleton.mp hm
      obtain ⟨i, o⟩ := c
      cases o with
      | put op    => exact ⟨op.key, ⟨i, op⟩, Latest.snoc.mpr <| .inl ⟨rfl, rfl⟩, he.symm⟩
      | get op    => exact absurd (List.mem_singleton.mpr he) hr.right
      | delete op => exact absurd (List.mem_append_right _ <| List.mem_singleton.mpr he) hr.right

theorem run_exact (h : (cs.map (·.index)).Nodup) (ho : ¬Overwrites cs) : Exact cs (run cs) where
  once   := (run_released h).once
  held _ :=
    ⟨fun ⟨hm, hr⟩ => have ⟨k, p, hl, he⟩ := stored ho hm hr; ⟨k, p, storage_iff.mpr hl, he⟩,
     fun ⟨k, p, hp, he⟩ => he ▸ ⟨(storage_iff.mp hp).index_mem, (run_released h).gone k p hp⟩⟩

-- A commit that is overwritten is neither released nor in the storage.
theorem not_exact (h : ((xs ++ [c]).map (·.index)).Nodup) (hc : c.operation = .put op) (hl : Latest xs op.key q) :
    ¬Exact (xs ++ [c]) (run (xs ++ [c])) := by
  intro he
  have ⟨hn, _, hd⟩ := List.nodup_append.mp <| List.map_append ▸ h
  have hf : (run xs).freed c = [] := by simp [freed, hc]
  have hr : q.index ∉ (run (xs ++ [c])).released := by
    rw [run_snoc, apply_released, hf, List.append_nil]
    exact (run_released hn).gone _ q <| storage_iff.mpr hl
  have hm : q.index ∈ (xs ++ [c]).map (·.index) := List.map_append ▸ List.mem_append_left _ hl.index_mem
  have ⟨k, p, hp, hi⟩ := he.held _ |>.mp ⟨hm, hr⟩
  cases Latest.snoc.mp <| storage_iff.mp hp
  case inl hp =>
    have hi : q.index = c.index := hp.left ▸ hi.symm
    exact hd _ hl.index_mem _ (by simp) hi
  case inr hp =>
    refine hp.left ?_
    rw [hc]
    exact hl.key_eq hn hp.right hi.symm

theorem correct_iff (h : (cs.map (·.index)).Nodup) : Correct cs ↔ ¬Overwrites cs where
  mp := by
    rintro hc ⟨xs, c, ys, op, q, rfl, ho, hl⟩
    rw [List.append_cons, List.map_append] at h
    exact not_exact (List.nodup_append.mp h).left ho hl (hc xs c ys rfl).left
  mpr := by
    rintro ho xs c ys rfl
    refine ⟨run_exact ?nodup fun ⟨as, d, bs, op, q, he, hd⟩ => ho ⟨as, d, bs ++ ys, op, q, ?split, hd⟩, current⟩
    case nodup =>
      rw [List.append_cons, List.map_append] at h
      exact (List.nodup_append.mp h).left
    case split => rw [List.append_cons, he, List.append_assoc, List.cons_append]

-- A value that is put and deleted.
theorem correct_of_three : Correct [⟨1, .put ⟨"a", some 1⟩⟩, ⟨2, .get ⟨"a"⟩⟩, ⟨3, .delete ⟨"a"⟩⟩] := by
  refine (correct_iff (by decide)).mpr ?_
  rintro ⟨xs, c, ys, op, q, he, ho, hl⟩
  cases xs
  case nil => exact Latest.nil hl
  case cons d xs =>
    have hm : c ∈ [⟨2, .get ⟨"a"⟩⟩, ⟨3, .delete ⟨"a"⟩⟩] :=
      (List.cons.inj he).right ▸ List.mem_append_right _ List.mem_cons_self
    cases List.mem_pair.mp hm
    case inl hc => cases hc ▸ ho
    case inr hc => cases hc ▸ ho

-- Two values of a key, of which the first one is never released.
theorem not_correct_of_two : ¬Correct [⟨1, .put ⟨"a", some 1⟩⟩, ⟨2, .put ⟨"a", some 2⟩⟩] := by
  intro h
  have ⟨k, p, hp, he⟩ := (h [⟨1, .put ⟨"a", some 1⟩⟩] _ [] rfl).left.held 1 |>.mp ⟨by decide, nofun⟩
  have hp : (if k = "a" then some ⟨2, "a", some 2⟩ else if k = "a" then some ⟨1, "a", some 1⟩ else none) = some p := hp
  if hk : k = "a" then
    rw [if_pos hk] at hp
    cases Option.some.inj hp
    cases he
  else
    rw [if_neg hk, if_neg hk] at hp
    cases hp

end KVStateMachine
end Copycat
