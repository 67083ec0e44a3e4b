import LabSystems.MapReduce.KillWorkers
import Mathlib.Data.List.Dedup

namespace MapReduce

open Machine (events)

namespace RunMaster

def registered (es : List Event) : List String :=
  es.filterMap fun
    | .master (.register w) => some w
    | _                     => none

def shutdowns (es : List Event) : List String :=
  es.filterMap fun
    | .shutdown w => some w
    | _           => none

-- Every worker that has registered and still answers is shut down and counted once.
structure AllShutDown (njobs : String → Option Nat) (es : List Event) (l : List Nat) : Prop where
  once   : ∀ w ∈ registered es, (njobs w).isSome → (shutdowns es).count w = 1
  counts : l.Perm <| (registered es).dedup.filterMap njobs

variable {mr : MapReduce} {njobs : String → Option Nat} {s s' : RunMaster} {a : Action} {es es' : List Event} {l : List Nat}

-- There are no workers in `mr.Workers`.
structure NoWorkers (es : List Event) (s : RunMaster) : Prop where
  workers   : s.workers = []
  kill      : s.kill = .idle ∨ s.kill = .range [] [] ∨ s.kill = .returned []
  shutdowns : shutdowns es = []

theorem NoWorkers.step (h : NoWorkers es s) (hs : s.step mr njobs a = some (s', es')) : NoWorkers (es ++ es') s' := by
  have happ : RunMaster.shutdowns (es ++ es') = RunMaster.shutdowns es' := by
    have he : RunMaster.shutdowns (es ++ es') = RunMaster.shutdowns es ++ RunMaster.shutdowns es' := List.filterMap_append
    rw [he, h.shutdowns, List.nil_append]
  cases a
  case master a =>
    simp only [RunMaster.step] at hs
    split at hs
    case h_1 =>
      cases hs
      refine ⟨h.workers, h.kill, happ.trans ?_⟩
      simp [RunMaster.shutdowns, List.filterMap_map]
    case h_2 => cases hs
  case range ws =>
    simp only [RunMaster.step] at hs
    split at hs
    case isTrue hc =>
      cases hs
      have hn : ws = [] := by simpa [h.workers] using hc.2.2
      exact ⟨h.workers, .inr <| .inl <| hn ▸ rfl, happ⟩
    case isFalse => cases hs
  case next =>
    rcases h.kill with hk | hk | hk <;> simp only [RunMaster.step, hk] at hs <;> cases hs
    exact ⟨h.workers, .inr <| .inr rfl, happ⟩

theorem noWorkers (p : (runMaster mr njobs).Run ts s) : NoWorkers (events ts) s := by
  refine p.history_invariant (I := fun ts s => NoWorkers (events ts) s) ⟨rfl, .inl rfl, rfl⟩ fun ts t h => ?_
  rw [Machine.events_append, Machine.events_singleton]
  exact h.step t.valid

-- No worker is ever shut down, and the returned list is empty.
theorem allShutDown_iff (p : (runMaster mr njobs).Run ts s) (hr : s.kill = .returned l) :
    AllShutDown njobs (events ts) l ↔ ∀ w ∈ registered (events ts), njobs w = none := by
  have h := noWorkers p
  have hl : l = [] := by
    have hk := h.kill
    rw [hr] at hk
    simpa using hk
  constructor
  case mp =>
    intro ha w hw
    by_contra hn
    have hone := ha.once w hw <| Option.isSome_iff_ne_none.mpr hn
    rw [h.shutdowns, List.count_nil] at hone
    contradiction
  case mpr =>
    intro hn
    refine ⟨fun w hw hs => ?_, ?_⟩
    · rw [hn w hw] at hs
      cases hs
    · rw [hl, List.filterMap_eq_nil_iff.mpr fun w hw => hn w <| List.mem_dedup.mp hw]

-- One worker executes the only job.
def oneJob : List Action :=
  [.master <| .register "w", .master .main, .master .main, .master <| .receive .map 0 <| .handler 0,
    .master <| .reply .map 0 true, .master <| .send .map 0, .master .main, .master .main, .master .main,
    .master .main, .range [], .next]

-- It has failed since.
theorem allShutDown_failed : AllShutDown (fun _ => none)
    (events ((runMaster ⟨1, 0, "f"⟩ fun _ => none).trace .init oneJob).1) [] :=
  allShutDown_iff (Machine.path_trace ..) (by decide) |>.mpr fun _ _ => rfl

-- It would have answered.
theorem not_allShutDown :
    ((runMaster ⟨1, 0, "f"⟩ fun _ => some 2).trace .init oneJob).2.kill = .returned [] ∧
      ¬AllShutDown (fun _ => some 2) (events ((runMaster ⟨1, 0, "f"⟩ fun _ => some 2).trace .init oneJob).1) [] := by
  refine ⟨by decide, fun h => ?_⟩
  have hone := h.once "w" (by decide) rfl
  revert hone
  decide

end RunMaster

end MapReduce
