import Mathlib.Data.List.Infix

-- Messages that are cut into chunks are read from the data that has been received, as long as there is
-- a whole one.

namespace Framing

-- What has been received of a stream either starts with a part of it, or ends within this part.
theorem whole_or_cut {received later part rest : List β} (h : received ++ later = part ++ rest) :
    (∃ received', received = part ++ received' ∧ received' ++ later = rest) ∨
      ∃ x, received ++ x = part ∧ x ≠ [] ∧ later = x ++ rest := by
  rcases List.append_eq_append_iff.mp h with ⟨x, he, hx⟩ | ⟨x, he, hx⟩
  case inr => exact .inl ⟨x, he, hx.symm⟩
  case inl =>
    cases x
    case nil       => exact .inl ⟨[], by simp [he], by simpa using hx⟩
    case cons y ys => exact .inr ⟨y :: ys, he.symm, by simp, hx⟩

-- A call to `read` has an outcome, which may be a message, and changes the state, unless it fails. The
-- reader stops after an outcome that tells it to.
structure Reader (σ α μ β : Type) where
  data    : σ → List β
  read    : σ → α × Option σ
  stops   : α → Prop
  message : α → Option μ

namespace Reader

inductive Reads (r : Reader σ α μ β) : σ → List α → Option σ → Prop
  | stop (stops : r.stops (r.read s).1) : Reads r s [(r.read s).1] (r.read s).2
  | next (goes : ¬r.stops (r.read s).1) (state : (r.read s).2 = some s') (reads : Reads r s' as o) :
    Reads r s ((r.read s).1 :: as) o

-- What a call does while there are whole messages, and when there is not.
inductive Splits (r : Reader σ α μ β) (Rest : List μ → List β → Prop) (ms : List μ) (s : σ) (later : List β) : Prop
  | found (message : r.message (r.read s).1 = some m) (goes : ¬r.stops (r.read s).1)
    (state : (r.read s).2 = some s') (messages : ms = m :: ms') (rest : Rest ms' (r.data s' ++ later))
  | more (message : r.message (r.read s).1 = none) (stops : r.stops (r.read s).1) (last : later = [] → ms = [])
    (state : ∀ s', (r.read s).2 = some s' → r.data s' = r.data s) (fails : (r.read s).2 = none → later ≠ [])

-- `Rest` tells what may be left of a stream of messages, and `Good` which outcomes there may be.
structure Correct (r : Reader σ α μ β) (Rest : List μ → List β → Prop) (Good : α → Prop) : Prop where
  splits : ∀ ms s later, Rest ms (r.data s ++ later) → r.Splits Rest ms s later
  good   : ∀ ms s later, Rest ms (r.data s ++ later) → Good (r.read s).1

variable {r : Reader σ α μ β} {Rest : List μ → List β → Prop} {Good : α → Prop} {ms : List μ} {s : σ}
  {later : List β} {as : List α} {o : Option σ}

-- What has been read are the first messages, and the rest is left.
theorem Correct.reads (h : r.Correct Rest Good) (hr : r.Reads s as o) (hs : Rest ms (r.data s ++ later)) :
    (∀ a ∈ as, Good a) ∧ ∃ ms', ms = as.filterMap r.message ++ ms' ∧ (later = [] → ms' = []) ∧
      (o = none → later ≠ []) ∧ ∀ s', o = some s' → Rest ms' (r.data s' ++ later) := by
  induction hr generalizing ms
  case stop s hst =>
    refine ⟨by simpa using h.good ms s later hs, ms, ?_⟩
    cases h.splits ms s later hs
    case found hg _ _ _ => exact absurd hst hg
    case more hm _ hl hd hf =>
      refine ⟨by simp [hm], hl, hf, fun s' he => ?_⟩
      rwa [hd s' he]
  case next s s' as o hg he hr hi =>
    cases h.splits ms s later hs
    case more hst _ _ _ => exact absurd hst hg
    case found hm _ he' hms hrest =>
      cases he.symm.trans he'
      have ⟨hgood, ms', heq, hl⟩ := hi hrest
      refine ⟨?_, ms', by rw [hms, heq, List.filterMap_cons_some hm, List.cons_append], hl⟩
      simpa using ⟨h.good ms s later hs, hgood⟩

end Reader

end Framing
