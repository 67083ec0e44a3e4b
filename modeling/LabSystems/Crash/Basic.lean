import Mathlib.Logic.Basic

-- Programs whose state is on a disk. Every call that a program makes may fail, and the system may go down at it, which
-- leaves the disk as it is.
namespace Crash

-- If the system goes down at a call, then the call has been done or not.
inductive Fate
  | succeeds
  | fails
  | crashes (done : Bool)
  deriving DecidableEq

-- The calls for which there is no fate succeed.
structure World (σ : Type) where
  disk  : σ
  fates : List Fate

-- There is no result if the program does not come to its end.
def Program (σ α : Type) :=
  World σ → Option α × World σ

namespace Program

instance : Monad (Program σ) where
  pure a   := fun w => (some a, w)
  bind p f := fun w =>
    match p w with
    | (some a, w) => f a w
    | (none, w)   => (none, w)

-- The program stops itself.
def halt : Program σ α :=
  fun w => (none, w)

-- The result of a call that is done, and the disk after it.
def done (f : σ → Except ε (α × σ)) (s : σ) : Except ε α × σ :=
  match f s with
  | .ok (a, s) => (.ok a, s)
  | .error e   => (.error e, s)

-- A call that fails has the error `e`.
def call (e : ε) (f : σ → Except ε (α × σ)) : Program σ (Except ε α) := fun w =>
  match w.fates with
  | []                     => (some (done f w.disk).fst, ⟨(done f w.disk).snd, []⟩)
  | .succeeds :: fs        => (some (done f w.disk).fst, ⟨(done f w.disk).snd, fs⟩)
  | .fails :: fs           => (some <| .error e, ⟨w.disk, fs⟩)
  | .crashes true :: fs    => (none, ⟨(done f w.disk).snd, fs⟩)
  | .crashes false :: fs   => (none, ⟨w.disk, fs⟩)

end Program

-- If all fates are in `F` and `P` holds of the disk, then `Q` holds of the result and the disk after it, or there is no
-- result and `C` holds of the disk.
def Ensures (F : Fate → Prop) (P : σ → Prop) (p : Program σ α) (Q : α → σ → Prop) (C : σ → Prop) : Prop :=
  ∀ w, P w.disk → (∀ f ∈ w.fates, F f) → (∀ f ∈ (p w).snd.fates, F f) ∧
    (∀ a, (p w).fst = some a → Q a (p w).snd.disk) ∧ ((p w).fst = none → C (p w).snd.disk)

-- What holds of a result, which is an error or not.
def Either (A : α → Prop) (B : ε → Prop) : Except ε α → Prop
  | .ok a    => A a
  | .error e => B e

-- There may be a fate that is not success.
def Faulty (F : Fate → Prop) : Prop :=
  F .fails ∨ ∃ done, F (.crashes done)

namespace Ensures

open Program

variable {F : Fate → Prop} {P P' C C' : σ → Prop} {Q Q' : α → σ → Prop} {R : β → σ → Prop} {p : Program σ α}
  {g : α → Program σ β}

theorem weaken (h : Ensures F P p Q C) (hp : ∀ s, P' s → P s) (hq : ∀ a s, Q a s → Q' a s) (hc : ∀ s, C s → C' s) :
    Ensures F P' p Q' C' := by
  intro w hw hf
  obtain ⟨hf', hr, hn⟩ := h w (hp _ hw) hf
  exact ⟨hf', fun a ha => hq _ _ <| hr a ha, fun ha => hc _ <| hn ha⟩

theorem of_exists {P : τ → σ → Prop} (h : ∀ x, Ensures F (P x) p Q C) : Ensures F (fun s => ∃ x, P x s) p Q C := by
  rintro w ⟨x, hw⟩ hf
  exact h x w hw hf

theorem of_and {a : Prop} (h : a → Ensures F P p Q C) : Ensures F (fun s => a ∧ P s) p Q C :=
  fun w hw hf => h hw.left w hw.right hf

theorem pure (h : ∀ s, P s → Q a s) : Ensures F P (pure a : Program σ α) Q C := by
  intro w hw hf
  refine ⟨hf, fun b hb => ?_, fun hn => ?_⟩
  case refine_1 =>
    cases hb
    exact h _ hw
  case refine_2 => cases hn

theorem halt (h : ∀ s, P s → C s) : Ensures F P (halt : Program σ α) Q C := by
  intro w hw hf
  refine ⟨hf, fun b hb => ?_, fun _ => h _ hw⟩
  cases hb

theorem bind (hp : Ensures F P p Q C) (hg : ∀ a, Ensures F (Q a) (g a) R C) : Ensures F P (p >>= g) R C := by
  intro w hw hf
  obtain ⟨hf', hr, hn⟩ := hp w hw hf
  cases hpw : p w with
  | mk o w' =>
    rw [hpw] at hf' hr hn
    cases o with
    | some a =>
      have hb : (p >>= g) w = g a w' := by simp [Bind.bind, hpw]
      rw [hb]
      exact hg a w' (hr a rfl) hf'
    | none   =>
      have hb : (p >>= g) w = (none, w') := by simp [Bind.bind, hpw]
      rw [hb]
      exact ⟨hf', by simp, fun _ => hn rfl⟩

theorem call {f : σ → Except ε (α × σ)} {Q : Except ε α → σ → Prop}
    (hs : ∀ s, P s → Q (done f s).fst (done f s).snd) (hf : F .fails → ∀ s, P s → Q (.error e) s)
    (hc : Faulty F → ∀ s, P s → C (done f s).snd ∧ C s) : Ensures F P (call e f) Q C := by
  intro w hw hF
  obtain ⟨s, fs⟩ := w
  cases fs with
  | nil => exact ⟨hF, fun a ha => Option.some.inj ha ▸ hs s hw, fun hn => by cases hn⟩
  | cons f fs =>
    have hF' f (hm : f ∈ fs) : F f := hF f <| List.mem_cons_of_mem _ hm
    have h := hF f List.mem_cons_self
    cases f with
    | succeeds     => exact ⟨hF', fun a ha => Option.some.inj ha ▸ hs s hw, fun hn => by cases hn⟩
    | fails        => exact ⟨hF', fun a ha => Option.some.inj ha ▸ hf h s hw, fun hn => by cases hn⟩
    | crashes done =>
      have hc := hc (.inr ⟨done, h⟩) s hw
      cases done
      case true  => exact ⟨hF', fun _ ha => (by cases ha), fun _ => hc.left⟩
      case false => exact ⟨hF', fun _ ha => (by cases ha), fun _ => hc.right⟩

theorem call_ok {f : σ → Except ε (α × σ)} {A : α → σ → Prop} {B : ε → σ → Prop} {N : σ → α × σ}
    (hs : ∀ s, P s → f s = .ok (N s) ∧ A (N s).fst (N s).snd) (hf : F .fails → ∀ s, P s → B e s)
    (hc : Faulty F → ∀ s, P s → C (N s).snd ∧ C s) :
    Ensures F P (Program.call e f) (fun r s => Either (A · s) (B · s) r) C := by
  have hd s (hp : P s) : done f s = (.ok (N s).fst, (N s).snd) := by simp [done, hs s hp]
  refine call (fun s hp => ?_) hf fun h s hp => ?_
  case refine_1 =>
    rw [hd s hp]
    exact (hs s hp).right
  case refine_2 =>
    rw [hd s hp]
    exact hc h s hp

-- A loop has an invariant about the elements that it has gone through.
theorem foldlM {f : β → τ → Program σ β} {I : List τ → β → σ → Prop} {xs : List τ}
    (h : ∀ ys x zs, xs = ys ++ x :: zs → ∀ b, Ensures F (I ys b) (f b x) (I (ys ++ [x])) C) :
    Ensures F (I [] b) (xs.foldlM f b) (I xs) C := by
  suffices h' : ∀ ys zs b, xs = ys ++ zs → Ensures F (I ys b) (zs.foldlM f b) (I xs) C from h' [] xs b rfl
  intro ys zs
  induction zs generalizing ys
  case nil =>
    rintro b rfl
    exact .pure fun s hi => by simpa using hi
  case cons z zs hi =>
    intro b hx
    rw [List.foldlM_cons]
    exact (h ys z zs hx b).bind fun b => hi (ys ++ [z]) b <| by simp [hx]

end Ensures
end Crash
