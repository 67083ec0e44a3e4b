import Mathlib.Data.List.Basic

-- Linked lists in a memory. Every node has at most one successor.
namespace Linked

-- The nodes that are visited from `x`, without `x`, before `e`.
def Chain (next : α → Option α) : α → List α → α → Prop
  | x, [], e     => next x = some e
  | x, y :: l, e => next x = some y ∧ Chain next y l e

namespace Chain

variable {next next' : α → Option α} {x y n z e : α} {l l' l₁ l₂ : List α}

-- Only the successors of the nodes matter, and a node can be replaced by one with the same successor.
theorem congr (h : Chain next x l e) (hx : next' n = next x) (hl : ∀ y ∈ l, next' y = next y) :
    Chain next' n l e := by
  induction l generalizing x n
  case nil => exact hx.trans h
  case cons y l hi =>
    have ⟨hy, h⟩ := h
    exact ⟨hx.trans hy, hi h (hl y List.mem_cons_self) fun z hz => hl z <| List.mem_cons_of_mem _ hz⟩

-- What follows the last node of a part of the list.
theorem drop (h : Chain next x (l₁ ++ l₂) e) : Chain next (l₁.getLastD x) l₂ e := by
  induction l₁ generalizing x
  case nil          => exact h
  case cons y l₁ hi => rw [List.getLastD_cons]; exact hi h.right

-- The first node after `x`, or the end.
theorem next_eq (h : Chain next x l e) : next x = some (l.headD e) := by
  cases l
  case nil  => exact h
  case cons => exact h.left

theorem unique (h : Chain next x l e) (h' : Chain next x l' e) (hl : e ∉ l) (hl' : e ∉ l') : l = l' := by
  induction l generalizing x l'
  case nil =>
    cases l'
    case nil => rfl
    case cons y l' =>
      have hn := h'.left.symm.trans h
      cases hn
      exact absurd List.mem_cons_self hl'
  case cons y l hi =>
    cases l'
    case nil =>
      have hn := h.left.symm.trans h'
      cases hn
      exact absurd List.mem_cons_self hl
    case cons y' l' =>
      have hn := h.left.symm.trans h'.left
      cases hn
      rw [hi h.right h'.right (fun hm => hl <| List.mem_cons_of_mem _ hm) fun hm => hl' <| List.mem_cons_of_mem _ hm]

-- A node is put behind the last node of a part of the list.
theorem insert (h : Chain next x (l₁ ++ l₂) e) (hnodup : (x :: (l₁ ++ l₂)).Nodup)
    (hn : next' n = next (l₁.getLastD x)) (hp : next' (l₁.getLastD x) = some n)
    (hl : ∀ y ∈ x :: (l₁ ++ l₂), y ≠ l₁.getLastD x → next' y = next y) : Chain next' x (l₁ ++ n :: l₂) e := by
  induction l₁ generalizing x
  case nil =>
    refine ⟨hp, h.congr hn fun y hy => hl y (List.mem_cons_of_mem _ hy) ?_⟩
    exact ne_of_mem_of_not_mem hy (List.nodup_cons.mp hnodup).left
  case cons y l₁ hi =>
    rw [List.getLastD_cons] at hn hp hl
    have ⟨hx, hnodup⟩ := List.nodup_cons.mp hnodup
    have hlast : x ≠ l₁.getLastD y :=
      fun he => hx <| List.mem_append_left _ <| he ▸ List.getLastD_mem_cons
    refine ⟨(hl x List.mem_cons_self hlast).trans h.left, hi h.right hnodup hn hp fun z hz => ?_⟩
    exact hl z <| List.mem_cons_of_mem _ hz

-- A node is taken out.
theorem remove (h : Chain next x (l₁ ++ z :: l₂) e) (hnodup : (x :: (l₁ ++ z :: l₂)).Nodup)
    (hp : next' (l₁.getLastD x) = next z)
    (hl : ∀ y ∈ x :: (l₁ ++ l₂), y ≠ l₁.getLastD x → next' y = next y) : Chain next' x (l₁ ++ l₂) e := by
  induction l₁ generalizing x
  case nil =>
    refine h.right.congr hp fun y hy => hl y (List.mem_cons_of_mem _ hy) ?_
    exact ne_of_mem_of_not_mem (List.mem_cons_of_mem z hy) (List.nodup_cons.mp hnodup).left
  case cons y l₁ hi =>
    rw [List.getLastD_cons] at hp hl
    have ⟨hx, hnodup⟩ := List.nodup_cons.mp hnodup
    have hlast : x ≠ l₁.getLastD y :=
      fun he => hx <| List.mem_append_left _ <| he ▸ List.getLastD_mem_cons
    refine ⟨(hl x List.mem_cons_self hlast).trans h.left, hi h.right hnodup hp fun z hz => ?_⟩
    exact hl z <| List.mem_cons_of_mem _ hz

end Chain

end Linked
