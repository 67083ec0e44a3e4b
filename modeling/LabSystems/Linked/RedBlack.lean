import Mathlib.Algebra.Order.Ring.Nat
import Mathlib.Data.Nat.Log
import LabSystems.Linked.Sides

-- Red-black trees, whose colours are those of the nodes.
namespace Linked

inductive Color
  | black
  | red
  deriving DecidableEq

open Linked.Frame

variable {α : Type}

-- The root has the colour `c`, no child of a red node is red and there are `n` black nodes on each way down.
inductive Balanced (col : α → Color) : BinaryTree α → Color → Nat → Prop
  | nil : Balanced col .nil .black 0
  | red (hx : col x = .red) (hl : Balanced col l .black n) (hr : Balanced col r .black n) :
      Balanced col (.node x l r) .red n
  | black (hx : col x = .black) (hl : Balanced col l c n) (hr : Balanced col r c' n) :
      Balanced col (.node x l r) .black (n + 1)

-- Where a balanced tree whose root has the colour `c` and which has `n` black nodes on each way down is the rest of a
-- balanced tree, the root of which is black.
inductive Fits (col : α → Color) : List (Frame α) → Color → Nat → Prop
  | nil : Fits col [] .black n
  | red (hf : col f.node = .red) (ho : Balanced col f.other .black n) (hs : Fits col fs .red n) :
      Fits col (f :: fs) .black n
  | black (hf : col f.node = .black) (ho : Balanced col f.other c n) (hs : Fits col fs .black (n + 1)) :
      Fits col (f :: fs) c' n

variable {col col' : α → Color} {d : Side} {x : α} {l r t u : BinaryTree α} {f g : Frame α}
  {fs gs : List (Frame α)} {c c' : Color} {m n : Nat}

namespace Balanced

theorem congr (h : Balanced col t c n) (hc : ∀ x ∈ inorder t, col' x = col x) : Balanced col' t c n := by
  induction h
  case nil => exact .nil
  case red hx _ _ hl hr =>
    refine .red ((hc _ <| by simp [inorder]).trans hx) (hl fun x h => hc x ?_) (hr fun x h => hc x ?_)
    all_goals simp [inorder, h]
  case black hx _ _ hl hr =>
    refine .black ((hc _ <| by simp [inorder]).trans hx) (hl fun x h => hc x ?_) (hr fun x h => hc x ?_)
    all_goals simp [inorder, h]

theorem join_red (hx : col x = .red) (ht : Balanced col t .black n) (hu : Balanced col u .black n) :
    Balanced col (join d x t u) .red n := by
  cases d
  case left  => exact .red hx ht hu
  case right => exact .red hx hu ht

theorem join_black (hx : col x = .black) (ht : Balanced col t c n) (hu : Balanced col u c' n) :
    Balanced col (join d x t u) .black (n + 1) := by
  cases d
  case left  => exact .black hx ht hu
  case right => exact .black hx hu ht

theorem of_join (h : Balanced col (join d x t u) c n) : c = col x ∧
    (c = .red ∧ Balanced col t .black n ∧ Balanced col u .black n ∨
      c = .black ∧ ∃ m c₁ c₂, n = m + 1 ∧ Balanced col t c₁ m ∧ Balanced col u c₂ m) := by
  cases d <;> cases h
  case left.red hx hl hr    => exact ⟨hx.symm, .inl ⟨rfl, hl, hr⟩⟩
  case left.black hx hl hr  => exact ⟨hx.symm, .inr ⟨rfl, _, _, _, rfl, hl, hr⟩⟩
  case right.red hx hl hr   => exact ⟨hx.symm, .inl ⟨rfl, hr, hl⟩⟩
  case right.black hx hl hr => exact ⟨hx.symm, .inr ⟨rfl, _, _, _, rfl, hr, hl⟩⟩

theorem exists_root (h : Balanced col t .red n) (d : Side) : ∃ x a b, t = join d x a b ∧ col x = .red ∧
    Balanced col a .black n ∧ Balanced col b .black n := by
  obtain ⟨x, a, b, rfl⟩ := exists_join d (t := t) (by rintro rfl; cases h)
  obtain ⟨hc, ⟨_, ha, hb⟩ | ⟨hr, _⟩⟩ := h.of_join
  case inl => exact ⟨x, a, b, rfl, hc.symm, ha, hb⟩
  case inr => cases hr

theorem ne_nil (h : Balanced col t c (n + 1)) : t ≠ .nil := by
  rintro rfl
  cases h

-- A tree with `n` black nodes on each way down has at least as many nodes as the full one with this height.
theorem pow_le (h : Balanced col t c n) : 2 ^ n ≤ (inorder t).length + 1 := by
  induction h
  case nil => simp
  case red hl hr =>
    simp only [inorder, List.length_append, List.length_cons]
    omega
  case black hl hr =>
    simp only [inorder, List.length_append, List.length_cons, Nat.pow_succ]
    omega

-- There are not more red nodes than black ones on a way down, except for a red root.
theorem height_le (h : Balanced col t c n) : t.height ≤ 2 * n + if c = .red then 1 else 0 := by
  induction h
  case nil => simp
  case red hl hr =>
    simp only [BinaryTree.height, reduceCtorEq, if_false, if_true] at hl hr ⊢
    omega
  case black c _ _ c' _ _ _ hl hr =>
    have hc : (if c = Color.red then 1 else 0) ≤ 1 := by split <;> simp
    have hc' : (if c' = Color.red then 1 else 0) ≤ 1 := by split <;> simp
    simp only [BinaryTree.height, reduceCtorEq, if_false]
    omega

-- The height is logarithmic.
theorem height_le_log (h : Balanced col t .black n) : t.height ≤ 2 * Nat.log 2 ((inorder t).length + 1) := by
  have hh := h.height_le
  have hn := Nat.le_log_of_pow_le (by decide) h.pow_le
  simp only [reduceCtorEq, if_false] at hh
  omega

end Balanced

namespace Fits

theorem congr (h : Fits col fs c n) (hc : ∀ x ∈ before fs ++ after fs, col' x = col x) : Fits col' fs c n := by
  induction h
  case nil => exact .nil
  case red hf ho _ hi =>
    have hc {x} (hx) := hc x <| perm.mem_iff.mpr hx
    exact .red ((hc List.mem_cons_self).trans hf)
      (ho.congr fun x hx => hc <| List.mem_cons_of_mem _ <| List.mem_append_left _ hx)
      (hi fun x hx => hc <| List.mem_cons_of_mem _ <| List.mem_append_right _ hx)
  case black hf ho _ hi =>
    have hc {x} (hx) := hc x <| perm.mem_iff.mpr hx
    exact .black ((hc List.mem_cons_self).trans hf)
      (ho.congr fun x hx => hc <| List.mem_cons_of_mem _ <| List.mem_append_left _ hx)
      (hi fun x hx => hc <| List.mem_cons_of_mem _ <| List.mem_append_right _ hx)

theorem to_black (h : Fits col fs c n) : Fits col fs .black n := by
  cases h
  case nil            => exact .nil
  case red hf ho hs   => exact .red hf ho hs
  case black hf ho hs => exact .black hf ho hs

theorem plug (h : Fits col fs c n) (ht : Balanced col t c n) : ∃ n, Balanced col (plug fs t) .black n := by
  induction h generalizing t
  case nil n           => exact ⟨n, ht⟩
  case red hf ho _ hi   => exact plug_cons ▸ hi (.join_red hf ht ho)
  case black hf ho _ hi => exact plug_cons ▸ hi (.join_black hf ht ho)

theorem of_plug (h : Balanced col (Frame.plug fs t) .black n) : ∃ c n, Fits col fs c n ∧ Balanced col t c n := by
  induction fs generalizing t
  case nil => exact ⟨_, _, .nil, h⟩
  case cons f fs hi =>
    rw [plug_cons] at h
    obtain ⟨c, n, hs, hb⟩ := hi h
    obtain ⟨hc, ⟨rfl, ht, hu⟩ | ⟨rfl, m, c₁, c₂, rfl, ht, hu⟩⟩ := hb.of_join
    case inl => exact ⟨_, _, .red hc.symm hu hs, ht⟩
    case inr => exact ⟨_, _, .black hc.symm hu hs, ht⟩

-- The parent of a red node that is not the root is black.
theorem of_red (h : Fits col fs .red n) : ∃ f gs c, fs = f :: gs ∧ col f.node = .black ∧ Balanced col f.other c n ∧
    Fits col gs .black (n + 1) := by
  cases h
  case black hf ho hs => exact ⟨_, _, _, rfl, hf, ho, hs⟩

-- Another node takes the place of the last one of the frames.
theorem rename (h : Fits col (gs ++ f :: fs) c n) (hf : col' g.node = col f.node) (ho : g.other = f.other)
    (hc : ∀ x ∈ (before gs ++ after gs) ++ (inorder f.other ++ (before fs ++ after fs)), col' x = col x) :
    Fits col' (gs ++ g :: fs) c n := by
  induction gs generalizing c n
  case nil =>
    have hc {x} (hx : x ∈ inorder f.other ++ (before fs ++ after fs)) := hc x <| List.mem_append_right _ hx
    cases h
    case red hx hb hs =>
      exact .red (hf.trans hx) (ho ▸ hb.congr fun x hx => hc <| List.mem_append_left _ hx)
        (hs.congr fun x hx => hc <| List.mem_append_right _ hx)
    case black hx hb hs =>
      exact .black (hf.trans hx) (ho ▸ hb.congr fun x hx => hc <| List.mem_append_left _ hx)
        (hs.congr fun x hx => hc <| List.mem_append_right _ hx)
  case cons e gs hi =>
    have hm {x} (hx : x ∈ e.node :: (inorder e.other ++ (before gs ++ after gs))) := perm.mem_iff.mpr hx
    have he : col' e.node = col e.node := hc _ <| List.mem_append_left _ <| hm List.mem_cons_self
    have hb x (hx : x ∈ inorder e.other) : col' x = col x :=
      hc x <| List.mem_append_left _ <| hm <| List.mem_cons_of_mem _ <| List.mem_append_left _ hx
    have hi' {c n} (h : Fits col (gs ++ f :: fs) c n) : Fits col' (gs ++ g :: fs) c n := by
      refine hi h fun x hx => hc x ?_
      rcases List.mem_append.mp hx with hx | hx
      case inl => exact List.mem_append_left _ <| hm <| List.mem_cons_of_mem _ <| List.mem_append_right _ hx
      case inr => exact List.mem_append_right _ hx
    cases h
    case red hx ho hs   => exact .red (he.trans hx) (ho.congr hb) (hi' hs)
    case black hx ho hs => exact .black (he.trans hx) (ho.congr hb) (hi' hs)

end Fits

end Linked
