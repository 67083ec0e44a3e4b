import Mathlib.Data.List.Nodup
import Mathlib.Data.Tree.Basic

-- Binary trees in a memory whose nodes know their parents.
namespace Linked

structure Links (α : Type) where
  left   : Option α
  right  : Option α
  parent : Option α

-- A node on the way to a subtree, on its left or on its right, and the other subtree of it.
inductive Frame (α : Type)
  | left (x : α) (r : BinaryTree α)
  | right (x : α) (l : BinaryTree α)

variable {α : Type}

def inorder : BinaryTree α → List α
  | .nil        => []
  | .node x l r => inorder l ++ x :: inorder r

namespace Frame

def node : Frame α → α
  | left x _  => x
  | right x _ => x

-- What the walk visits before and after the subtree.
def before : List (Frame α) → List α
  | []              => []
  | left _ _ :: fs  => before fs
  | right x l :: fs => before fs ++ (inorder l ++ [x])

def after : List (Frame α) → List α
  | []              => []
  | left x r :: fs  => x :: inorder r ++ after fs
  | right _ _ :: fs => after fs

-- The frame next to the subtree comes first.
def plug : List (Frame α) → BinaryTree α → BinaryTree α
  | [], t              => t
  | left x r :: fs, t  => plug fs (.node x t r)
  | right x l :: fs, t => plug fs (.node x l t)

theorem inorder_plug {fs : List (Frame α)} : inorder (plug fs t) = before fs ++ inorder t ++ after fs := by
  induction fs generalizing t
  case nil          => simp [plug, before, after]
  case cons f fs hi => cases f <;> simp [plug, before, after, inorder, hi]

end Frame

open Linked.Frame

namespace Frame

theorem before_append {gs fs : List (Frame α)} : before (gs ++ fs) = before fs ++ before gs := by
  induction gs
  case nil          => simp [before]
  case cons g gs hi => cases g <;> simp [before, hi]

theorem plug_append {gs fs : List (Frame α)} : plug (gs ++ fs) t = plug fs (plug gs t) := by
  induction gs generalizing t
  case nil          => rfl
  case cons g gs hi => cases g <;> simp [plug, hi]

def setChild (p : Option α) : Frame α → Links α → Links α
  | left _ _, n  => { n with left := p }
  | right _ _, n => { n with right := p }

def other : Frame α → BinaryTree α
  | left _ r  => r
  | right _ l => l

theorem perm {f : Frame α} {fs : List (Frame α)} :
    (before (f :: fs) ++ after (f :: fs)).Perm (f.node :: (inorder f.other ++ (before fs ++ after fs))) := by
  cases f
  case left x r  =>
    simp only [before, after, node, other]
    exact List.perm_middle.trans <| .cons x <| List.perm_append_comm_assoc _ _ _
  case right x l =>
    have he : before fs ++ (inorder l ++ [x]) ++ after fs = (before fs ++ inorder l) ++ x :: after fs := by simp
    simp only [before, after, node, other]
    rw [he]
    refine List.perm_middle.trans <| .cons x ?_
    rw [List.append_assoc]
    exact List.perm_append_comm_assoc _ _ _

theorem perm_plug {fs : List (Frame α)} : (inorder (plug fs t)).Perm (inorder t ++ (before fs ++ after fs)) := by
  rw [inorder_plug, List.append_assoc]
  exact List.perm_append_comm_assoc _ _ _

theorem exists_plug (h : x ∈ inorder t) : ∃ fs l r, t = plug fs (.node x l r) := by
  induction t
  case nil => cases h
  case node y l r hil hir =>
    simp only [inorder, List.mem_append, List.mem_cons] at h
    rcases h with h | rfl | h
    case inl =>
      obtain ⟨fs, l', r', he⟩ := hil h
      exact ⟨fs ++ [left y r], l', r', by rw [plug_append, ← he, plug, plug]⟩
    case inr.inl => exact ⟨[], l, r, rfl⟩
    case inr.inr =>
      obtain ⟨fs, l', r', he⟩ := hir h
      exact ⟨fs ++ [right y l], l', r', by rw [plug_append, ← he, plug, plug]⟩

end Frame

variable {links links' : α → Option (Links α)} {root parent p q : Option α} {t l r : BinaryTree α}
  {f : Frame α} {fs : List (Frame α)}

-- The pointer `p` is to the root of the tree, whose parent is `q`.
def Rep (links : α → Option (Links α)) : Option α → Option α → BinaryTree α → Prop
  | p, _, .nil        => p = none
  | p, q, .node x l r => p = some x ∧ ∃ a b, links x = some ⟨a, b, q⟩ ∧ Rep links a (some x) l ∧ Rep links b (some x) r

-- The way from the root of a tree, whose parent is `parent`, to a subtree, to which the pointer `p` is and whose
-- parent is `q`.
def Way (links : α → Option (Links α)) (root parent : Option α) : List (Frame α) → Option α → Option α → Prop
  | [], p, q               => p = root ∧ q = parent
  | .left x r :: fs, p, q  => q = some x ∧ ∃ b q', links x = some ⟨p, b, q'⟩ ∧ Rep links b (some x) r ∧
                                Way links root parent fs (some x) q'
  | .right x l :: fs, p, q => q = some x ∧ ∃ a q', links x = some ⟨a, p, q'⟩ ∧ Rep links a (some x) l ∧
                                Way links root parent fs (some x) q'

namespace Rep

theorem congr (h : Rep links p q t) (hl : ∀ x ∈ inorder t, links' x = links x) : Rep links' p q t := by
  induction t generalizing p q
  case nil => exact h
  case node x l r hil hir =>
    obtain ⟨rfl, a, b, hx, ha, hb⟩ := h
    simp only [inorder, List.mem_append, List.mem_cons] at hl
    exact ⟨rfl, a, b, (hl x <| .inr <| .inl rfl).trans hx, hil ha fun y hy => hl y <| .inl hy,
      hir hb fun y hy => hl y <| .inr <| .inr hy⟩

theorem mem (h : Rep links p q t) (hx : x ∈ inorder t) : ∃ n, links x = some n := by
  induction t generalizing p q
  case nil => cases hx
  case node y l r hil hir =>
    obtain ⟨_, a, b, hy, ha, hb⟩ := h
    simp only [inorder, List.mem_append, List.mem_cons] at hx
    rcases hx with hx | rfl | hx
    case inl     => exact hil ha hx
    case inr.inl => exact ⟨_, hy⟩
    case inr.inr => exact hir hb hx

theorem eq_none (h : Rep links none q t) : t = .nil := by
  cases t
  case nil  => rfl
  case node => cases h.left

theorem eq_node (h : Rep links (some x) q t) : ∃ l r, t = .node x l r := by
  cases t
  case nil        => cases h
  case node y l r =>
    cases h.left
    exact ⟨l, r, rfl⟩

theorem mem_root (h : Rep links (some x) q t) : x ∈ inorder t := by
  obtain ⟨l, r, rfl⟩ := h.eq_node
  simp [inorder]

-- Only the root of a tree knows the parent of the tree.
theorem setParent (h : Rep links p q t) (hn : (inorder t).Nodup)
    (hp : ∀ x, p = some x → ∀ n, links x = some n → links' x = some { n with parent := q' })
    (hl : ∀ x ∈ inorder t, p ≠ some x → links' x = links x) : Rep links' p q' t := by
  cases t
  case nil        => exact h
  case node x l r =>
    obtain ⟨rfl, a, b, hx, ha, hb⟩ := h
    rw [inorder, List.nodup_middle, List.nodup_cons] at hn
    refine ⟨rfl, a, b, hp x rfl _ hx, ha.congr fun y hy => ?_, hb.congr fun y hy => ?_⟩
    case refine_1 =>
      refine hl y (by simp [inorder, hy]) fun he => hn.left ?_
      cases he
      exact List.mem_append_left _ hy
    case refine_2 =>
      refine hl y (by simp [inorder, hy]) fun he => hn.left ?_
      cases he
      exact List.mem_append_right _ hy

theorem plug_iff : Rep links root parent (plug fs t) ↔ ∃ p q, Way links root parent fs p q ∧ Rep links p q t := by
  induction fs generalizing t
  case nil =>
    constructor
    case mp  => exact fun h => ⟨root, parent, ⟨rfl, rfl⟩, h⟩
    case mpr =>
      rintro ⟨p, q, ⟨rfl, rfl⟩, h⟩
      exact h
  case cons f fs hi =>
    cases f <;> rw [plug, hi] <;> constructor
    case left.mp =>
      rintro ⟨_, q, hw, rfl, a, b, hx, ha, hb⟩
      exact ⟨a, _, ⟨rfl, b, q, hx, hb, hw⟩, ha⟩
    case left.mpr =>
      rintro ⟨p, _, ⟨rfl, b, q', hx, hb, hw⟩, h⟩
      exact ⟨_, q', hw, rfl, p, b, hx, h, hb⟩
    case right.mp =>
      rintro ⟨_, q, hw, rfl, a, b, hx, ha, hb⟩
      exact ⟨b, _, ⟨rfl, a, q, hx, ha, hw⟩, hb⟩
    case right.mpr =>
      rintro ⟨p, _, ⟨rfl, a, q', hx, ha, hw⟩, h⟩
      exact ⟨_, q', hw, rfl, a, p, hx, ha, h⟩

end Rep

namespace Way

theorem congr (h : Way links root parent fs p q) (hl : ∀ x ∈ before fs ++ after fs, links' x = links x) :
    Way links' root parent fs p q := by
  induction fs generalizing p q
  case nil => exact h
  case cons f fs hi =>
    have hl {x} (hx : x ∈ f.node :: (inorder f.other ++ (before fs ++ after fs))) : links' x = links x :=
      hl x <| perm.mem_iff.mpr hx
    cases f <;> obtain ⟨rfl, b, q', hx, hb, hw⟩ := h
    all_goals exact ⟨rfl, b, q', (hl List.mem_cons_self).trans hx,
      hb.congr fun y hy => hl <| List.mem_cons_of_mem _ <| List.mem_append_left _ hy,
      hi hw fun y hy => hl <| List.mem_cons_of_mem _ <| List.mem_append_right _ hy⟩

theorem parent_eq (h : Way links root parent (f :: fs) p q) : q = some f.node := by
  cases f <;> exact h.left

-- A subtree is replaced by another one in the node next to it.
theorem setChild (h : Way links root parent (f :: fs) p q) (hn : (before (f :: fs) ++ after (f :: fs)).Nodup)
    (hf : ∀ n, links f.node = some n → links' f.node = some (f.setChild p' n))
    (hl : ∀ x ∈ before (f :: fs) ++ after (f :: fs), x ≠ f.node → links' x = links x) :
    Way links' root parent (f :: fs) p' q := by
  have hn := List.nodup_cons.mp <| perm.nodup_iff.mp hn
  have hl {x} (hx : x ∈ inorder f.other ++ (before fs ++ after fs)) : links' x = links x := by
    refine hl x (perm.mem_iff.mpr <| List.mem_cons_of_mem _ hx) ?_
    rintro rfl
    exact hn.left hx
  cases f <;> obtain ⟨rfl, b, q', hx, hb, hw⟩ := h
  all_goals exact ⟨rfl, b, q', hf _ hx, hb.congr fun y hy => hl <| List.mem_append_left _ hy,
      hw.congr fun y hy => hl <| List.mem_append_right _ hy⟩

end Way

end Linked
