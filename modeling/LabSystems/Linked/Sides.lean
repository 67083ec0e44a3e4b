import LabSystems.Linked.Tree

-- The sides of a node, so that what is said of one side is said of both.
namespace Linked

inductive Side
  | left
  | right
  deriving DecidableEq

variable {α : Type} {d : Side} {x y : α} {t u a b c : BinaryTree α}

namespace Side

def other : Side → Side
  | left  => right
  | right => left

@[simp]
theorem other_other : d.other.other = d := by
  cases d <;> rfl

@[simp]
theorem other_ne : d.other ≠ d := by
  cases d <;> simp [other]

end Side

-- The tree `t` is on side `d`.
def join (d : Side) (x : α) (t u : BinaryTree α) : BinaryTree α :=
  match d with
  | .left  => .node x t u
  | .right => .node x u t

theorem join_other : join d.other x t u = join d x u t := by
  cases d <;> rfl

theorem exists_join (d : Side) (h : t ≠ .nil) : ∃ x a b, t = join d x a b := by
  cases t
  case nil          => exact absurd rfl h
  case node x l r =>
    cases d
    case left  => exact ⟨x, l, r, rfl⟩
    case right => exact ⟨x, r, l, rfl⟩

theorem perm_join : (inorder (join d x t u)).Perm (x :: (inorder t ++ inorder u)) := by
  cases d
  case left  => exact List.perm_middle
  case right => exact List.perm_middle.trans <| .cons x List.perm_append_comm

@[simp]
theorem mem_join {z : α} : z ∈ inorder (join d x t u) ↔ z = x ∨ z ∈ inorder t ∨ z ∈ inorder u := by
  rw [perm_join.mem_iff, List.mem_cons, List.mem_append]

-- The pointer to a tree.
def top : BinaryTree α → Option α
  | .nil        => none
  | .node x _ _ => some x

@[simp]
theorem top_nil : top (.nil : BinaryTree α) = none :=
  rfl

@[simp]
theorem top_node : top (.node x t u) = some x :=
  rfl

@[simp]
theorem top_join : top (join d x t u) = some x := by
  cases d <;> rfl

-- A rotation does not change the walk.
theorem inorder_rotate : inorder (join d x a (join d y b c)) = inorder (join d y (join d x a b) c) := by
  cases d <;> simp [join, inorder]

namespace Links

def child (d : Side) (n : Links α) : Option α :=
  match d with
  | .left  => n.left
  | .right => n.right

def setChild (d : Side) (p : Option α) (n : Links α) : Links α :=
  match d with
  | .left  => { n with left := p }
  | .right => { n with right := p }

variable {n : Links α} {p : Option α}

@[simp]
theorem child_setChild : (n.setChild d p).child d = p := by
  cases d <;> rfl

@[simp]
theorem child_setChild_other : (n.setChild d.other p).child d = n.child d := by
  cases d <;> rfl

@[simp]
theorem other_setChild : (n.setChild d p).child d.other = n.child d.other := by
  cases d <;> rfl

@[simp]
theorem parent_setChild : (n.setChild d p).parent = n.parent := by
  cases d <;> rfl

@[simp]
theorem child_setParent : child d { n with parent := p } = n.child d := by
  cases d <;> rfl

end Links

namespace Frame

-- The way is on side `d` of the node `x`.
def on (d : Side) (x : α) (u : BinaryTree α) : Frame α :=
  match d with
  | .left  => left x u
  | .right => right x u

def side : Frame α → Side
  | left _ _  => .left
  | right _ _ => .right

variable {f : Frame α} {fs : List (Frame α)}

@[simp]
theorem node_on : (on d x u).node = x := by
  cases d <;> rfl

@[simp]
theorem other_on : (on d x u).other = u := by
  cases d <;> rfl

@[simp]
theorem side_on : (on d x u).side = d := by
  cases d <;> rfl

theorem on_side : on f.side f.node f.other = f := by
  cases f <;> rfl

theorem plug_cons : plug (f :: fs) t = plug fs (join f.side f.node t f.other) := by
  cases f <;> rfl

theorem plug_on : plug (on d x u :: fs) t = plug fs (join d x t u) := by
  cases d <;> rfl

theorem setChild_eq {n : Links α} {p : Option α} : f.setChild p n = n.setChild f.side p := by
  cases f <;> rfl

end Frame

open Linked.Frame

variable {links links' : α → Option (Links α)} {root parent p q : Option α} {f : Frame α} {fs : List (Frame α)}

theorem Rep.eq_top (h : Rep links p q t) : p = top t := by
  cases t
  case nil  => exact h
  case node => exact h.left

theorem Way.parent_eq_head (h : Way links root none fs p q) : q = fs.head?.map Frame.node := by
  cases fs
  case nil  => exact h.right
  case cons => exact h.parent_eq

theorem Rep.join_iff : Rep links p q (join d x t u) ↔ p = some x ∧ ∃ n, links x = some n ∧ n.parent = q ∧
    Rep links (n.child d) (some x) t ∧ Rep links (n.child d.other) (some x) u := by
  constructor
  case mp =>
    intro h
    cases d <;> obtain ⟨hp, a, b, hx, ha, hb⟩ := h
    case left  => exact ⟨hp, _, hx, rfl, ha, hb⟩
    case right => exact ⟨hp, _, hx, rfl, hb, ha⟩
  case mpr =>
    rintro ⟨hp, n, hx, rfl, ht, hu⟩
    cases d
    case left  => exact ⟨hp, _, _, hx, ht, hu⟩
    case right => exact ⟨hp, _, _, hx, hu, ht⟩

theorem Way.cons_iff : Way links root parent (f :: fs) p q ↔ q = some f.node ∧ ∃ n, links f.node = some n ∧
    n.child f.side = p ∧ Rep links (n.child f.side.other) (some f.node) f.other ∧
      Way links root parent fs (some f.node) n.parent := by
  constructor
  case mp =>
    intro h
    cases f <;> obtain ⟨hq, b, q', hx, hb, hw⟩ := h
    case left  => exact ⟨hq, _, hx, rfl, hb, hw⟩
    case right => exact ⟨hq, _, hx, rfl, hb, hw⟩
  case mpr =>
    rintro ⟨hq, n, hx, rfl, hb, hw⟩
    cases f
    case left  => exact ⟨hq, _, _, hx, hb, hw⟩
    case right => exact ⟨hq, _, _, hx, hb, hw⟩

-- The root is on the way to a proper subtree.
theorem Way.exists_root (h : Way links root parent (f :: fs) p q) :
    ∃ x ∈ before (f :: fs) ++ after (f :: fs), root = some x := by
  induction fs generalizing f p q
  case nil =>
    obtain ⟨_, n, _, _, _, hw⟩ := Way.cons_iff.mp h
    exact ⟨f.node, perm.mem_iff.mpr List.mem_cons_self, hw.left.symm⟩
  case cons g fs hi =>
    obtain ⟨_, n, _, _, _, hw⟩ := Way.cons_iff.mp h
    obtain ⟨x, hx, hr⟩ := hi hw
    exact ⟨x, perm.mem_iff.mpr <| List.mem_cons_of_mem _ <| List.mem_append_right _ hx, hr⟩

end Linked
