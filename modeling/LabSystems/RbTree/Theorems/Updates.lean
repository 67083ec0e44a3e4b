import Mathlib.Logic.Function.Basic
import LabSystems.RbTree.Basic

namespace RbTree.Head

open Algorithm (Addr)
open Linked Frame

variable {E : Type} {s s' s'' : Head E} {t u a b c : BinaryTree Addr} {p q q' v : Option Addr} {x y : Addr} {d : Side}
  {fs : List (Frame Addr)} {xs ys : List Addr} {col : Addr → Color}

def Element.links (n : Element E) : Links Addr :=
  ⟨n.left, n.right, n.parent⟩

def links (s : Head E) (x : Addr) : Option (Links Addr) :=
  s.element x |>.map Element.links

def colorOf (s : Head E) (x : Addr) : Color :=
  s.element x |>.elim .black (·.color)

def dataOf (s : Head E) (x : Addr) : Option E :=
  s.element x |>.map (·.data)

theorem links_child {n : Element E} : n.child d = (Element.links n).child d := by
  cases d <;> rfl

theorem links_setChild {n : Element E} : Element.links (n.setChild d p) = (Element.links n).setChild d p := by
  cases d <;> rfl

theorem exists_element (h : s.links x = some n) :
    ∃ e, s.element x = some ⟨e, n.left, n.right, n.parent, s.colorOf x⟩ := by
  obtain ⟨⟨e, l, r, q, c⟩, he, rfl⟩ := Option.map_eq_some_iff.mp h
  exact ⟨e, by simp [colorOf, he, Element.links]⟩

theorem length_lt_size (hn : xs.Nodup) (h : ∀ x ∈ xs, ∃ n, s.links x = some n) : xs.length < s.size := by
  refine Nat.lt_succ_of_le <| (List.subperm_of_subset hn fun x hx => ?_).length_le
  obtain ⟨n, hl⟩ := h x hx
  obtain ⟨e, he⟩ := exists_element hl
  rw [← AList.mem_keys, ← AList.lookup_isSome]
  exact Option.isSome_of_mem he

-- Outside of `xs` the links are the same, and so are colours and data everywhere.
structure Alters (s : Head E) (xs : List Addr) (s' : Head E) : Prop where
  links   : ∀ x ∉ xs, s'.links x = s.links x
  colorOf : s'.colorOf = s.colorOf
  dataOf  : s'.dataOf = s.dataOf

namespace Alters

theorem refl : s.Alters xs s :=
  ⟨fun _ _ => rfl, rfl, rfl⟩

theorem trans (h : s.Alters xs s') (h' : s'.Alters ys s'') : s.Alters (xs ++ ys) s'' where
  links x hx := by
    simp only [List.mem_append, not_or] at hx
    exact (h'.links x hx.right).trans <| h.links x hx.left
  colorOf := h'.colorOf.trans h.colorOf
  dataOf  := h'.dataOf.trans h.dataOf

theorem mono (h : s.Alters xs s') (hs : ∀ x ∈ xs, x ∈ ys) : s.Alters ys s' :=
  ⟨fun x hx => h.links x <| mt (hs x) hx, h.colorOf, h.dataOf⟩

theorem rep (h : s.Alters xs s') (hr : Rep s.links p q t) (hd : ∀ x ∈ inorder t, x ∉ xs) : Rep s'.links p q t :=
  hr.congr fun x hx => h.links x <| hd x hx

theorem way {root : Option Addr} (h : s.Alters xs s') (hw : Way s.links root none fs p q)
    (hd : ∀ x ∈ before fs ++ after fs, x ∉ xs) : Way s'.links root none fs p q :=
  hw.congr fun x hx => h.links x <| hd x hx

end Alters

theorem element_insert {n : Element E} :
    element { s with mem := s.mem.insert x n } = Function.update s.element x (some n) := by
  funext y
  by_cases he : y = x
  case pos =>
    subst he
    simp [element]
  case neg => simp [element, AList.lookup_insert_ne he, he]

-- A write to the links of an element.
theorem exists_write {f : Element E → Element E} {g : Links Addr → Links Addr} (h : s.links x = some n)
    (hl : ∀ n, Element.links (f n) = g (Element.links n)) (hc : ∀ n, (f n).color = n.color)
    (hd : ∀ n, (f n).data = n.data) :
    ∃ s', s.update x f = some s' ∧ s'.root = s.root ∧ s.Alters [x] s' ∧ s'.links x = some (g n) := by
  obtain ⟨m, hm, rfl⟩ := Option.map_eq_some_iff.mp h
  have he : element { s with mem := s.mem.insert x (f m) } = Function.update s.element x (some (f m)) := element_insert
  refine ⟨{ s with mem := s.mem.insert x (f m) }, by simp [update, hm], rfl, ⟨fun y hy => ?_, ?_, ?_⟩, ?_⟩
  case refine_1 =>
    have hy : y ≠ x := by simpa using hy
    rw [links, he, Function.update_of_ne hy, links]
  case refine_2 =>
    funext y
    by_cases hy : y = x
    case pos =>
      subst hy
      simp [colorOf, he, hm, hc]
    case neg => simp [colorOf, he, hy]
  case refine_3 =>
    funext y
    by_cases hy : y = x
    case pos =>
      subst hy
      simp [dataOf, he, hm, hd]
    case neg => simp [dataOf, he, hy]
  case refine_4 => simp [links, he, hl]

theorem exists_setChild (h : s.links x = some n) : ∃ s', s.update x (·.setChild d p) = some s' ∧ s'.root = s.root ∧
    s.Alters [x] s' ∧ s'.links x = some (n.setChild d p) :=
  exists_write h (fun _ => links_setChild) (fun _ => by cases d <;> rfl) fun _ => by cases d <;> rfl

theorem exists_setParent (h : s.links x = some n) : ∃ s', s.update x ({ · with parent := q }) = some s' ∧
    s'.root = s.root ∧ s.Alters [x] s' ∧ s'.links x = some { n with parent := q } :=
  exists_write (f := ({ · with parent := q })) (g := ({ · with parent := q })) h (fun _ => rfl) (fun _ => rfl)
    fun _ => rfl

-- The colours are `col` afterwards.
structure Paints (s : Head E) (col : Addr → Color) (s' : Head E) : Prop where
  root    : s'.root = s.root
  links   : s'.links = s.links
  dataOf  : s'.dataOf = s.dataOf
  colorOf : s'.colorOf = col

theorem Paints.trans (h : s.Paints col s') (h' : s'.Paints col' s'') : s.Paints col' s'' :=
  ⟨h'.root.trans h.root, h'.links.trans h.links, h'.dataOf.trans h.dataOf, h'.colorOf⟩

theorem exists_setColor (c : Color) (h : s.links x = some n) :
    ∃ s', s.setColor x c = some s' ∧ s.Paints (Function.update s.colorOf x c) s' := by
  obtain ⟨m, hm, rfl⟩ := Option.map_eq_some_iff.mp h
  have he : element { s with mem := s.mem.insert x { m with color := c } } = _ := element_insert
  refine ⟨{ s with mem := s.mem.insert x { m with color := c } }, by simp [setColor, update, hm], rfl, ?_, ?_, ?_⟩
  all_goals
    funext y
    by_cases hy : y = x
    case pos =>
      subst hy
      simp [links, dataOf, colorOf, Element.links, he, hm]
    case neg => simp [links, dataOf, colorOf, he, hy]

theorem exists_setBlackRed (hx : s.links x = some n) (hy : s.links y = some m) : ∃ s', s.setBlackRed x y = some s' ∧
    s.Paints (Function.update (Function.update s.colorOf x .black) y .red) s' := by
  obtain ⟨s₁, hs₁, h₁⟩ := exists_setColor .black hx
  obtain ⟨s₂, hs₂, h₂⟩ := exists_setColor .red (h₁.links ▸ hy)
  exact ⟨s₂, by simp [setBlackRed, hs₁, hs₂], h₁.colorOf ▸ h₁.trans h₂⟩

-- The parent of a tree is set in its root.
theorem exists_adopt (h : Rep s.links p q t) (hn : (inorder t).Nodup) : ∃ s', s.adopt p v = some s' ∧
    s'.root = s.root ∧ s.Alters (inorder t) s' ∧ Rep s'.links p v t := by
  cases p with
  | none =>
    obtain rfl := h.eq_none
    exact ⟨s, rfl, rfl, .refl, rfl⟩
  | some x =>
    obtain ⟨n, hx⟩ := h.mem h.mem_root
    obtain ⟨s', hs, hr, ha, hl⟩ := exists_setParent (q := v) hx
    refine ⟨s', hs, hr, ha.mono ?_, h.setParent hn (fun y hy n hn => ?_) fun y _ hy => ha.links y ?_⟩
    case refine_1 =>
      intro y hy
      rw [List.mem_singleton.mp hy]
      exact h.mem_root
    case refine_2 =>
      cases hy
      obtain rfl := Option.some.inj <| hx.symm.trans hn
      exact hl
    case refine_3 => simpa [eq_comm] using hy

theorem nodup_frame {f : Frame Addr} (h : (x :: (before (f :: fs) ++ after (f :: fs))).Nodup) :
    f.node ∈ before (f :: fs) ++ after (f :: fs) ∧ x ≠ f.node ∧ x ∉ inorder f.other := by
  have hx := (List.nodup_cons.mp h).left
  rw [perm.mem_iff, List.mem_cons, List.mem_append, not_or, not_or] at hx
  exact ⟨perm.mem_iff.mpr List.mem_cons_self, hx.left, hx.right.left⟩

-- Another subtree takes the place of the one at `x`.
theorem exists_redirect (v : Option Addr) (h : Way s.links s.root none fs (some x) q)
    (hn : (x :: (before fs ++ after fs)).Nodup) : ∃ s', s.redirect q x v = some s' ∧
      Way s'.links s'.root none fs v q ∧ s.Alters (before fs ++ after fs) s' := by
  cases fs with
  | nil =>
    obtain rfl := h.right
    exact ⟨{ s with root := v }, rfl, ⟨rfl, rfl⟩, fun _ _ => rfl, rfl, rfl⟩
  | cons f fs =>
    obtain ⟨hm, _, hx⟩ := nodup_frame hn
    obtain ⟨rfl, n, hf, hp, hb, hw⟩ := Way.cons_iff.mp h
    obtain ⟨s', hs, hr, ha, hl⟩ := exists_setChild (d := f.side) (p := v) hf
    refine ⟨s', ?_, ?_, ha.mono fun y hy => List.mem_singleton.mp hy ▸ hm⟩
    case refine_1 =>
      obtain ⟨e, he⟩ := exists_element hf
      cases f with
      | left  => simpa [redirect, he, show n.left = some x from hp, Frame.side] using hs
      | right =>
        have hne : n.left ≠ some x := by
          intro hl
          have hb : Rep s.links n.left _ _ := hb
          exact hx (hl ▸ hb).mem_root
        simpa [redirect, he, hne, Frame.side] using hs
    case refine_2 =>
      rw [hr]
      refine h.setChild (List.nodup_cons.mp hn).right (fun m hm => ?_) fun y _ hy => ha.links y (by simpa using hy)
      obtain rfl := Option.some.inj <| hf.symm.trans hm
      rw [hl, setChild_eq]

theorem nodup_plug (h : (inorder (plug fs t)).Nodup) : (inorder t).Nodup ∧ (before fs ++ after fs).Nodup ∧
    ∀ x ∈ inorder t, x ∉ before fs ++ after fs := by
  obtain ⟨ht, hf, hd⟩ := List.nodup_append.mp <| perm_plug.nodup_iff.mp h
  exact ⟨ht, hf, fun x hx hm => hd x hx x hm rfl⟩

theorem nodup_join (h : (inorder (join d x t u)).Nodup) : x ∉ inorder t ∧ x ∉ inorder u ∧ (inorder t).Nodup ∧
    (inorder u).Nodup ∧ ∀ y ∈ inorder t, y ∉ inorder u := by
  obtain ⟨hx, hn⟩ := List.nodup_cons.mp <| perm_join.nodup_iff.mp h
  rw [List.mem_append, not_or] at hx
  obtain ⟨ht, hu, hd⟩ := List.nodup_append.mp hn
  exact ⟨hx.left, hx.right, ht, hu, fun y hy hm => hd y hy y hm rfl⟩

theorem exists_rotate (h : Rep s.links s.root none (plug fs (join d x a (join d y b c))))
    (hn : (inorder (plug fs (join d x a (join d y b c)))).Nodup) : ∃ s', s.rotate d x = some s' ∧
      Rep s'.links s'.root none (plug fs (join d y (join d x a b) c)) ∧ s'.colorOf = s.colorOf ∧
        s'.dataOf = s.dataOf := by
  obtain ⟨hnt, hnf, hf⟩ := nodup_plug hn
  obtain ⟨hxa, hxu, -, hnu, hau⟩ := nodup_join hnt
  obtain ⟨hyb, hyc, hnb, -, hbc⟩ := nodup_join hnu
  simp only [mem_join, not_or] at hf hxu hau
  obtain ⟨hxy, hxb, hxc⟩ := hxu
  have hxf := hf x (.inl rfl)
  have hyf := hf y (.inr <| .inr <| .inl rfl)
  obtain ⟨p, q, hw, hr⟩ := Rep.plug_iff.mp h
  obtain ⟨rfl, n, hx, rfl, ha, hu⟩ := Rep.join_iff.mp hr
  obtain ⟨hny, m, hy, hmp, hb, hc⟩ := Rep.join_iff.mp hu
  obtain ⟨ex, hex⟩ := exists_element hx
  obtain ⟨ey, hey⟩ := exists_element hy
  -- The inner subtree becomes a child of `x`.
  obtain ⟨s₁, hs₁, hr₁, ha₁, hx₁⟩ := exists_setChild (d := d.other) (p := m.child d) hx
  have hb₁ := ha₁.rep hb fun z hz hm => hxb <| List.mem_singleton.mp hm ▸ hz
  obtain ⟨s₂, hs₂, hr₂, ha₂, hb₂⟩ := exists_adopt (v := some x) hb₁ hnb
  have hx₂ := (ha₂.links x hxb).trans hx₁
  have hy₂ := (ha₂.links y hyb).trans <| (ha₁.links y (by simpa using Ne.symm hxy)).trans hy
  -- The place of `x` becomes that of `y`.
  obtain ⟨s₃, hs₃, hr₃, ha₃, hy₃⟩ := exists_setParent (q := n.parent) hy₂
  have hw₃ : Way s₃.links s₃.root none fs (some x) n.parent := by
    rw [hr₃, hr₂, hr₁]
    refine ((ha₁.trans ha₂).trans ha₃).way hw fun z hz hm => ?_
    simp only [List.mem_append, List.mem_singleton] at hm
    rcases hm with (rfl | hm) | rfl
    case inl.inl => exact hxf hz
    case inl.inr => exact hf z (.inr <| .inr <| .inr <| .inl hm) hz
    case inr     => exact hyf hz
  obtain ⟨s₄, hs₄, hw₄, ha₄⟩ := exists_redirect (some y) hw₃ (List.nodup_cons.mpr ⟨hxf, hnf⟩)
  have hy₄ := (ha₄.links y hyf).trans hy₃
  have hx₄ := (ha₄.links x hxf).trans <| (ha₃.links x (by simpa using hxy)).trans hx₂
  obtain ⟨s₅, hs₅, hr₅, ha₅, hy₅⟩ := exists_setChild (d := d) (p := some x) hy₄
  have hx₅ := (ha₅.links x (by simpa using hxy)).trans hx₄
  obtain ⟨s₆, hs₆, hr₆, ha₆, hx₆⟩ := exists_setParent (q := some y) hx₅
  have hy₆ := (ha₆.links y (by simpa using Ne.symm hxy)).trans hy₅
  have hall := ((((ha₁.trans ha₂).trans ha₃).trans ha₄).trans ha₅).trans ha₆
  refine ⟨s₆, ?_, ?_, hall.colorOf, hall.dataOf⟩
  case refine_1 =>
    obtain ⟨ex₂, hex₂⟩ := exists_element hx₂
    simp [rotate, hex, hey, links_child, Element.links, hny, hs₁, hs₂, hex₂, hs₃, hs₄, hs₅, hs₆]
  case refine_2 =>
    refine Rep.plug_iff.mpr ⟨some y, n.parent, ?_, Rep.join_iff.mpr ⟨rfl, _, hy₆, by simp, ?_, ?_⟩⟩
    case refine_1 =>
      rw [hr₆, hr₅]
      refine (ha₅.trans ha₆).way hw₄ fun z hz hm => ?_
      simp only [List.mem_append, List.mem_singleton] at hm
      rcases hm with rfl | rfl
      case inl => exact hyf hz
      case inr => exact hxf hz
    case refine_2 =>
      rw [Links.child_setChild]
      refine Rep.join_iff.mpr ⟨rfl, _, hx₆, rfl, ?_, ?_⟩
      case refine_1 =>
        simp only [Links.child_setParent, Links.child_setChild_other]
        refine hall.rep ha fun z hz hm => ?_
        simp only [List.mem_append, List.mem_singleton] at hm
        grind
      case refine_2 =>
        simp only [Links.child_setParent, Links.child_setChild]
        refine ((ha₃.trans ha₄).trans (ha₅.trans ha₆)).rep hb₂ fun z hz hm => ?_
        simp only [List.mem_append, List.mem_singleton] at hm
        grind
    case refine_3 =>
      simp only [Links.other_setChild, Links.child_setParent]
      refine hall.rep hc fun z hz hm => ?_
      simp only [List.mem_append, List.mem_singleton] at hm
      grind

end RbTree.Head
