import LabSystems.RbTree.Theorems.Removal

namespace RbTree.Head

open Algorithm (Addr)
open Linked Frame

variable {E : Type} {s s' : Head E} {t l r : BinaryTree Addr} {p q : Option Addr} {x y : Addr} {xs ys : List Addr}
  {fs gs : List (Frame Addr)} {c : Color} {n m : Nat}

-- The loop goes to the first element of the walk.
theorem leftmost_eq (h : Rep s.links p q (.node x l r)) (hf : (inorder (.node x l r)).length ≤ fuel) :
    ∃ gs y r', .node x l r = plug gs (.node y .nil r') ∧ before gs = [] ∧ s.leftmost fuel x = some y := by
  induction l generalizing p q x r fuel <;> cases fuel
  case nil.succ =>
    obtain ⟨rfl, a, b, hx, rfl, _⟩ := h
    obtain ⟨e, he⟩ := exists_element hx
    exact ⟨[], x, r, rfl, rfl, by simp [leftmost, he]⟩
  case node.succ z l' r' hi _ fuel =>
    obtain ⟨rfl, a, b, hx, ha, _⟩ := h
    obtain ⟨e, he⟩ := exists_element hx
    rw [inorder, List.length_append, List.length_cons] at hf
    obtain ⟨gs, y, yr, heq, hb, hs⟩ := hi ha (by omega : (inorder (.node z l' r')).length ≤ fuel)
    obtain rfl := ha.left
    refine ⟨gs ++ [.left x r], y, yr, ?_, ?_, ?_⟩
    case refine_1 => rw [plug_append, ← heq, plug, plug]
    case refine_2 => simp [before_append, hb, before]
    case refine_3 => simpa [leftmost, he] using hs
  all_goals simp [inorder] at hf

theorem inorder_minimum (h : before gs = []) :
    inorder (plug gs (.node y .nil r)) = y :: inorder (plug gs r) := by
  simp [inorder_plug, h, inorder]

-- An element with one child at most gives its place to this child.
theorem Represents.cut (h : s.Represents (plug fs (.node x l r))) (ht : l = .nil ∧ t = r ∨ r = .nil ∧ t = l) :
    ∃ s', s.cut x (top t) = some (s', fs.head?.map Frame.node, s.colorOf x) ∧ s'.Represents (plug fs t) ∧
      s'.colorOf = s.colorOf ∧ s'.dataOf = s.dataOf ∧ s'.links x = s.links x := by
  have hj : s.Represents (plug fs (join .left x l r)) := h
  obtain ⟨hn, hfn, hd⟩ := nodup_plug hj.nodup
  obtain ⟨hxl, hxr, hln, hrn, _⟩ := nodup_join hn
  obtain ⟨n, hx, hw, hl, hr⟩ := hj.at_node
  obtain ⟨e, he⟩ := exists_element hx
  have hxf : x ∉ before fs ++ after fs := hd x (by simp)
  have hxt : x ∉ inorder t := by rcases ht with ⟨_, rfl⟩ | ⟨_, rfl⟩ <;> assumption
  have htn : (inorder t).Nodup := by rcases ht with ⟨_, rfl⟩ | ⟨_, rfl⟩ <;> assumption
  have htf : ∀ y ∈ inorder t, y ∉ before fs ++ after fs := by
    intro y hy
    rcases ht with ⟨_, rfl⟩ | ⟨_, rfl⟩
    case inl => exact hd y (by simp [hy])
    case inr => exact hd y (by simp [hy])
  have hrt : Rep s.links (top t) (some x) t := by
    rcases ht with ⟨_, rfl⟩ | ⟨_, rfl⟩
    case inl => exact hr.eq_top ▸ hr
    case inr => exact hl.eq_top ▸ hl
  obtain ⟨s₁, hs₁, hr₁, ha₁, ht₁⟩ := exists_adopt (v := n.parent) hrt htn
  have hw₁ : Way s₁.links s₁.root none fs (some x) n.parent := hr₁ ▸ ha₁.way hw fun y hy hm => htf y hm hy
  obtain ⟨s₂, hs₂, hw₂, ha₂⟩ := exists_redirect (top t) hw₁ (List.nodup_cons.mpr ⟨hxf, hfn⟩)
  have hall := ha₁.trans ha₂
  refine ⟨s₂, ?_, ⟨Rep.plug_iff.mpr ⟨_, _, hw₂, ha₂.rep ht₁ htf⟩, ?_⟩, hall.colorOf, hall.dataOf, hall.links x ?_⟩
  case refine_1 =>
    rw [← hw.parent_eq_head]
    simp [Head.cut, he, hs₁, hs₂]
  case refine_2 =>
    refine perm_plug.nodup_iff.mpr <| List.nodup_append.mpr ⟨htn, hfn, fun y hy z hz hne => ?_⟩
    exact htf y hy (hne ▸ hz)
  case refine_3 => simp [hxt, hxf]

theorem exists_overwrite {f : Element E → Element E} (h : s.links x = some k) (hl : ∀ n, Element.links (f n) = g)
    (hc : ∀ n, (f n).color = c) (hd : ∀ n, (f n).data = n.data) : ∃ s', s.update x f = some s' ∧ s'.root = s.root ∧
      (∀ y ≠ x, s'.links y = s.links y) ∧ s'.links x = some g ∧ s'.colorOf = Function.update s.colorOf x c ∧
        s'.dataOf = s.dataOf := by
  obtain ⟨m, hm, rfl⟩ := Option.map_eq_some_iff.mp h
  have he : element { s with mem := s.mem.insert x (f m) } = Function.update s.element x (some (f m)) := element_insert
  refine ⟨{ s with mem := s.mem.insert x (f m) }, by simp [update, hm], rfl, fun y hy => ?_, ?_, ?_, ?_⟩
  case refine_1 => simp [links, he, hy]
  case refine_2 => simp [links, he, hl]
  case refine_3 =>
    funext y
    by_cases hy : y = x
    case pos =>
      subst hy
      simp [colorOf, he, hc]
    case neg => simp [colorOf, he, hy]
  case refine_4 =>
    funext y
    by_cases hy : y = x
    case pos =>
      subst hy
      simp [dataOf, he, hm, hd]
    case neg => simp [dataOf, he, hy]

-- An element takes the place and the colour of another one.
theorem Represents.supplant (h : s.Represents (plug fs (.node x l r))) (hl : l ≠ .nil)
    (hy : y ∉ inorder (plug fs (.node x l r))) (hyl : s.links y = some k) :
    ∃ s', s.supplant x y = some s' ∧ s'.Represents (plug fs (.node y l r)) ∧
      s'.colorOf = Function.update s.colorOf y (s.colorOf x) ∧ s'.dataOf = s.dataOf ∧ s'.links x = s.links x := by
  have hj : s.Represents (plug fs (join .left x l r)) := h
  obtain ⟨hn, hfn, hd⟩ := nodup_plug hj.nodup
  obtain ⟨hxl, hxr, hln, hrn, hlr⟩ := nodup_join hn
  obtain ⟨n, hx, hw, hrl, hrr⟩ := hj.at_node
  have hrl : Rep s.links n.left (some x) l := hrl
  have hrr : Rep s.links n.right (some x) r := hrr
  obtain ⟨e, he⟩ := exists_element hx
  rw [perm_plug.mem_iff, List.mem_append, not_or] at hy
  obtain ⟨hy, hyf⟩ := hy
  simp only [inorder, List.mem_append, List.mem_cons, not_or] at hy
  obtain ⟨hyl', hyx, hyr⟩ := hy
  simp only [mem_join] at hd
  obtain ⟨s₁, hs₁, hr₁, hl₁, hy₁, hc₁, hd₁⟩ := exists_overwrite (s := s) (x := y) (g := n) (c := s.colorOf x)
    (f := fun n' => ⟨n'.data, n.left, n.right, n.parent, s.colorOf x⟩) hyl (fun _ => rfl) (fun _ => rfl) fun _ => rfl
  have hw₁ : Way s₁.links s₁.root none fs (some x) n.parent := by
    rw [hr₁]
    refine hw.congr fun z hz => hl₁ z ?_
    rintro rfl
    exact hyf hz
  obtain ⟨s₂, hs₂, hw₂, ha₂⟩ := exists_redirect (some y) hw₁ (List.nodup_cons.mpr ⟨hd x (.inl rfl), hfn⟩)
  have hy₂ := (ha₂.links y hyf).trans hy₁
  have hl₂ : Rep s₂.links n.left (some x) l := by
    refine ha₂.rep (hrl.congr fun z hz => hl₁ z ?_) fun z hz => hd z (.inr <| .inl hz)
    rintro rfl
    exact hyl' hz
  have hr₂ : Rep s₂.links n.right (some x) r := by
    refine ha₂.rep (hrr.congr fun z hz => hl₁ z ?_) fun z hz => hd z (.inr <| .inr hz)
    rintro rfl
    exact hyr hz
  obtain ⟨s₃, hs₃, hr₃, ha₃, hl₃⟩ := exists_adopt (v := some y) hl₂ hln
  have hr₃' := ha₃.rep hr₂ fun z hz hm => hlr z hm hz
  obtain ⟨s₄, hs₄, hr₄, ha₄, hr₄'⟩ := exists_adopt (v := some y) hr₃' hrn
  have hl₄ := ha₄.rep hl₃ hlr
  have h₃₄ := ha₃.trans ha₄
  obtain ⟨z, hz⟩ : ∃ z, n.left = some z := by
    cases l with
    | nil  => exact absurd rfl hl
    | node => exact ⟨_, hrl.left⟩
  refine ⟨s₄, ?_, ⟨Rep.plug_iff.mpr ⟨some y, n.parent, ?_, rfl, n.left, n.right, ?_, hl₄, hr₄'⟩, ?_⟩, ?_, ?_, ?_⟩
  case refine_1 =>
    rw [hz] at hs₃ hs₁
    simp only [adopt] at hs₃
    simp [Head.supplant, he, hz, hs₁, hs₂, hs₃, hs₄]
  case refine_2 =>
    rw [hr₄, hr₃]
    refine h₃₄.way hw₂ fun w hw hm => ?_
    rcases List.mem_append.mp hm with hm | hm
    case inl => exact hd w (.inr <| .inl hm) hw
    case inr => exact hd w (.inr <| .inr hm) hw
  case refine_3 => exact (h₃₄.links y (by simp [hyl', hyr])).trans hy₂
  case refine_4 =>
    have hp := perm_plug.nodup_iff.mp h.nodup
    refine perm_plug.nodup_iff.mpr ?_
    simp only [inorder, List.nodup_append, List.nodup_cons, List.mem_append, List.mem_cons] at hp ⊢
    grind
  case refine_5 => rw [h₃₄.colorOf, ha₂.colorOf, hc₁]
  case refine_6 => rw [h₃₄.dataOf, ha₂.dataOf, hd₁]
  case refine_7 => rw [h₃₄.links x (by simp [hxl, hxr]), ha₂.links x (hd x <| .inl rfl), hl₁ x <| Ne.symm hyx]

theorem length_frames (fs : List (Frame Addr)) : fs.length ≤ (before fs ++ after fs).length := by
  induction fs
  case nil => simp
  case cons f fs hi =>
    have hl : (before (f :: fs) ++ after (f :: fs)).length = _ := perm.length_eq
    rw [List.length_cons, hl]
    simp only [List.length_cons, List.length_append] at hi ⊢
    omega

-- What is in the place of a subtree after its root, which had one child at most, has given it to this child.
def Inherits (col : Addr → Color) (t : BinaryTree Addr) (c : Color) (n : Nat) : Prop :=
  c = .red ∧ Balanced col t .black n ∨ c = .black ∧ ∃ m c', n = m + 1 ∧ Balanced col t c' m

theorem Inherits.congr {col col' : Addr → Color} (h : Inherits col t c n) (hc : ∀ x ∈ inorder t, col' x = col x) :
    Inherits col' t c n := by
  rcases h with ⟨hr, ht⟩ | ⟨hb, m, c', hm, ht⟩
  case inl => exact .inl ⟨hr, ht.congr hc⟩
  case inr => exact .inr ⟨hb, m, c', hm, ht.congr hc⟩

theorem Inherits.of_leaf (h : Balanced s.colorOf (.node x l r) c n) (ht : l = .nil ∧ t = r ∨ r = .nil ∧ t = l) :
    c = s.colorOf x ∧ Inherits s.colorOf t c n := by
  have h : Balanced s.colorOf (join .left x l r) c n := h
  obtain ⟨hc, ⟨hr, hl, hr'⟩ | ⟨hb, m, c₁, c₂, hm, hl, hr'⟩⟩ := h.of_join
  case inl =>
    rcases ht with ⟨_, rfl⟩ | ⟨_, rfl⟩
    case inl => exact ⟨hc, .inl ⟨hr, hr'⟩⟩
    case inr => exact ⟨hc, .inl ⟨hr, hl⟩⟩
  case inr =>
    rcases ht with ⟨_, rfl⟩ | ⟨_, rfl⟩
    case inl => exact ⟨hc, .inr ⟨hb, m, c₂, hm, hr'⟩⟩
    case inr => exact ⟨hc, .inr ⟨hb, m, c₁, hm, hl⟩⟩

-- The end of `RB_REMOVE`, after the place of a node `y` has gone to its only child.
theorem exists_recolor (h : s.Represents (plug fs t)) (hf : Fits s.colorOf fs c n) (ht : Inherits s.colorOf t c n)
    (hy : y ∉ inorder (plug fs t)) (hyl : s.links y = some k) :
    ∃ s' t' m, (if c = .black then removeColor s.size (fs.head?.map Frame.node) (top t) s else some s) = some s' ∧
      s'.Represents t' ∧ inorder t' = inorder (plug fs t) ∧ s'.dataOf = s.dataOf ∧ Balanced s'.colorOf t' .black m := by
  rcases ht with ⟨rfl, ht⟩ | ⟨rfl, n, c, rfl, ht⟩
  case inl =>
    obtain ⟨m, hm⟩ := hf.to_black.plug ht
    exact ⟨s, _, m, rfl, h, rfl, rfl, hm⟩
  case inr =>
    rw [if_pos rfl]
    cases c with
    | black =>
      have hlen := length_lt_size (List.nodup_cons.mpr ⟨hy, h.nodup⟩) fun x hx => by
        rcases List.mem_cons.mp hx with rfl | hx
        case inl => exact ⟨_, hyl⟩
        case inr => exact h.rep.mem hx
      have hfs := length_frames fs
      refine exists_removeColor h hf (.inl ⟨ht, ?_⟩)
      rw [List.length_cons, perm_plug.length_eq, List.length_append] at hlen
      omega
    | red =>
      obtain ⟨x, l, r, rfl, hx, hl, hr⟩ := ht.exists_root .left
      exact exists_removeColor h hf (.inr ⟨⟨_, _, _, _, _, _, rfl, hx, hl, hr⟩, Nat.succ_le_succ (Nat.zero_le _)⟩)

-- An element with one child at most.
theorem exists_remove_leaf (h : s.Represents (plug fs (.node x l r)))
    (hb : Balanced s.colorOf (plug fs (.node x l r)) .black n) (ht : l = .nil ∧ t = r ∨ r = .nil ∧ t = l) :
    ∃ s₁ s' t' m, s.cut x (top t) = some (s₁, fs.head?.map Frame.node, s.colorOf x) ∧
      (if s.colorOf x = .black then removeColor s₁.size (fs.head?.map Frame.node) (top t) s₁ else some s₁) = some s' ∧
        s'.Represents t' ∧ inorder t' = before fs ++ (inorder l ++ inorder r) ++ after fs ∧ s'.dataOf = s.dataOf ∧
          Balanced s'.colorOf t' .black m := by
  have hj : s.Represents (plug fs (join .left x l r)) := h
  obtain ⟨nx, hx, _⟩ := hj.at_node
  obtain ⟨hn, _, hd⟩ := nodup_plug hj.nodup
  obtain ⟨hxl, hxr, _⟩ := nodup_join hn
  have hxt : x ∉ inorder (plug fs t) := by
    rw [perm_plug.mem_iff, List.mem_append, not_or]
    refine ⟨?_, hd x (by simp)⟩
    rcases ht with ⟨_, rfl⟩ | ⟨_, rfl⟩ <;> assumption
  obtain ⟨s₁, hs₁, h₁, hc₁, hd₁, hl₁⟩ := h.cut ht
  obtain ⟨c, m, hf, hbx⟩ := Fits.of_plug hb
  obtain ⟨rfl, ht'⟩ := Inherits.of_leaf hbx ht
  rw [← hc₁] at hf ht'
  obtain ⟨s', t', m', hs', h', hi', hd', hb'⟩ := exists_recolor h₁ hf (hc₁ ▸ ht') hxt (hl₁.trans hx)
  refine ⟨s₁, s', t', m', hs₁, hc₁ ▸ hs', h', hi'.trans ?_, hd'.trans hd₁, hb'⟩
  rcases ht with ⟨rfl, rfl⟩ | ⟨rfl, rfl⟩ <;> simp [inorder_plug, inorder]

theorem plug_right : plug fs (.node x l (plug gs t)) = plug (gs ++ .right x l :: fs) t := by
  rw [plug_append, plug]

-- Where the parent of `y` was `x`, it is `y` itself in the place of `x`.
theorem parent_moved (hx : x ∉ inorder (plug gs t)) :
    (if (gs ++ .right x l :: fs).head?.map Frame.node = some x then some y
      else (gs ++ .right x l :: fs).head?.map Frame.node) = (gs ++ .right y l :: fs).head?.map Frame.node := by
  cases gs with
  | nil      => simp [Frame.node]
  | cons g gs =>
    have hgx : g.node ≠ x := by
      rintro rfl
      exact hx <| perm_plug.mem_iff.mpr <| List.mem_append_right _ <| perm.mem_iff.mpr List.mem_cons_self
    simp [hgx]

-- The leftmost element of the right subtree leaves its place, and takes that of an element with two children.
theorem exists_take (h : s.Represents (plug fs (.node x l (plug gs (.node y .nil r)))))
    (hb : Balanced s.colorOf (plug fs (.node x l (plug gs (.node y .nil r)))) .black n) (hl : l ≠ .nil) :
    ∃ s₁ s₂ m, s.cut y (top r) = some (s₁, (gs ++ .right x l :: fs).head?.map Frame.node, s.colorOf y) ∧
      s₁.supplant x y = some s₂ ∧ s₂.Represents (plug (gs ++ .right y l :: fs) r) ∧ s₂.dataOf = s.dataOf ∧
        Fits s₂.colorOf (gs ++ .right y l :: fs) (s.colorOf y) m ∧ Inherits s₂.colorOf r (s.colorOf y) m ∧
          x ∉ inorder (plug (gs ++ .right y l :: fs) r) ∧ ∃ k, s₂.links x = some k := by
  have hj : s.Represents (plug fs (join .left x l (plug gs (.node y .nil r)))) := h
  obtain ⟨hn, _, hd⟩ := nodup_plug hj.nodup
  obtain ⟨_, hxr, _, hrn, hlr⟩ := nodup_join hn
  simp only [mem_join] at hd
  have hjr : (inorder (plug gs (join .left y .nil r))).Nodup := hrn
  obtain ⟨hny, _, hgd⟩ := nodup_plug hjr
  obtain ⟨_, hyr', _⟩ := nodup_join hny
  have hyg : y ∉ before gs ++ after gs := hgd y (by simp)
  have hyr : y ∈ inorder (plug gs (.node y .nil r)) := perm_plug.mem_iff.mpr (by simp [inorder])
  have hyl : y ∉ inorder l := fun hm => hlr y hm hyr
  have hyf : y ∉ before fs ++ after fs := hd y (.inr <| .inr hyr)
  have hxf : x ∉ before fs ++ after fs := hd x (.inl rfl)
  have hxl : x ∉ inorder l := (nodup_join hn).left
  have hxy : x ≠ y := fun he => hxr (he ▸ hyr)
  have hr {w} (hw : w ∈ inorder (plug gs r)) : w ∈ inorder (plug gs (.node y .nil r)) := by
    rw [perm_plug.mem_iff, List.mem_append] at hw ⊢
    exact hw.imp_left fun hw => by simp [inorder, hw]
  have hygr : y ∉ inorder (plug gs r) := by
    rw [perm_plug.mem_iff, List.mem_append, not_or]
    exact ⟨hyr', hyg⟩
  rw [plug_right] at h hb
  have hjy : s.Represents (plug (gs ++ .right x l :: fs) (join .left y .nil r)) := h
  obtain ⟨ny, hy, _⟩ := hjy.at_node
  obtain ⟨s₁, hs₁, h₁, hc₁, hd₁, hl₁⟩ := h.cut (.inl ⟨rfl, rfl⟩)
  rw [← plug_right] at h₁
  have hyt : y ∉ inorder (plug fs (.node x l (plug gs r))) := by
    rw [perm_plug.mem_iff, List.mem_append, inorder, List.mem_append, List.mem_cons]
    grind
  obtain ⟨s₂, hs₂, h₂, hc₂, hd₂, hl₂⟩ := h₁.supplant hl hyt (hl₁.trans hy)
  have hne {w} (hw : w ≠ y) : s₂.colorOf w = s.colorOf w := by rw [hc₂, Function.update_of_ne hw, hc₁]
  obtain ⟨c, m, hf, hby⟩ := Fits.of_plug hb
  obtain ⟨rfl, ht⟩ := Inherits.of_leaf hby (.inl ⟨rfl, rfl⟩)
  obtain ⟨kx, hkx⟩ := h₁.rep.mem (x := x) (perm_plug.mem_iff.mpr <| by simp [inorder])
  refine ⟨s₁, s₂, m, hs₁, hs₂, plug_right ▸ h₂, hd₂.trans hd₁, ?_, ht.congr fun w hw => hne ?_, ?_, kx, hl₂.trans hkx⟩
  case refine_1 =>
    refine hf.rename ?_ rfl fun w hw => hne ?_
    case refine_1 => exact hc₂ ▸ hc₁ ▸ Function.update_self ..
    case refine_2 =>
      rintro rfl
      rcases List.mem_append.mp hw with hw | hw
      case inl => exact hyg hw
      case inr =>
        rcases List.mem_append.mp hw with hw | hw
        case inl => exact hyl hw
        case inr => exact hyf hw
  case refine_2 =>
    rintro rfl
    exact hyr' hw
  case refine_3 =>
    rw [← plug_right, perm_plug.mem_iff, List.mem_append, inorder, List.mem_append, List.mem_cons]
    have := @hr x
    grind

theorem exists_remove (h : s.Represents (plug fs (.node x l r)))
    (hb : Balanced s.colorOf (plug fs (.node x l r)) .black n) : ∃ s' t' m, s.remove x = some s' ∧ s'.Represents t' ∧
      inorder t' = before fs ++ (inorder l ++ inorder r) ++ after fs ∧ s'.dataOf = s.dataOf ∧
        Balanced s'.colorOf t' .black m := by
  have hj : s.Represents (plug fs (join .left x l r)) := h
  obtain ⟨nx, hx, _, hrl, hrr⟩ := hj.at_node
  have hrr : Rep s.links nx.right (some x) r := hrr
  have hnl : nx.left = top l := Rep.eq_top hrl
  have hnr : nx.right = top r := hrr.eq_top
  obtain ⟨e, he⟩ := exists_element hx
  cases l with
  | nil =>
    obtain ⟨s₁, s', t', m, hs₁, hs', h'⟩ := exists_remove_leaf h hb (.inl ⟨rfl, rfl⟩)
    refine ⟨s', t', m, ?_, h'⟩
    simpa [Head.remove, he, hnl, hnr, hs₁] using hs'
  | node a ll lr =>
    cases r with
    | nil =>
      obtain ⟨s₁, s', t', m, hs₁, hs', h'⟩ := exists_remove_leaf h hb (.inr ⟨rfl, rfl⟩)
      refine ⟨s', t', m, ?_, h'⟩
      rw [top_node] at hs₁ hs'
      simpa [Head.remove, he, hnl, hnr, hs₁] using hs'
    | node z rl rr =>
      have hlen := h.length_lt_size
      rw [perm_plug.length_eq, List.length_append, inorder, List.length_append, List.length_cons] at hlen
      obtain ⟨gs, y, r', heq, hgs, hmin⟩ := leftmost_eq hrr (by omega : _ ≤ s.size)
      have hxr := (nodup_join (nodup_plug hj.nodup).left).right.left
      rw [heq] at h hb hxr ⊢
      obtain ⟨s₁, s₂, m, hs₁, hs₂, h₂, hd₂, hf₂, ht₂, hxt, k, hkx⟩ := exists_take h hb (by simp)
      obtain ⟨s', t', m', hs', h', hi', hd', hb'⟩ := exists_recolor h₂ hf₂ ht₂ hxt hkx
      have hjy : s.Represents (plug (gs ++ .right x (.node a ll lr) :: fs) (join .left y .nil r')) := plug_right ▸ h
      obtain ⟨ny, hy, _, _, hry⟩ := hjy.at_node
      have hnyr : ny.right = top r' := Rep.eq_top hry
      obtain ⟨ey, hey⟩ := exists_element hy
      refine ⟨s', t', m', ?_, h', hi'.trans ?_, hd'.trans hd₂, hb'⟩
      case refine_1 =>
        rw [← parent_moved hxr] at hs'
        simpa [Head.remove, he, hnl, hnr, hmin, hey, hnyr, hs₁, hs₂] using hs'
      case refine_2 => rw [← plug_right, inorder_plug, inorder, inorder_minimum hgs]

end RbTree.Head
