import LabSystems.RbTree.Theorems.Insertion

namespace RbTree.Head

open Algorithm (Addr)
open Linked Frame

variable {E : Type} {s s' : Head E} {t u l r a b o : BinaryTree Addr} {p q v : Option Addr} {w x y z k : Addr}
  {d e : Side} {f g : Frame Addr} {fs gs : List (Frame Addr)} {col : Addr → Color} {c c' : Color} {n m : Nat}

theorem Represents.way (h : s.Represents (plug fs t)) : Way s.links s.root none fs (top t) (fs.head?.map Frame.node) ∧
    Rep s.links (top t) (fs.head?.map Frame.node) t := by
  obtain ⟨p, q, hw, hr⟩ := Rep.plug_iff.mp h.rep
  obtain rfl := hw.parent_eq_head
  obtain rfl := hr.eq_top
  exact ⟨hw, hr⟩

-- The root of a tree that is black already.
theorem exists_paint_black (h : Rep s.links p q t) (hb : Balanced s.colorOf t .black n) :
    ∃ s', s.paint p .black = some s' ∧ s.Paints s.colorOf s' := by
  cases hb with
  | nil =>
    obtain rfl := h
    exact ⟨s, rfl, rfl, rfl, rfl, rfl⟩
  | black hc =>
    obtain ⟨rfl, a, b, hx, _⟩ := h
    obtain ⟨s', hs, hp⟩ := exists_setColor .black hx
    rw [← hc, Function.update_eq_self] at hp
    exact ⟨s', hs, hp⟩

@[simp]
theorem paint_some : s.paint (some x) c = s.setColor x c :=
  rfl

-- The sibling of a subtree that lacks a black node is black afterwards.
theorem Represents.lift (h : s.Represents (plug (on d y o :: fs) t)) (ht : Balanced s.colorOf t .black n)
    (hf : Fits s.colorOf (on d y o :: fs) .black (n + 1)) :
    ∃ s' o' fs', s.liftSibling d y = some s' ∧ s'.Represents (plug (on d y o' :: fs') t) ∧
      inorder (plug (on d y o' :: fs') t) = inorder (plug (on d y o :: fs) t) ∧ s'.dataOf = s.dataOf ∧
        Balanced s'.colorOf t .black n ∧ Balanced s'.colorOf o' .black (n + 1) ∧
          Fits s'.colorOf (on d y o' :: fs') .black (n + 1) ∧ (s'.colorOf y = .red ∨ fs' = fs) := by
  have hr := h
  rw [plug_on] at hr
  obtain ⟨ny, hy, _, _, hyo⟩ := hr.at_node
  obtain ⟨ey, hey⟩ := exists_element hy
  -- A black sibling stays where it is.
  have hblack (ho : Balanced s.colorOf o .black (n + 1)) : s.liftSibling d y = some s := by
    obtain ⟨w, a, b, rfl⟩ := exists_join d ho.ne_nil
    obtain ⟨hw, nw, hnw, _⟩ := Rep.join_iff.mp hyo
    obtain ⟨ew, hew⟩ := exists_element hnw
    simp [liftSibling, hey, links_child, Element.links, hw, hew, ← ho.of_join.left]
  cases hf
  case red hc ho hs =>
    rw [other_on] at ho
    exact ⟨s, o, fs, hblack ho, h, rfl, rfl, ht, ho, .red hc (by rwa [other_on]) hs, .inr rfl⟩
  case black c hc ho hs =>
    rw [other_on] at ho
    cases c with
    | black => exact ⟨s, o, fs, hblack ho, h, rfl, rfl, ht, ho, .black hc (by rwa [other_on]) hs, .inr rfl⟩
    | red   =>
      obtain ⟨w, a, b, rfl, hwc, ha, hb⟩ := ho.exists_root d
      obtain ⟨hw, nw, hnw, _, _, _⟩ := Rep.join_iff.mp hyo
      obtain ⟨ew, hew⟩ := exists_element hnw
      obtain ⟨hn, _, hd⟩ := nodup_plug hr.nodup
      obtain ⟨hyt, hyo', _, ho', htd⟩ := nodup_join hn
      obtain ⟨hwa, hwb, _, _, _⟩ := nodup_join ho'
      simp only [mem_join, not_or] at hyo' hd htd
      obtain ⟨s₁, hs₁, h₁⟩ := exists_setBlackRed hnw hy
      obtain ⟨s₂, hs₂, h₂, hc₂, hd₂⟩ := (h₁.represents hr).rotate
      have hcol : s₂.colorOf = Function.update (Function.update s.colorOf w .black) y .red := by
        rw [hc₂, h₁.colorOf]
      have hne {x} (hxw : x ≠ w) (hxy : x ≠ y) : s₂.colorOf x = s.colorOf x := by
        rw [hcol, Function.update_of_ne hxy, Function.update_of_ne hxw]
      have hyr : s₂.colorOf y = .red := by rw [hcol, Function.update_self]
      have hwbl : s₂.colorOf w = .black := by
        rw [hcol, Function.update_of_ne, Function.update_self]
        exact Ne.symm hyo'.left
      refine ⟨s₂, a, on d w b :: fs, ?_, ?_, ?_, hd₂.trans h₁.dataOf, ht.congr fun x hx => hne ?_ ?_,
        ha.congr fun x hx => hne ?_ ?_,
        .red (by rw [node_on, hyr]) ?_ (.black (c := .black) (by rw [node_on, hwbl]) ?_ ?_),
        .inl hyr⟩
      case refine_1 => simp [liftSibling, hey, links_child, Element.links, hw, hew, hwc, hs₁, hs₂]
      case refine_2 =>
        rw [plug_on, plug_on]
        exact h₂
      case refine_3 => rw [plug_on, plug_on, plug_on, inorder_plug_rotate]
      case refine_8 =>
        rw [other_on]
        exact ha.congr fun x hx => hne (by grind) (by grind)
      case refine_9 =>
        rw [other_on]
        exact hb.congr fun x hx => hne (by grind) (by grind)
      case refine_10 => exact hs.congr fun x hx => hne (by grind) (by grind)
      all_goals grind

theorem blackChildren_eq (hx : s.links x = some nx) (ha : Rep s.links (nx.child d) (some x) a)
    (hb : Rep s.links (nx.child d.other) (some x) b) (hac : Balanced s.colorOf a c m)
    (hbc : Balanced s.colorOf b c' m) :
    s.blackChildren x = some (decide (c = .black ∧ c' = .black)) := by
  obtain ⟨e, he⟩ := exists_element hx
  have hl := isBlack_eq ha hac
  have hr := isBlack_eq hb hbc
  cases d
  case left  =>
    have hl : s.isBlack nx.left = _ := hl
    have hr : s.isBlack nx.right = _ := hr
    cases c <;> cases c' <;> simp [blackChildren, he, hl, hr]
  case right =>
    have hl : s.isBlack nx.right = _ := hl
    have hr : s.isBlack nx.left = _ := hr
    cases c <;> cases c' <;> simp [blackChildren, he, hl, hr]

-- The child on the far side of the sibling is red afterwards.
theorem Represents.bend (h : s.Represents (plug fs (join d y t (join d w a b)))) (hw : s.colorOf w = .black)
    (ha : Balanced s.colorOf a c n) (hb : Balanced s.colorOf b c' n) (hc : ¬(c = .black ∧ c' = .black)) :
    ∃ s' w' a' b' c, s.bendSibling d w = some s' ∧ s'.Represents (plug fs (join d y t (join d w' a' b'))) ∧
      inorder (plug fs (join d y t (join d w' a' b'))) = inorder (plug fs (join d y t (join d w a b))) ∧
        s'.dataOf = s.dataOf ∧ s'.colorOf w' = .black ∧ Balanced s'.colorOf a' c n ∧ Balanced s'.colorOf b' .red n ∧
          ∀ x ∉ inorder (join d w a b), s'.colorOf x = s.colorOf x := by
  obtain ⟨ny, hy, _, _, hyo⟩ := h.at_node
  obtain ⟨_, nw, hnw, _, hwa, hwb⟩ := Rep.join_iff.mp hyo
  obtain ⟨ew, hew⟩ := exists_element hnw
  have hbl := isBlack_eq hwb hb
  cases c' with
  | red =>
    refine ⟨s, w, a, b, c, ?_, h, rfl, rfl, hw, ha, hb, fun _ _ => rfl⟩
    simp [bendSibling, hew, links_child, Element.links, hbl]
  | black =>
    obtain rfl : c = .red := by
      cases c
      case black => exact absurd ⟨rfl, rfl⟩ hc
      case red   => rfl
    obtain ⟨k, a₁, a₂, rfl, _, ha₁, ha₂⟩ := ha.exists_root d
    obtain ⟨hk, nk, hnk, _, _, _⟩ := Rep.join_iff.mp hwa
    obtain ⟨hn, _, hd⟩ := nodup_plug h.nodup
    obtain ⟨hyt, hyo', _, ho', htd⟩ := nodup_join hn
    obtain ⟨hwa', hwb', ha', _, hab⟩ := nodup_join ho'
    obtain ⟨hka₁, hka₂, _, _, _⟩ := nodup_join ha'
    simp only [mem_join, not_or] at hwa' hab
    obtain ⟨s₁, hs₁, h₁⟩ := exists_setColor .black hnk
    obtain ⟨s₂, hs₂, h₂⟩ := exists_setColor .red (h₁.links ▸ hnw)
    have h' := (h₁.trans h₂).represents h
    have he : plug fs (join d y t (join d w (join d k a₁ a₂) b)) =
        plug (on d.other y t :: fs) (join d.other w b (join d.other k a₂ a₁)) := by
      rw [plug_on, join_other, join_other, join_other]
    have he' : plug (on d.other y t :: fs) (join d.other k (join d.other w b a₂) a₁) =
        plug fs (join d y t (join d k a₁ (join d w a₂ b))) := by
      rw [plug_on, join_other, join_other, join_other]
    rw [he] at h' ⊢
    obtain ⟨s₃, hs₃, h₃, hc₃, hd₃⟩ := h'.rotate
    have hcol : s₃.colorOf = Function.update (Function.update s.colorOf k .black) w .red := by
      rw [hc₃, h₂.colorOf, h₁.colorOf]
    have hne {x} (hxk : x ≠ k) (hxw : x ≠ w) : s₃.colorOf x = s.colorOf x := by
      rw [hcol, Function.update_of_ne hxw, Function.update_of_ne hxk]
    refine ⟨s₃, k, a₁, join d w a₂ b, .black, ?_, he' ▸ h₃, ?_, hd₃.trans (h₁.trans h₂).dataOf, ?_,
      ha₁.congr fun x hx => hne ?_ ?_, .join_red ?_ (ha₂.congr fun x hx => hne ?_ ?_) (hb.congr fun x hx => hne ?_ ?_),
      fun x hx => hne ?_ ?_⟩
    case refine_1 => simp [bendSibling, hew, links_child, Element.links, hbl, hk, paint, hs₁, hs₂, hs₃]
    case refine_2 => rw [← he', inorder_plug_rotate]
    case refine_3 =>
      rw [hcol, Function.update_of_ne, Function.update_self]
      exact Ne.symm hwa'.left
    case refine_6 => rw [hcol, Function.update_self]
    all_goals
      simp only [mem_join, not_or] at *
      grind

-- The last pass.
theorem Represents.settle (h : s.Represents (plug fs (join d y t (join d w a b)))) (hw : s.colorOf w = .black)
    (ht : Balanced s.colorOf t .black n) (ha : Balanced s.colorOf a c n) (hb : Balanced s.colorOf b c' n)
    (hc : ¬(c = .black ∧ c' = .black)) (hf : Fits s.colorOf (on d y (join d w a b) :: fs) .black (n + 1)) :
    ∃ s' t' m, s.settle d y w = some s' ∧ s'.Represents t' ∧
      inorder t' = inorder (plug fs (join d y t (join d w a b))) ∧ s'.dataOf = s.dataOf ∧
        Balanced s'.colorOf t' .black m := by
  obtain ⟨hn₀, _, hd₀⟩ := nodup_plug h.nodup
  obtain ⟨_, hyo, _, _, hto⟩ := nodup_join hn₀
  obtain ⟨s₀, w', a', b', c₀, hs₀, h₀, hi₀, hdata₀, hw₀, ha₀, hb₀, hne₀⟩ := h.bend hw ha hb hc
  obtain ⟨k, b₁, b₂, rfl, _, hb₁, hb₂⟩ := hb₀.exists_root d
  have ht₀ := ht.congr fun x hx => hne₀ x (hto x hx)
  have hfs {c m} (hs : Fits s.colorOf fs c m) : Fits s₀.colorOf fs c m :=
    hs.congr fun x hx => hne₀ x fun hm => hd₀ x (mem_join.mpr <| .inr <| .inr hm) hx
  have hy₀ : s₀.colorOf y = s.colorOf y := hne₀ y hyo
  obtain ⟨ny, hy, _, _, hyo'⟩ := h₀.at_node
  obtain ⟨hyw, nw, hnw, _, _, hwk⟩ := Rep.join_iff.mp hyo'
  obtain ⟨hwk', nk, hnk, _, _, _⟩ := Rep.join_iff.mp hwk
  obtain ⟨ey, hey⟩ := exists_element hy
  obtain ⟨hn, _, hd⟩ := nodup_plug h₀.nodup
  obtain ⟨hyt, hyo, _, ho, hto⟩ := nodup_join hn
  obtain ⟨hwa, hwb, _, hbn, hab⟩ := nodup_join ho
  obtain ⟨hkb₁, hkb₂, _, _, _⟩ := nodup_join hbn
  simp only [mem_join, not_or] at hyo hwb hto hab hd
  -- The sibling takes the colour of the parent, which becomes black like the child on the far side.
  obtain ⟨s₁, hs₁, h₁⟩ := exists_setColor (s₀.colorOf y) hnw
  obtain ⟨s₂, hs₂, h₂⟩ := exists_setColor .black (h₁.links ▸ hy : s₁.links y = _)
  have h₁₂ := h₁.trans h₂
  obtain ⟨e₂, he₂⟩ := exists_element (h₁₂.links ▸ hnw : s₂.links w' = _)
  obtain ⟨s₃, hs₃, h₃⟩ := exists_setColor .black (h₁₂.links ▸ hnk : s₂.links k = _)
  have h₁₃ := h₁₂.trans h₃
  obtain ⟨s₄, hs₄, h₄, hc₄, hd₄⟩ := (h₁₃.represents h₀).rotate
  have hcol : s₄.colorOf =
      Function.update (Function.update (Function.update s₀.colorOf w' (s₀.colorOf y)) y .black) k .black := by
    rw [hc₄, h₃.colorOf, h₂.colorOf, h₁.colorOf]
  have hne {x} (hxw : x ≠ w') (hxy : x ≠ y) (hxk : x ≠ k) : s₄.colorOf x = s₀.colorOf x := by
    rw [hcol, Function.update_of_ne hxk, Function.update_of_ne hxy, Function.update_of_ne hxw]
  have hw₄ : s₄.colorOf w' = s.colorOf y := by
    rw [hcol, Function.update_of_ne, Function.update_of_ne, Function.update_self, hy₀]
    all_goals grind
  have hfs₄ {c m} (hs : Fits s.colorOf fs c m) : Fits s₄.colorOf fs c m :=
    (hfs hs).congr fun x hx => hne (by grind) (by grind) (by grind)
  have hl₄ : Balanced s₄.colorOf (join d y t a') .black (n + 1) := by
    refine .join_black ?_ (ht₀.congr fun x hx => hne ?_ ?_ ?_) (ha₀.congr fun x hx => hne ?_ ?_ ?_)
    case refine_1 =>
      rw [hcol, Function.update_of_ne, Function.update_self]
      grind
    all_goals grind
  have hr₄ : Balanced s₄.colorOf (join d k b₁ b₂) .black (n + 1) := by
    refine .join_black ?_ (hb₁.congr fun x hx => hne ?_ ?_ ?_) (hb₂.congr fun x hx => hne ?_ ?_ ?_)
    case refine_1 => rw [hcol, Function.update_self]
    all_goals grind
  obtain ⟨m, hb₄⟩ : ∃ m, Balanced s₄.colorOf (plug fs (join d w' (join d y t a') (join d k b₁ b₂))) .black m := by
    cases hf
    case red hc _ hs   =>
      rw [node_on] at hc
      exact (hfs₄ hs).plug <| .join_red (hw₄.trans hc) hl₄ hr₄
    case black hc _ hs =>
      rw [node_on] at hc
      exact (hfs₄ hs).plug <| .join_black (hw₄.trans hc) hl₄ hr₄
  obtain ⟨s₅, hs₅, h₅⟩ := exists_paint_black h₄.rep hb₄
  refine ⟨s₅, _, m, ?_, h₅.represents h₄, ?_, ?_, h₅.colorOf ▸ hb₄⟩
  case refine_1 =>
    simp [Head.settle, hs₀, hey, links_child, Element.links, hyw, hs₁, hs₂, he₂, hwk', hs₃, hs₄, hs₅]
  case refine_2 => rw [inorder_plug_rotate, hi₀]
  case refine_3 => rw [h₅.dataOf, hd₄, h₁₃.dataOf, hdata₀]

-- The loop ends at a red element, which becomes black.
theorem exists_blacken (h : s.Represents (plug fs (join d x l r))) (hf : Fits s.colorOf fs .black (n + 1))
    (hx : s.colorOf x = .red) (hl : Balanced s.colorOf l c n) (hr : Balanced s.colorOf r c' n) :
    ∃ s' t' m, removeColor (fuel + 1) (fs.head?.map Frame.node) (top (join d x l r)) s = some s' ∧ s'.Represents t' ∧
      inorder t' = inorder (plug fs (join d x l r)) ∧ s'.dataOf = s.dataOf ∧ Balanced s'.colorOf t' .black m := by
  obtain ⟨nx, hxn, _, _, _⟩ := h.at_node
  obtain ⟨ex, hex⟩ := exists_element hxn
  obtain ⟨s', hs', hp, hb, hfs⟩ := h.darken hl hr
  obtain ⟨m, hm⟩ := (hfs _ _ hf).plug hb
  refine ⟨s', _, m, ?_, hp.represents h, rfl, hp.dataOf, hm⟩
  simp [removeColor, isBlack, hex, hx, hs']

-- The sibling with two black children becomes red, and what is around it stays as it is.
theorem Represents.redden (h : s.Represents (plug fs (join d y t (join d w a b)))) (hw : s.links w = some nw)
    (ht : Balanced s.colorOf t .black n) (ha : Balanced s.colorOf a .black n) (hb : Balanced s.colorOf b .black n) :
    ∃ s', s.setColor w .red = some s' ∧ s.Paints (Function.update s.colorOf w .red) s' ∧
      Balanced s'.colorOf t .black n ∧ Balanced s'.colorOf (join d w a b) .red n ∧ s'.colorOf y = s.colorOf y ∧
        ∀ c m, Fits s.colorOf fs c m → Fits s'.colorOf fs c m := by
  obtain ⟨s', hs', hp⟩ := exists_setColor .red hw
  obtain ⟨hn, _, hd⟩ := nodup_plug h.nodup
  obtain ⟨_, hy, _, hon, hto⟩ := nodup_join hn
  obtain ⟨hwa, hwb, _, _, _⟩ := nodup_join hon
  simp only [mem_join, not_or] at hy hto hd
  have hne {x} (hx : x ≠ w) : s'.colorOf x = s.colorOf x := by rw [hp.colorOf, Function.update_of_ne hx]
  refine ⟨s', hs', hp, ht.congr fun x hx => hne (by grind), ?_, hne hy.left, fun c m hs => hs.congr fun x hx => hne ?_⟩
  case refine_1 =>
    refine .join_red ?_ (ha.congr fun x hx => hne ?_) (hb.congr fun x hx => hne ?_)
    case refine_1 => rw [hp.colorOf, Function.update_self]
    all_goals grind
  case refine_2 => grind

-- The sibling of what lacks a black node is there.
theorem other_ne_nil (h : Fits col (on d y o :: fs) .black (n + 1)) : o ≠ .nil := by
  cases h
  case red ho _ =>
    rw [other_on] at ho
    exact ho.ne_nil
  case black ho _ =>
    rw [other_on] at ho
    exact ho.ne_nil

-- The side on which a subtree is that may be empty.
theorem Represents.sideOf (h : s.Represents (plug (on d y o :: fs) t)) (ho : o ≠ .nil) :
    top t ≠ s.root ∧ s.sideOf y (top t) = some d := by
  obtain ⟨hw, hr⟩ := h.way
  obtain ⟨_, _, hd⟩ := nodup_plug h.nodup
  constructor
  case left =>
    obtain ⟨z, hz, hroot⟩ := hw.exists_root
    rw [hroot]
    intro he
    exact hd z (he ▸ hr).mem_root hz
  case right =>
    have hs := sideOf_eq hw fun p' hp' he => ?_
    case refine_1 =>
      subst he
      rw [other_on] at hp'
      cases t with
      | nil => exact ho hp'.eq_none
      | node x l r => exact hd x (by simp [inorder]) (perm.mem_iff.mpr <| by simp [hp'.mem_root])
    simpa using hs

-- A subtree that lacks a black node, or whose root is red and is to become black.
theorem exists_removeColor (h : s.Represents (plug fs t)) (hf : Fits s.colorOf fs .black (n + 1))
    (ht : Balanced s.colorOf t .black n ∧ fs.length + 2 ≤ fuel ∨ (∃ d x l r c c', t = join d x l r ∧
      s.colorOf x = .red ∧ Balanced s.colorOf l c n ∧ Balanced s.colorOf r c' n) ∧ 1 ≤ fuel) :
    ∃ s' t' m, removeColor fuel (fs.head?.map Frame.node) (top t) s = some s' ∧ s'.Represents t' ∧
      inorder t' = inorder (plug fs t) ∧ s'.dataOf = s.dataOf ∧ Balanced s'.colorOf t' .black m := by
  induction fuel generalizing s fs t n
  case zero => omega
  case succ fuel hi =>
    obtain ⟨hw, hr⟩ := h.way
    rcases ht with ⟨ht, hlen⟩ | ⟨⟨d, x, l, r, c, c', rfl, hx, hl, hr'⟩, _⟩
    case inr => exact exists_blacken h hf hx hl hr'
    case inl =>
      have hbl := isBlack_eq hr ht
      cases fs with
      | nil =>
        have hroot : top t = s.root := hw.left
        obtain ⟨s', hs', hp⟩ := exists_paint_black hr ht
        refine ⟨s', _, n, ?_, hp.represents h, rfl, hp.dataOf, hp.colorOf ▸ ht⟩
        rw [hroot] at hs' hbl
        simp [removeColor, hbl, hroot, hs']
      | cons f fs =>
        rw [← on_side (f := f)] at h hf hw hr hlen ⊢
        generalize f.side = d, f.node = y, f.other = o at h hf hw hr hlen ⊢
        obtain ⟨hne, hside⟩ := h.sideOf (other_ne_nil hf)
        obtain ⟨s₁, o', fs', hs₁, h₁, hi₁, hd₁, ht₁, ho₁, hf₁, hfs⟩ := h.lift ht hf
        obtain ⟨w, a, b, rfl⟩ := exists_join d ho₁.ne_nil
        obtain ⟨hwc, ⟨hr, _⟩ | ⟨_, k, c₁, c₂, hk, ha, hb⟩⟩ := ho₁.of_join
        case inl => cases hr
        obtain rfl := Nat.succ.inj hk
        have h₁' := h₁
        rw [plug_on] at h₁' hi₁
        obtain ⟨ny, hyn, hw₁, _, hyo⟩ := h₁'.at_node
        obtain ⟨hyw, nw, hwn, _, hwa, hwb⟩ := Rep.join_iff.mp hyo
        obtain ⟨ey, hey⟩ := exists_element hyn
        have hbc := blackChildren_eq hwn hwa hwb ha hb
        by_cases hc : c₁ = .black ∧ c₂ = .black
        case pos =>
          obtain ⟨rfl, rfl⟩ := hc
          obtain ⟨s₂, hs₂, h₂, ht₂, ho₂, hy₂, hfs₂⟩ := h₁'.redden hwn ht₁ ha hb
          have hw₁ := hw₁.parent_eq_head
          obtain ⟨e₂, he₂⟩ := exists_element (h₂.links ▸ hyn : s₂.links y = _)
          suffices hs : ∃ s' t' m,
              removeColor fuel (fs'.head?.map Frame.node) (top (join d y t (join d w a b))) s₂ = some s' ∧
              s'.Represents t' ∧ inorder t' = inorder (plug fs' (join d y t (join d w a b))) ∧ s'.dataOf = s₂.dataOf ∧
                Balanced s'.colorOf t' .black m by
            obtain ⟨s', t', m, hs', h', hi', hd', hb'⟩ := hs
            refine ⟨s', t', m, ?_, h', hi'.trans hi₁, hd'.trans <| h₂.dataOf.trans hd₁, hb'⟩
            rw [top_join] at hs'
            simp [removeColor, hbl, hne, hside, hs₁, hey, links_child, Element.links, hyw, hbc, hs₂, he₂, hw₁, hs']
          cases hf₁
          case red hy _ hs =>
            rw [node_on] at hy
            refine hi (h₂.represents h₁') (hfs₂ _ _ hs).to_black
              (.inr ⟨⟨d, y, t, _, _, _, rfl, hy₂.trans hy, ht₂, ho₂⟩, ?_⟩)
            simp only [List.length_cons] at hlen
            omega
          case black hy _ hs =>
            rw [node_on] at hy
            obtain rfl : fs' = fs := by
              rcases hfs with hr | he
              case inl => cases hy.symm.trans hr
              case inr => exact he
            refine hi (h₂.represents h₁') (hfs₂ _ _ hs) (.inl ⟨.join_black (hy₂.trans hy) ht₂ ho₂, ?_⟩)
            simp only [List.length_cons] at hlen
            omega
        case neg =>
          obtain ⟨s', t', m, hs', h', hi', hd', hb'⟩ := h₁'.settle hwc.symm ht₁ ha hb hc hf₁
          refine ⟨s', t', m, ?_, h', hi'.trans hi₁, hd'.trans hd₁, hb'⟩
          simp [removeColor, hbl, hne, hside, hs₁, hey, links_child, Element.links, hyw, hbc, hc, hs']

end RbTree.Head
