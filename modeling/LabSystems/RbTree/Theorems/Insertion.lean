import LabSystems.RbTree.Theorems.Updates

namespace RbTree.Head

open Algorithm (Addr)
open Linked Frame

variable {E : Type} {s s' : Head E} {t u l r a b : BinaryTree Addr} {p q v : Option Addr} {x y z : Addr} {d e : Side}
  {f g : Frame Addr} {fs gs : List (Frame Addr)} {col : Addr → Color} {c : Color} {n m : Nat}

-- The tree in memory, of which no element occurs twice.
structure Represents (s : Head E) (t : BinaryTree Addr) : Prop where
  rep   : Rep s.links s.root none t
  nodup : (inorder t).Nodup

theorem Paints.represents (h : s.Paints col s') (hr : s.Represents t) : s'.Represents t :=
  ⟨h.links ▸ h.root ▸ hr.rep, hr.nodup⟩

namespace Represents

theorem length_lt_size (h : s.Represents t) : (inorder t).length < s.size :=
  Head.length_lt_size h.nodup fun _ => h.rep.mem

theorem at_node (h : s.Represents (plug fs (join d x t u))) : ∃ n, s.links x = some n ∧
    Way s.links s.root none fs (some x) n.parent ∧ Rep s.links (n.child d) (some x) t ∧
      Rep s.links (n.child d.other) (some x) u := by
  obtain ⟨p, q, hw, hr⟩ := Rep.plug_iff.mp h.rep
  obtain ⟨rfl, n, hx, rfl, ht, hu⟩ := Rep.join_iff.mp hr
  exact ⟨n, hx, hw, ht, hu⟩

theorem rotate (h : s.Represents (plug fs (join d x a (join d y b t)))) : ∃ s', s.rotate d x = some s' ∧
    s'.Represents (plug fs (join d y (join d x a b) t)) ∧ s'.colorOf = s.colorOf ∧ s'.dataOf = s.dataOf := by
  obtain ⟨s', hs, hr, hc, hd⟩ := exists_rotate h.rep h.nodup
  refine ⟨s', hs, ⟨hr, ?_⟩, hc, hd⟩
  rw [inorder_plug, ← inorder_rotate, ← inorder_plug]
  exact h.nodup

end Represents

theorem inorder_plug_rotate :
    inorder (plug fs (join d y (join d x a b) t)) = inorder (plug fs (join d x a (join d y b t))) := by
  rw [inorder_plug, ← inorder_rotate, ← inorder_plug]

theorem isBlack_eq (h : Rep s.links p q t) (hb : Balanced s.colorOf t c n) :
    s.isBlack p = some (decide (c = .black)) := by
  cases hb with
  | nil =>
    obtain rfl := h
    rfl
  | red hc | black hc =>
    obtain ⟨rfl, a, b, hx, _⟩ := h
    obtain ⟨e, he⟩ := exists_element hx
    simp [isBlack, he, hc]

theorem sideOf_eq (hw : Way s.links s.root none (f :: fs) p q)
    (hp : ∀ p', Rep s.links p' (some f.node) f.other → p' ≠ p) : s.sideOf f.node p = some f.side := by
  obtain ⟨_, n, hf, hc, hb, _⟩ := Way.cons_iff.mp hw
  obtain ⟨e, he⟩ := exists_element hf
  cases f with
  | left  => simp [sideOf, he, show n.left = p from hc, Frame.side]
  | right =>
    have hne : n.left ≠ p := hp _ hb
    simp [sideOf, he, hne, Frame.side]

-- The root of a tree is black already.
theorem Represents.blacken (h : s.Represents t) (hb : Balanced s.colorOf t .black n) (hx : x ∈ inorder t) :
    ∃ s', (s.root.bind fun x => s.setColor x .black) = some s' ∧ s'.Represents t ∧ s'.colorOf = s.colorOf ∧
      s'.dataOf = s.dataOf := by
  have hr := h.rep
  cases hb
  case nil => cases hx
  case black y l _ r _ hy _ _ =>
    obtain ⟨hroot, a, b, hl, _⟩ := hr
    obtain ⟨s', hs, hp⟩ := exists_setColor .black hl
    refine ⟨s', by rw [hroot, Option.bind_some, hs], hp.represents h, ?_, hp.dataOf⟩
    rw [hp.colorOf, ← hy, Function.update_eq_self]

-- A red uncle: the parent and the uncle become black, and the grandparent red.
theorem Represents.recolor {k : Addr} (h : s.Represents (plug gs (join d z (join e y t b) u)))
    (hu : u = join d k l r) (ht : Balanced s.colorOf t .red n) (hb : Balanced s.colorOf b .black n)
    (hl : Balanced s.colorOf l .black n) (hr : Balanced s.colorOf r .black n)
    (hs : Fits s.colorOf gs .black (n + 1)) :
    ∃ s₁ s₂, s.setColor k .black = some s₁ ∧ s₁.setBlackRed y z = some s₂ ∧
      s₂.Represents (plug gs (join d z (join e y t b) u)) ∧ s₂.dataOf = s.dataOf ∧ s₂.colorOf z = .red ∧
        Balanced s₂.colorOf (join e y t b) .black (n + 1) ∧ Balanced s₂.colorOf u .black (n + 1) ∧
          Fits s₂.colorOf gs .black (n + 1) := by
  subst hu
  obtain ⟨hn, _, hf⟩ := nodup_plug h.nodup
  obtain ⟨hzp, hzu, hp, hu, hd⟩ := nodup_join hn
  obtain ⟨hyt, hyb, _, _, _⟩ := nodup_join hp
  obtain ⟨hkl, hkr, _, _, _⟩ := nodup_join hu
  simp only [mem_join, not_or] at hf hzp hzu hd
  obtain ⟨nz, hz, _, hzc, hzo⟩ := h.at_node
  obtain ⟨_, ny, hy, _, _, _⟩ := Rep.join_iff.mp hzc
  obtain ⟨_, nk, hk, _, _, _⟩ := Rep.join_iff.mp hzo
  obtain ⟨s₁, hs₁, h₁⟩ := exists_setColor .black hk
  obtain ⟨s₂, hs₂, h₂⟩ := exists_setBlackRed (h₁.links ▸ hy) (h₁.links ▸ hz)
  have hc : s₂.colorOf = Function.update (Function.update (Function.update s.colorOf k .black) y .black) z .red := by
    rw [h₂.colorOf, h₁.colorOf]
  have hne {x} (hxk : x ≠ k) (hxy : x ≠ y) (hxz : x ≠ z) : s₂.colorOf x = s.colorOf x := by
    rw [hc, Function.update_of_ne hxz, Function.update_of_ne hxy, Function.update_of_ne hxk]
  refine ⟨s₁, s₂, hs₁, hs₂, (h₁.trans h₂).represents h, (h₁.trans h₂).dataOf, ?_, ?_, ?_, ?_⟩
  case refine_1 => rw [hc, Function.update_self]
  case refine_2 =>
    refine .join_black ?_ (ht.congr fun x hx => hne ?_ ?_ ?_) (hb.congr fun x hx => hne ?_ ?_ ?_)
    case refine_1 =>
      rw [hc, Function.update_of_ne, Function.update_self]
      exact Ne.symm hzp.left
    all_goals grind
  case refine_3 =>
    refine .join_black ?_ (hl.congr fun x hx => hne ?_ ?_ ?_) (hr.congr fun x hx => hne ?_ ?_ ?_)
    case refine_1 =>
      rw [hc, Function.update_of_ne, Function.update_of_ne, Function.update_self]
      all_goals grind
    all_goals grind
  case refine_4 => exact hs.congr fun x hx => hne (by grind) (by grind) (by grind)

-- A black uncle: the parent, which is black then, takes the place of the grandparent.
theorem Represents.raise (h : s.Represents (plug gs (join d z (join d y t b) u))) (ht : Balanced s.colorOf t .red n)
    (hb : Balanced s.colorOf b .black n) (hu : Balanced s.colorOf u .black n) (hs : Fits s.colorOf gs .black (n + 1)) :
    ∃ s₁ s₂, s.setBlackRed y z = some s₁ ∧ s₁.rotate d.other z = some s₂ ∧
      s₂.Represents (plug (on d y (join d z b u) :: gs) t) ∧ s₂.dataOf = s.dataOf ∧ Balanced s₂.colorOf t .red n ∧
        Fits s₂.colorOf (on d y (join d z b u) :: gs) .black n ∧ ∀ x ∈ inorder t, s₂.colorOf x = s.colorOf x := by
  obtain ⟨hn, _, hf⟩ := nodup_plug h.nodup
  obtain ⟨hzp, hzu, hp, _, hd⟩ := nodup_join hn
  obtain ⟨hyt, hyb, _, _, _⟩ := nodup_join hp
  simp only [mem_join, not_or] at hf hzp hd
  obtain ⟨nz, hz, _, hzc, _⟩ := h.at_node
  obtain ⟨_, ny, hy, _, _, _⟩ := Rep.join_iff.mp hzc
  obtain ⟨s₁, hs₁, h₁⟩ := exists_setBlackRed hy hz
  have h' := h₁.represents h
  rw [← join_other (d := d) (x := z), ← join_other (d := d) (x := y)] at h'
  obtain ⟨s₂, hs₂, h₂, hc₂, hd₂⟩ := h'.rotate
  rw [join_other, join_other] at h₂
  have hc : s₂.colorOf = Function.update (Function.update s.colorOf y .black) z .red := by rw [hc₂, h₁.colorOf]
  have hne {x} (hxy : x ≠ y) (hxz : x ≠ z) : s₂.colorOf x = s.colorOf x := by
    rw [hc, Function.update_of_ne hxz, Function.update_of_ne hxy]
  have hct x (hx : x ∈ inorder t) : s₂.colorOf x = s.colorOf x := hne (by grind) (by grind)
  refine ⟨s₁, s₂, hs₁, hs₂, ?_, hd₂.trans h₁.dataOf, ht.congr hct, .black ?_ (c := .red) ?_ ?_, hct⟩
  case refine_1 =>
    rw [plug_on]
    exact h₂
  case refine_2 =>
    rw [node_on, hc, Function.update_of_ne, Function.update_self]
    exact Ne.symm hzp.left
  case refine_3 =>
    rw [other_on]
    refine .join_red ?_ (hb.congr fun x hx => hne ?_ ?_) (hu.congr fun x hx => hne ?_ ?_)
    case refine_1 => rw [hc, Function.update_self]
    all_goals grind
  case refine_4 => exact hs.congr fun x hx => hne (by grind) (by grind)

theorem Represents.restructure (h : s.Represents (plug gs (join d z (join e y (join d x l r) b) u)))
    (hx : s.colorOf x = .red) (hy : s.colorOf y = .red) (hl : Balanced s.colorOf l .black n)
    (hr : Balanced s.colorOf r .black n) (hb : Balanced s.colorOf b .black n) (hu : Balanced s.colorOf u .black n)
    (hs : Fits s.colorOf gs .black (n + 1)) :
    ∃ s' k l' r' g, s.restructure d z y x = some (s', k) ∧ s'.Represents (plug (g :: gs) (join d k l' r')) ∧
      inorder (plug (g :: gs) (join d k l' r')) = inorder (plug gs (join d z (join e y (join d x l r) b) u)) ∧
        s'.dataOf = s.dataOf ∧ s'.colorOf k = .red ∧ Balanced s'.colorOf l' .black n ∧
          Balanced s'.colorOf r' .black n ∧ Fits s'.colorOf (g :: gs) .black n := by
  obtain ⟨nz, hz, _, hzc, _⟩ := h.at_node
  obtain ⟨_, ny, hyn, _, hyx, hyb⟩ := Rep.join_iff.mp hzc
  obtain ⟨ey, hey⟩ := exists_element hyn
  obtain ⟨hn, _, _⟩ := nodup_plug h.nodup
  obtain ⟨_, _, hp, _, _⟩ := nodup_join hn
  obtain ⟨_, _, _, _, hxb⟩ := nodup_join hp
  by_cases he : e = d
  case pos =>
    subst he
    have hne : ny.child e.other ≠ some x := by
      intro he
      exact hxb x (by simp) (he ▸ hyb).mem_root
    obtain ⟨s₁, s₂, hs₁, hs₂, h₂, hd, ht, hf, hc⟩ := h.raise (.join_red hx hl hr) hb hu hs
    refine ⟨s₂, x, l, r, _, ?_, h₂, ?_, hd, ?_, ?_, ?_, hf⟩
    case refine_1 => simp [Head.restructure, hey, links_child, Element.links, hne, hs₁, hs₂]
    case refine_2 =>
      rw [plug_on, ← join_other (x := y), ← join_other (x := z), inorder_plug_rotate, join_other, join_other]
    case refine_3 => rw [hc x (by simp), hx]
    case refine_4 => exact hl.congr fun w hw => hc w (by simp [hw])
    case refine_5 => exact hr.congr fun w hw => hc w (by simp [hw])
  case neg =>
    obtain rfl : e = d.other := by
      cases e <;> cases d <;> simp_all [Side.other]
    have hyx' := (Rep.join_iff.mp hyx).left
    have h' : s.Represents (plug (on d z u :: gs) (join d y b (join d x l r))) := by
      rw [plug_on, ← join_other (x := y)]
      exact h
    obtain ⟨s₁, hs₁, h₁, hc₁, hd₁⟩ := h'.rotate
    rw [plug_on] at h₁
    rw [← hc₁] at hx hy hl hr hb hu hs
    obtain ⟨s₂, s₃, hs₂, hs₃, h₃, hd, ht, hf, hc⟩ := h₁.raise (.join_red hy hb hl) hr hu hs
    refine ⟨s₃, y, b, l, _, ?_, h₃, ?_, hd.trans hd₁, ?_, ?_, ?_, hf⟩
    case refine_1 => simp [Head.restructure, hey, links_child, Element.links, hyx', hs₁, hs₂, hs₃]
    case refine_2 =>
      rw [plug_on, ← join_other (x := x), ← join_other (x := z), inorder_plug_rotate, join_other, join_other, ← plug_on,
        inorder_plug_rotate, plug_on, ← join_other (x := y)]
    case refine_3 => rw [hc y (by simp), hy]
    case refine_4 => exact hb.congr fun w hw => hc w (by simp [hw])
    case refine_5 => exact hl.congr fun w hw => hc w (by simp [hw])

theorem exists_turn (d e : Side) (hl : Balanced col l c n) (hr : Balanced col r c n) :
    ∃ l' r', join d x l r = join e x l' r' ∧ Balanced col l' c n ∧ Balanced col r' c n := by
  by_cases he : d = e
  case pos => exact ⟨l, r, by rw [he], hl, hr⟩
  case neg =>
    obtain rfl : d = e.other := by
      cases d <;> cases e <;> simp_all [Side.other]
    exact ⟨r, l, join_other, hr, hl⟩

-- The root of a subtree becomes black, and what is around it stays as it is.
theorem Represents.darken (h : s.Represents (plug fs (join d x l r))) (hl : Balanced s.colorOf l c n)
    (hr : Balanced s.colorOf r c' n) : ∃ s', s.setColor x .black = some s' ∧
      s.Paints (Function.update s.colorOf x .black) s' ∧ Balanced s'.colorOf (join d x l r) .black (n + 1) ∧
        ∀ c m, Fits s.colorOf fs c m → Fits s'.colorOf fs c m := by
  obtain ⟨hn, _, hd⟩ := nodup_plug h.nodup
  obtain ⟨hxl, hxr, _, _, _⟩ := nodup_join hn
  simp only [mem_join] at hd
  obtain ⟨_, hx, _⟩ := h.at_node
  obtain ⟨s', hs', hp⟩ := exists_setColor .black hx
  have hne {y} (hy : y ≠ x) : s'.colorOf y = s.colorOf y := by rw [hp.colorOf, Function.update_of_ne hy]
  refine ⟨s', hs', hp, .join_black ?_ (hl.congr fun y hy => hne ?_) (hr.congr fun y hy => hne ?_),
    fun c m hf => hf.congr fun y hy => hne ?_⟩
  case refine_1 => rw [hp.colorOf, Function.update_self]
  all_goals grind

-- A red node whose parent may be red too: the tree is balanced otherwise.
theorem exists_insertColor (h : s.Represents (plug fs (join d x l r))) (hx : s.colorOf x = .red)
    (hl : Balanced s.colorOf l .black n) (hr : Balanced s.colorOf r .black n) (hf : Fits s.colorOf fs .black n)
    (hlen : fs.length < fuel) : ∃ s' t' m, insertColor fuel x s = some s' ∧ s'.Represents t' ∧
      inorder t' = inorder (plug fs (join d x l r)) ∧ s'.dataOf = s.dataOf ∧ Balanced s'.colorOf t' .black m := by
  induction fuel generalizing s fs d x l r n
  case zero => cases hlen
  case succ fuel hi =>
    obtain ⟨nx, hxn, hw, hxl, hxr⟩ := h.at_node
    obtain ⟨ex, hex⟩ := exists_element hxn
    cases fs with
    | nil =>
      obtain ⟨hroot, hq⟩ := hw
      obtain ⟨s', hs', hp, hb, _⟩ := h.darken hl hr
      refine ⟨s', _, n + 1, ?_, hp.represents h, rfl, hp.dataOf, hb⟩
      simp [insertColor, hex, hq, ← hroot, hs']
    | cons f fs =>
      obtain ⟨hq, ny, hyn, _, _, hw'⟩ := Way.cons_iff.mp hw
      obtain ⟨ey, hey⟩ := exists_element hyn
      cases hf
      case black hy ho hs =>
        obtain ⟨m, hb⟩ := Fits.plug (.black hy ho hs) (.join_red hx hl hr : Balanced _ (join d x l r) .red n)
        obtain ⟨s', hs', h', hc, hd⟩ := h.blacken hb (x := x) (by simp [perm_plug.mem_iff])
        refine ⟨s', _, m, ?_, h', rfl, hd, hc ▸ hb⟩
        simpa [insertColor, hex, hq, hey, hy] using hs'
      case red hy ho hs =>
        obtain ⟨g, gs, c, rfl, hz, hu, hs⟩ := hs.of_red
        obtain ⟨hq', nz, hzn, _, hzo, _⟩ := Way.cons_iff.mp hw'
        obtain ⟨ez, hez⟩ := exists_element hzn
        rw [plug_cons, plug_cons] at h ⊢
        obtain ⟨hn, _, _⟩ := nodup_plug h.nodup
        obtain ⟨_, _, _, _, hyu⟩ := nodup_join hn
        have hside : s.sideOf g.node (some f.node) = some g.side := by
          refine sideOf_eq hw' fun p' hp' he => ?_
          subst he
          exact hyu f.node (by simp) hp'.mem_root
        have hbl := isBlack_eq hzo hu
        simp only [List.length_cons] at hlen
        cases c with
        | red =>
          obtain ⟨k, a, b, hk, _, ha, hb⟩ := hu.exists_root g.side
          have hkp : nz.child g.side.other = some k := (Rep.join_iff.mp (hk ▸ hzo)).left
          obtain ⟨s₁, s₂, hs₁, hs₂, h₂, hd₂, hz₂, ht₂, hu₂, hf₂⟩ := h.recolor hk (.join_red hx hl hr) ho ha hb hs
          obtain ⟨s', t', m, hs', h', hi', hd', hb'⟩ := hi h₂ hz₂ ht₂ hu₂ hf₂ (by omega)
          refine ⟨s', t', m, ?_, h', hi', hd'.trans hd₂, hb'⟩
          rw [hkp] at hbl
          simp [insertColor, hex, hq, hey, hy, hq', hside, hez, links_child, Element.links, hkp, hbl, paint, hs₁, hs₂,
            hs']
        | black =>
          obtain ⟨l₀, r₀, he, hl₀, hr₀⟩ := exists_turn (x := x) d g.side hl hr
          rw [he] at h ⊢
          obtain ⟨s₁, k, l', r', g', hs₁, h₁, hi₁, hd₁, hk, hl₁, hr₁, hf₁⟩ := h.restructure hx hy hl₀ hr₀ ho hu hs
          obtain ⟨s', t', m, hs', h', hi', hd', hb'⟩ := hi h₁ hk hl₁ hr₁ hf₁ (by simp only [List.length_cons]; omega)
          refine ⟨s', t', m, ?_, h', hi'.trans hi₁, hd'.trans hd₁, hb'⟩
          simp [insertColor, hex, hq, hey, hy, hq', hside, hez, links_child, Element.links, hbl, hs₁, hs']

end RbTree.Head
