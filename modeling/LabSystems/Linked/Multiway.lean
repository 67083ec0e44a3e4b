import Mathlib.Data.List.Induction
import Mathlib.Data.List.Perm.Basic

-- Trees whose nodes have keys between their children.
namespace Linked

-- The keys before and after a child, with the contents of its siblings.
def keysBefore (cs : List (List κ)) (ks : List κ) : List κ :=
  (List.zipWith (fun c k => c ++ [k]) cs ks).flatten

def keysAfter (ks : List κ) (cs : List (List κ)) : List κ :=
  (List.zipWith (fun k c => k :: c) ks cs).flatten

def weave : List (List κ) → List κ → List κ
  | [], ks      => ks
  | c :: cs, ks => c ++ keysAfter ks cs

theorem exists_append_cons {l : List α} (h : i < l.length) : ∃ l₁ a l₂, l = l₁ ++ a :: l₂ ∧ l₁.length = i := by
  refine ⟨l.take i, l[i], l.drop (i + 1), ?_, by rw [List.length_take]; omega⟩
  rw [← List.drop_eq_getElem_cons h, List.take_append_drop]

inductive Multiway (α κ : Type)
  | node (x : α) (ks : List κ) (cs : List (Multiway α κ))

section Weave

variable {cs cs' : List (List κ)} {ks ks' : List κ}

theorem weave_append (h : cs.length = ks.length) :
    weave (cs ++ c :: cs') (ks ++ ks') = keysBefore cs ks ++ c ++ keysAfter ks' cs' := by
  induction cs generalizing ks
  case nil =>
    cases List.length_eq_zero_iff.mp h.symm
    rfl
  case cons d cs hi =>
    cases ks with
    | nil       => cases h
    | cons k ks =>
      have hi := hi (Nat.succ.inj h)
      have hw : weave (d :: (cs ++ c :: cs')) (k :: (ks ++ ks')) = d ++ k :: weave (cs ++ c :: cs') (ks ++ ks') := by
        cases cs <;> simp [weave, keysAfter]
      rw [List.cons_append, List.cons_append, hw, hi]
      simp [keysBefore]

theorem keysBefore_append (h : cs.length = ks.length) :
    keysBefore (cs ++ cs') (ks ++ ks') = keysBefore cs ks ++ keysBefore cs' ks' := by
  simp [keysBefore, List.zipWith_append h]

theorem perm_insert {A B c c' : List κ} (hp : c'.Perm (key :: c)) : (A ++ c' ++ B).Perm (key :: (A ++ c ++ B)) := by
  rw [List.append_assoc, List.append_assoc]
  exact ((hp.append_right B).append_left A).trans List.perm_middle

theorem mem_keysAfter (h : ks.length = cs.length) (hk : k ∈ ks) : k ∈ keysAfter ks cs := by
  induction ks generalizing cs
  case nil => cases hk
  case cons k' ks hi =>
    cases cs with
    | nil       => cases h
    | cons c cs =>
      have he : keysAfter (k' :: ks) (c :: cs) = k' :: (c ++ keysAfter ks cs) := by simp [keysAfter]
      rw [he]
      rcases List.mem_cons.mp hk with rfl | hk
      case inl => exact List.mem_cons_self
      case inr => exact List.mem_cons_of_mem _ <| List.mem_append_right c <| hi (Nat.succ.inj h) hk

-- A leaf has children without keys, as it were.
theorem keysBefore_nil : keysBefore (ks.map fun _ => []) ks = ks := by
  induction ks
  case nil          => rfl
  case cons k ks hi =>
    rw [keysBefore] at hi ⊢
    rw [List.map_cons, List.zipWith_cons_cons, List.flatten_cons, hi]
    rfl

variable [LE κ] {key : κ}

-- One of the contents gets a key that belongs there.
theorem pairwise_insert {A B c c' : List κ} (hs : (A ++ c ++ B).Pairwise (· ≤ ·)) (hc : c'.Pairwise (· ≤ ·))
    (hp : c'.Perm (key :: c)) (hA : ∀ a ∈ A, a ≤ key) (hB : ∀ b ∈ B, key ≤ b) :
    (A ++ c' ++ B).Pairwise (· ≤ ·) := by
  have hm {d} (h : d ∈ c') : d = key ∨ d ∈ c := List.mem_cons.mp <| hp.mem_iff.mp h
  simp only [List.pairwise_append, List.mem_append] at hs ⊢
  obtain ⟨⟨hsA, _, hAc⟩, hsB, hAB⟩ := hs
  refine ⟨⟨hsA, hc, fun a ha d hd => ?_⟩, hsB, fun a ha b hb => ?_⟩
  case refine_1 =>
    rcases hm hd with rfl | hd
    case inl => exact hA a ha
    case inr => exact hAc a ha d hd
  case refine_2 =>
    rcases ha with ha | ha
    case inl => exact hAB a (.inl ha) b hb
    case inr =>
      rcases hm ha with rfl | ha
      case inl => exact hB b hb
      case inr => exact hAB a (.inr ha) b hb

variable [Std.IsLinearOrder κ]

theorem exists_le_getLast {l : List κ} (hs : l.Pairwise (· ≤ ·)) (h : a ∈ l) : ∃ k ∈ l.getLast?, a ≤ k := by
  rcases List.eq_nil_or_concat l with rfl | ⟨l, k, rfl⟩
  case inl => cases h
  case inr =>
    rw [List.concat_eq_append] at hs h ⊢
    refine ⟨k, by simp, ?_⟩
    rcases List.mem_append.mp h with h | h
    case inl => exact (List.pairwise_append.mp hs).right.right a h k List.mem_cons_self
    case inr => exact List.mem_singleton.mp h ▸ Std.le_refl k

theorem exists_le_of_mem_keysBefore (hs : (keysBefore cs ks).Pairwise (· ≤ ·)) (hl : cs.length = ks.length)
    (h : a ∈ keysBefore cs ks) : ∃ k ∈ ks.getLast?, a ≤ k := by
  rcases List.eq_nil_or_concat ks with rfl | ⟨ks, k, rfl⟩
  case inl => simp [keysBefore] at h
  case inr =>
    rcases List.eq_nil_or_concat cs with rfl | ⟨cs, c, rfl⟩
    case inl => simp at hl
    case inr =>
      rw [List.concat_eq_append, List.concat_eq_append, keysBefore_append (by simpa using hl)] at hs h
      have he : keysBefore [c] [k] = c ++ [k] := by simp [keysBefore]
      rw [he, ← List.append_assoc] at hs h
      simpa using exists_le_getLast hs h

theorem exists_le_of_mem_keysAfter (hs : (keysAfter ks cs).Pairwise (· ≤ ·)) (h : a ∈ keysAfter ks cs) :
    ∃ k ∈ ks.head?, k ≤ a := by
  cases ks with
  | nil       => simp [keysAfter] at h
  | cons k ks =>
    cases cs with
    | nil       => simp [keysAfter] at h
    | cons c cs =>
      have he : keysAfter (k :: ks) (c :: cs) = k :: (c ++ keysAfter ks cs) := by simp [keysAfter]
      rw [he] at hs h
      refine ⟨k, rfl, ?_⟩
      rcases List.mem_cons.mp h with rfl | h
      case inl => exact Std.le_refl a
      case inr => exact (List.pairwise_cons.mp hs).left a h

end Weave

namespace Multiway

variable {α κ : Type} {x z : α} {ks ks₁ ks₂ : List κ} {lo hi : Nat}

def root : Multiway α κ → α
  | node x _ _ => x

def keys : Multiway α κ → List κ
  | node _ ks _ => ks

def content : Multiway α κ → List κ
  | node _ ks cs => weave (cs.map content) ks

def nodes : Multiway α κ → List α
  | node x _ cs => x :: cs.flatMap nodes

-- All leaves are `h` nodes below the root, and every node but the root has at least `lo` and at most `hi` keys.
def Formed (lo hi : Nat) : Nat → Multiway α κ → Prop
  | 0, node _ _ cs      => cs = []
  | h + 1, node _ ks cs => cs.length = ks.length + 1 ∧
      ∀ c ∈ cs, lo ≤ c.keys.length ∧ c.keys.length ≤ hi ∧ Formed lo hi h c

-- The halves of a node on both sides of the key `k`.
def left (k : Nat) : Multiway α κ → Multiway α κ
  | node x ks cs => node x (ks.take k) (cs.take (k + 1))

def right (z : α) (k : Nat) : Multiway α κ → Multiway α κ
  | node _ ks cs => node z (ks.drop (k + 1)) (cs.drop (k + 1))

variable {t c c' : Multiway α κ} {cs cs₁ cs₂ : List (Multiway α κ)}

theorem root_mem : t.root ∈ t.nodes := by
  cases t
  simp [nodes, root]

@[simp]
theorem root_node : (node x ks cs).root = x :=
  rfl

@[simp]
theorem keys_node : (node x ks cs).keys = ks :=
  rfl

@[simp]
theorem content_leaf : (node x ks []).content = ks := by
  simp [content, weave]

@[simp]
theorem nodes_leaf : (node x ks []).nodes = [x] := by
  simp [nodes]

@[simp]
theorem content_singleton : (node x [] [c]).content = c.content := by
  simp [content, weave, keysAfter]

theorem content_node (h : cs₁.length = ks₁.length) :
    (node x (ks₁ ++ ks₂) (cs₁ ++ c :: cs₂)).content =
      keysBefore (cs₁.map content) ks₁ ++ c.content ++ keysAfter ks₂ (cs₂.map content) := by
  rw [content, List.map_append, List.map_cons, weave_append (by simpa using h)]

-- A child and everything else.
theorem nodes_node : (node x ks (cs₁ ++ c :: cs₂)).nodes.Perm (c.nodes ++ x :: (cs₁ ++ cs₂).flatMap nodes) := by
  rw [nodes, List.flatMap_append, List.flatMap_append, List.flatMap_cons]
  refine (List.Perm.cons x <| List.perm_append_comm_assoc _ _ _).trans ?_
  exact List.perm_middle.symm

namespace Formed

theorem child (h : (node x ks cs).Formed lo hi (d + 1)) (hc : c ∈ cs) : c.Formed lo hi d :=
  (h.right c hc).right.right

theorem replace (h : (node x ks (cs₁ ++ c :: cs₂)).Formed lo hi (d + 1)) (hl : lo ≤ c'.keys.length)
    (hh : c'.keys.length ≤ hi) (hf : c'.Formed lo hi d) : (node x ks (cs₁ ++ c' :: cs₂)).Formed lo hi (d + 1) := by
  refine ⟨by simpa using h.left, fun e he => ?_⟩
  have hm := h.right e
  simp only [List.mem_append, List.mem_cons] at he hm
  rcases he with he | rfl | he
  case inl     => exact hm (.inl he)
  case inr.inl => exact ⟨hl, hh, hf⟩
  case inr.inr => exact hm (.inr <| .inr he)

-- The tree is not higher than it has nodes.
theorem lt_length (h : t.Formed lo hi d) : d < t.nodes.length := by
  induction d generalizing t <;> obtain ⟨x, ks, cs⟩ := t
  case zero => simp [nodes]
  case succ d hi =>
    cases cs with
    | nil       => cases h.left
    | cons c cs =>
      have hc := hi <| h.child List.mem_cons_self
      simp only [nodes, List.flatMap_cons, List.length_cons, List.length_append]
      omega

end Formed

theorem formed_left (h : t.Formed lo hi d) (hk : k < t.keys.length) : (t.left k).Formed lo hi d := by
  obtain ⟨x, ks, cs⟩ := t
  cases d with
  | zero   =>
    cases h
    rfl
  | succ d =>
    obtain ⟨hl, hc⟩ := h
    refine ⟨?_, fun c hm => hc c <| List.mem_of_mem_take hm⟩
    simp only [keys] at hk
    simp only [List.length_take]
    omega

theorem formed_right (h : t.Formed lo hi d) (hk : k < t.keys.length) : (t.right z k).Formed lo hi d := by
  obtain ⟨x, ks, cs⟩ := t
  cases d with
  | zero   =>
    cases h
    simp [right, Formed]
  | succ d =>
    obtain ⟨hl, hc⟩ := h
    refine ⟨?_, fun c hm => hc c <| List.mem_of_mem_drop hm⟩
    simp only [keys] at hk
    simp only [List.length_drop]
    omega

theorem keys_halves (h : t.keys = l ++ k :: r) : (t.left l.length).keys = l ∧ (t.right z l.length).keys = r := by
  obtain ⟨x, ks, cs⟩ := t
  obtain rfl : ks = l ++ k :: r := h
  simp [left, right, keys]

theorem content_halves (h : t.Formed lo hi d) (hk : t.keys = l ++ k :: r) :
    t.content = (t.left l.length).content ++ k :: (t.right z l.length).content := by
  obtain ⟨x, ks, cs⟩ := t
  obtain rfl : ks = l ++ k :: r := hk
  cases d with
  | zero   =>
    cases h
    simp [left, right]
  | succ d =>
    have hl := h.left
    rw [List.length_append, List.length_cons] at hl
    obtain ⟨cs₁, c, cs₂, rfl, hc⟩ := exists_append_cons (by omega : l.length < cs.length)
    cases cs₂ with
    | nil         =>
      rw [List.length_append, List.length_singleton] at hl
      omega
    | cons c₂ cs₂ =>
      have hleft : (node x (l ++ k :: r) (cs₁ ++ c :: c₂ :: cs₂)).left l.length = node x (l ++ []) (cs₁ ++ [c]) := by
        simp [left, ← hc, List.take_append, List.take_of_length_le]
      have hright : (node x (l ++ k :: r) (cs₁ ++ c :: c₂ :: cs₂)).right z l.length = node z r (c₂ :: cs₂) := by
        simp [right, ← hc, List.drop_append]
      rw [hleft, hright, content_node hc, content_node hc]
      simp [keysAfter, content, weave]

theorem nodes_halves : ((t.left k).nodes ++ (t.right z k).nodes).Perm (z :: t.nodes) := by
  obtain ⟨x, ks, cs⟩ := t
  simp only [left, right, nodes]
  refine List.perm_middle.trans <| .cons z ?_
  rw [List.cons_append, ← List.flatMap_append, List.take_append_drop]

-- A child is replaced by its halves and the key between them.
theorem Formed.split (h : (node x (ks₁ ++ ks₂) (cs₁ ++ c :: cs₂)).Formed lo hi (d + 1)) (hk : c.keys = l ++ k :: r)
    (hl : lo ≤ l.length) (hr : lo ≤ r.length) :
    (node x (ks₁ ++ k :: ks₂) (cs₁ ++ c.left l.length :: c.right z l.length :: cs₂)).Formed lo hi (d + 1) := by
  obtain ⟨hlen, hc⟩ := h
  obtain ⟨_, hhi, hf⟩ := hc c (by simp)
  have hlt : l.length < c.keys.length := by simp [hk]
  have hh : (c.left l.length).keys = l ∧ (c.right z l.length).keys = r := keys_halves hk
  rw [hk, List.length_append, List.length_cons] at hhi
  refine ⟨?_, fun e he => ?_⟩
  case refine_1 =>
    simp only [List.length_append, List.length_cons] at hlen ⊢
    omega
  case refine_2 =>
    simp only [List.mem_append, List.mem_cons] at he hc
    rcases he with he | rfl | rfl | he
    case inl         => exact hc e <| .inl he
    case inr.inl     => exact ⟨by rwa [hh.left], by rw [hh.left]; omega, formed_left hf hlt⟩
    case inr.inr.inl => exact ⟨by rwa [hh.right], by rw [hh.right]; omega, formed_right hf hlt⟩
    case inr.inr.inr => exact hc e <| .inr <| .inr he

theorem content_split (h : c.Formed lo hi d) (hc : cs₁.length = ks₁.length) (hk : c.keys = l ++ k :: r) :
    (node x (ks₁ ++ k :: ks₂) (cs₁ ++ c.left l.length :: c.right z l.length :: cs₂)).content =
      (node x (ks₁ ++ ks₂) (cs₁ ++ c :: cs₂)).content := by
  rw [content_node hc, content_node hc, content_halves (z := z) h hk]
  simp [keysAfter]

theorem nodes_split : (node x ks₁ (cs₁ ++ c.left k :: c.right z k :: cs₂)).nodes.Perm
    (z :: (node x ks₂ (cs₁ ++ c :: cs₂)).nodes) := by
  refine nodes_node.trans <| .trans ?_ <| .cons z nodes_node.symm
  rw [List.flatMap_append, List.flatMap_cons, List.flatMap_append]
  have hp := nodes_halves (t := c) (z := z) (k := k)
  refine .trans ?_ <| hp.append_right _
  rw [List.append_assoc]
  refine .append_left _ ?_
  exact (List.Perm.cons x <| List.perm_append_comm_assoc _ _ _).trans List.perm_middle.symm

end Multiway

end Linked
