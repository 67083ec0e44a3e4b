import Mathlib.Data.List.Chain
import Mathlib.Data.List.Nodup

-- Doubly linked lists that close at their head.
namespace Linked

-- Two neighbours point at each other.
def Joined (next prev : α → α) (x y : α) : Prop :=
  next x = y ∧ prev y = x

structure Ring (next prev : α → α) (h : α) (l : List α) : Prop where
  joined : ((h :: l) ++ [h]).IsChain (Joined next prev)
  nodup  : (h :: l).Nodup

variable {next prev next' prev' : α → α} {h x y : α} {l l₁ l₂ : List α}

-- The last node may point elsewhere, and so may the first one in the other direction.
theorem Joined.congr (hc : l.IsChain (Joined next prev)) (hn : ∀ x ∈ l.dropLast, next' x = next x)
    (hp : ∀ x ∈ l.tail, prev' x = prev x) : l.IsChain (Joined next' prev') := by
  induction l
  case nil => exact .nil
  case cons x l hi =>
    cases l
    case nil => exact .singleton x
    case cons y l =>
      have ⟨⟨hx, hy⟩, hc⟩ := List.isChain_cons_cons.mp hc
      refine List.isChain_cons_cons.mpr ⟨⟨(hn x ?_).trans hx, (hp y List.mem_cons_self).trans hy⟩, hi hc ?_ ?_⟩
      · exact List.mem_cons_self
      · exact fun z hz => hn z <| List.mem_cons_of_mem x hz
      · exact fun z hz => hp z <| List.mem_cons_of_mem y hz

theorem head?_append_singleton : (l ++ [x]).head? = some (l.headD x) := by
  cases l <;> rfl

-- A list of nodes is joined if its parts are, and the last node of the first part is joined with the next one.
theorem joined_append : ((h :: l₁) ++ (l₂ ++ [y])).IsChain (Joined next prev) ↔
    (h :: l₁).IsChain (Joined next prev) ∧ (l₂ ++ [y]).IsChain (Joined next prev) ∧
      Joined next prev (l₁.getLastD h) (l₂.headD y) := by
  rw [List.isChain_append, List.getLast?_cons, head?_append_singleton]
  simp [List.getLastD_eq_getLast?]

namespace Ring

theorem nil_iff : Ring next prev h [] ↔ next h = h ∧ prev h = h where
  mp  r  := (List.isChain_cons_cons.mp r.joined).left
  mpr hj := ⟨List.isChain_cons_cons.mpr ⟨hj, .singleton h⟩, List.nodup_singleton h⟩

theorem next_eq (r : Ring next prev h l) : next h = l.headD h := by
  have hj : (([h] : List α) ++ (l ++ [h])).IsChain (Joined next prev) := r.joined
  exact (joined_append.mp hj).right.right.left

theorem prev_eq (r : Ring next prev h l) : prev h = l.getLastD h := by
  have hj : ((h :: l) ++ ([] ++ [h])).IsChain (Joined next prev) := r.joined
  exact (joined_append.mp hj).right.right.right

-- The neighbours of a node.
theorem next_node (r : Ring next prev h (l₁ ++ x :: l₂)) : next x = l₂.headD h := by
  have hj : ((h :: (l₁ ++ [x])) ++ (l₂ ++ [h])).IsChain (Joined next prev) := by simpa using r.joined
  have hj := (joined_append.mp hj).right.right.left
  rwa [List.getLastD_concat] at hj

theorem prev_node (r : Ring next prev h (l₁ ++ x :: l₂)) : prev x = l₁.getLastD h := by
  have hj : ((h :: l₁) ++ ((x :: l₂) ++ [h])).IsChain (Joined next prev) := by simpa using r.joined
  exact (joined_append.mp hj).right.right.right

-- The head is its own neighbour exactly if there is no other node.
theorem prev_eq_self_iff (r : Ring next prev h l) : prev h = h ↔ l = [] := by
  rw [r.prev_eq]
  cases l using List.reverseRecOn
  case nil => simp
  case append_singleton l x _ =>
    have hne : x ≠ h := fun he => (List.nodup_cons.mp r.nodup).left <| by simp [he]
    simp [hne]

theorem ne_of_mem_dropLast (hnodup : (h :: l).Nodup) (hx : x ∈ (h :: l).dropLast) : x ≠ l.getLastD h := by
  cases l using List.reverseRecOn
  case nil => cases hx
  case append_singleton l y _ =>
    rw [← List.cons_append, List.dropLast_concat] at hx
    rw [List.getLastD_concat]
    exact fun he => (List.nodup_append.mp hnodup).right.right x hx y List.mem_cons_self he

theorem ne_of_mem_tail (hnodup : (h :: l).Nodup) (hx : x ∈ (l ++ [h]).tail) : x ≠ l.headD h := by
  cases l
  case nil => cases hx
  case cons y l =>
    have ⟨hh, hy⟩ := List.nodup_cons.mp hnodup
    rintro rfl
    cases List.mem_append.mp hx
    case inl hm => exact (List.nodup_cons.mp hy).left hm
    case inr hm => exact hh <| List.mem_singleton.mp hm ▸ List.mem_cons_self

theorem nodup_parts (hnodup : (h :: (l₁ ++ l₂)).Nodup) :
    (h :: l₁).Nodup ∧ (h :: l₂).Nodup ∧ ∀ x ∈ l₁, x ∉ h :: l₂ := by
  have ⟨hh, hl⟩ := List.nodup_cons.mp hnodup
  have ⟨h₁, h₂, hd⟩ := List.nodup_append.mp hl
  refine ⟨List.nodup_cons.mpr ⟨fun hm => hh <| List.mem_append_left _ hm, h₁⟩,
    List.nodup_cons.mpr ⟨fun hm => hh <| List.mem_append_right _ hm, h₂⟩, fun x hx hm => ?_⟩
  cases List.mem_cons.mp hm
  case inl he => exact hh <| he ▸ List.mem_append_left _ hx
  case inr hm => exact hd x hx x hm rfl

theorem headD_mem : l.headD h ∈ h :: l := by
  cases l <;> simp

-- Only the last node of the first part and the first node of the second part may change.
theorem parts (hnodup : (h :: (l₁ ++ l₂)).Nodup) (h₁ : (h :: l₁).IsChain (Joined next prev))
    (h₂ : (l₂ ++ [h]).IsChain (Joined next prev)) (hn : ∀ y ∈ h :: (l₁ ++ l₂), y ≠ l₁.getLastD h → next' y = next y)
    (hp : ∀ y ∈ h :: (l₁ ++ l₂), y ≠ l₂.headD h → prev' y = prev y) :
    (h :: l₁).IsChain (Joined next' prev') ∧ (l₂ ++ [h]).IsChain (Joined next' prev') := by
  have ⟨hd₁, hd₂, hd⟩ := nodup_parts hnodup
  constructor
  case left =>
    refine Joined.congr h₁ (fun y hy => hn y ?_ <| ne_of_mem_dropLast hd₁ hy) fun y hy => hp y ?_ fun he => ?_
    · exact List.mem_append_left l₂ <| List.dropLast_subset _ hy
    · exact List.mem_cons_of_mem h <| List.mem_append_left l₂ hy
    · exact hd y hy <| he ▸ headD_mem
  case right =>
    refine Joined.congr h₂ (fun y hy => ?_) fun y hy => hp y ?_ <| ne_of_mem_tail hd₂ hy
    · rw [List.dropLast_concat] at hy
      refine hn y (List.mem_append_right (h :: l₁) hy) fun he => ?_
      cases List.mem_cons.mp (he ▸ List.getLastD_mem_cons : y ∈ h :: l₁)
      case inl hm => exact (List.nodup_cons.mp hd₂).left <| hm ▸ hy
      case inr hm => exact hd y hm <| List.mem_cons_of_mem h hy
    · cases List.mem_append.mp <| List.mem_of_mem_tail hy
      case inl hm => exact List.mem_append_right (h :: l₁) hm
      case inr hm => exact List.mem_singleton.mp hm ▸ List.mem_cons_self

-- A node is put between two neighbours.
theorem insert (r : Ring next prev h (l₁ ++ l₂)) (hx : x ∉ h :: (l₁ ++ l₂))
    (hl : Joined next' prev' (l₁.getLastD h) x) (hr : Joined next' prev' x (l₂.headD h))
    (hn : ∀ y ∈ h :: (l₁ ++ l₂), y ≠ l₁.getLastD h → next' y = next y)
    (hp : ∀ y ∈ h :: (l₁ ++ l₂), y ≠ l₂.headD h → prev' y = prev y) : Ring next' prev' h (l₁ ++ x :: l₂) where
  joined := by
    have ⟨h₁, h₂, _⟩ := joined_append.mp (List.append_assoc (h :: l₁) l₂ [h] ▸ r.joined)
    have ⟨h₁, h₂⟩ := parts r.nodup h₁ h₂ hn hp
    have hc : ([x] ++ (l₂ ++ [h])).IsChain (Joined next' prev') := joined_append.mpr ⟨.singleton x, h₂, hr⟩
    rw [← List.cons_append, List.append_assoc]
    exact joined_append.mpr ⟨h₁, hc, hl⟩
  nodup := (List.nodup_middle : ((h :: l₁) ++ x :: l₂).Nodup ↔ _).mpr <| List.nodup_cons.mpr ⟨hx, r.nodup⟩

theorem nodup_of_cons (r : Ring next prev h (l₁ ++ x :: l₂)) : (h :: (l₁ ++ l₂)).Nodup :=
  ((List.nodup_middle : ((h :: l₁) ++ x :: l₂).Nodup ↔ _).mp r.nodup).of_cons

-- A node is taken out.
theorem remove (r : Ring next prev h (l₁ ++ x :: l₂)) (hj : Joined next' prev' (l₁.getLastD h) (l₂.headD h))
    (hn : ∀ y ∈ h :: (l₁ ++ l₂), y ≠ l₁.getLastD h → next' y = next y)
    (hp : ∀ y ∈ h :: (l₁ ++ l₂), y ≠ l₂.headD h → prev' y = prev y) : Ring next' prev' h (l₁ ++ l₂) where
  joined := by
    have ⟨h₁, h₂, _⟩ := joined_append.mp (List.append_assoc (h :: l₁) (x :: l₂) [h] ▸ r.joined)
    have ⟨h₁, h₂⟩ := parts (nodup_of_cons r) h₁ (List.isChain_cons.mp h₂).right hn hp
    rw [← List.cons_append, List.append_assoc]
    exact joined_append.mpr ⟨h₁, h₂, hj⟩
  nodup := nodup_of_cons r

end Ring
end Linked
