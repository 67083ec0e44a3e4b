import LabSystems.Linked.Ring
import LabSystems.ThreadPool.Queue

namespace ThreadPool.Links

open Linked (Ring)

-- The nodes of a queue in their order. Nothing reads the field `next` of an empty queue.
def Holds (l : Links) (q : Addr) (xs : List Addr) : Prop :=
  xs = [] ∧ l.prev q = q ∨ Ring l.next l.prev q xs

variable {l : Links} {h x y : Addr} {xs ys : List Addr}

@[simp]
theorem setPrev_next : (l.setPrev x y).next = l.next :=
  rfl

@[simp]
theorem setNext_prev : (l.setNext x y).prev = l.prev :=
  rfl

@[simp]
theorem setPrev_prev : (l.setPrev x y).prev = Function.update l.prev x y :=
  rfl

@[simp]
theorem setNext_next : (l.setNext x y).next = Function.update l.next x y :=
  rfl

theorem init_holds : (l.init h).Holds h [] :=
  .inl ⟨rfl, Function.update_self ..⟩

theorem empty_iff (q : l.Holds h xs) : l.empty h ↔ xs = [] := by
  rw [empty, beq_iff_eq, eq_comm]
  cases q
  case inl q => exact iff_of_true q.right q.left
  case inr q => exact q.prev_eq_self_iff

theorem Holds.ring (q : l.Holds h (xs ++ x :: ys)) : Ring l.next l.prev h (xs ++ x :: ys) :=
  q.resolve_left fun q => by simp at q

theorem head_eq (q : l.Holds h (x :: xs)) : l.head h = x :=
  have ring : Ring l.next l.prev h ([] ++ x :: xs) := Holds.ring q
  ring.next_eq

theorem store_holds (q : l.Holds h []) (ha : h ≠ x) : (l.store x y).Holds h [] := by
  refine .inl ⟨rfl, (if_neg ha).trans ?_⟩
  cases q
  case inl q => exact q.right
  case inr q => exact q.prev_eq

theorem insertTail_next : (l.insertTail h x).next = Function.update (Function.update l.next (l.prev h) x) x h := by
  simp [insertTail]

theorem insertTail_prev : (l.insertTail h x).prev = Function.update (Function.update l.prev x (l.prev h)) h x :=
  rfl

theorem insertTail_ring (q : Ring l.next l.prev h xs) (hx : x ∉ h :: xs) :
    Ring (l.insertTail h x).next (l.insertTail h x).prev h (xs ++ [x]) := by
  have hh : x ≠ h := List.ne_of_not_mem_cons hx
  have hp : l.prev h = xs.getLastD h := q.prev_eq
  have hl : xs.getLastD h ≠ x := fun he => hx <| he ▸ List.getLastD_mem_cons
  have hy {y} (hy : y ∈ h :: (xs ++ [])) : y ≠ x := ne_of_mem_of_not_mem hy <| by rwa [List.append_nil]
  rw [insertTail_next, insertTail_prev, hp]
  have q : Ring l.next l.prev h (xs ++ []) := (List.append_nil xs).symm ▸ q
  refine q.insert ?_ ⟨?_, ?_⟩ ⟨?_, ?_⟩ ?_ ?_
  · rwa [List.append_nil]
  · rw [Function.update_of_ne hl, Function.update_self]
  · rw [Function.update_of_ne hh, Function.update_self]
  · exact Function.update_self ..
  · exact Function.update_self ..
  · exact fun y hm hn => by rw [Function.update_of_ne (hy hm), Function.update_of_ne hn]
  · exact fun y hm (hn : y ≠ h) => by rw [Function.update_of_ne hn, Function.update_of_ne (hy hm)]

-- The field `next` of an empty queue is overwritten.
theorem insertTail_holds (q : l.Holds h xs) (hx : x ∉ h :: xs) : (l.insertTail h x).Holds h (xs ++ [x]) := by
  rcases q with ⟨rfl, hp⟩ | q
  case inr => exact .inr <| insertTail_ring q hx
  case inl =>
    have hn : (l.insertTail h x) = ((l.setNext h h).insertTail h x) := by
      simp [insertTail, setPrev, setNext, hp]
    rw [hn]
    exact .inr <| insertTail_ring (Ring.nil_iff.mpr ⟨Function.update_self .., hp⟩) hx

theorem remove_holds (q : l.Holds h (xs ++ x :: ys)) : (l.remove x).Holds h (xs ++ ys) := by
  have q := q.ring
  have hn : l.next x = ys.headD h := q.next_node
  have hp : l.prev x = xs.getLastD h := q.prev_node
  have hm : x ∉ (h :: xs) ++ ys := (List.nodup_cons.mp <| List.nodup_middle.mp (q.nodup : ((h :: xs) ++ x :: ys).Nodup)).left
  have hx : ys.headD h ≠ x := by
    intro he
    cases List.mem_cons.mp (he ▸ Ring.headD_mem : x ∈ h :: ys)
    case inl hh => exact hm <| hh ▸ List.mem_cons_self
    case inr hy => exact hm <| List.mem_append_right _ hy
  have he : l.remove x = ⟨Function.update l.prev (ys.headD h) (xs.getLastD h),
      Function.update l.next (xs.getLastD h) (ys.headD h)⟩ := by
    simp only [remove, setPrev, setNext, hn, hp, Function.update_of_ne hx.symm]
  rw [he]
  refine .inr <| Ring.remove q ⟨Function.update_self .., Function.update_self ..⟩ ?_ ?_
  · exact fun y _ hy => Function.update_of_ne hy ..
  · exact fun y _ hy => Function.update_of_ne hy ..

end ThreadPool.Links
