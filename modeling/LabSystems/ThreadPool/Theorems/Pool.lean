import LabSystems.ThreadPool.Basic
import LabSystems.ThreadPool.Theorems.Queue
import Mathlib.Data.Fintype.Basic
import Mathlib.Data.Finset.Card

namespace ThreadPool

variable {F : Type} {l : Layout} {s s' : State F} {es : List (Event F)} {ts : List (Transition F l)} {i : Worker}
  {xs : List Addr} {w : Addr} {id : UInt64}

namespace Event

def submitted : Event F → Option Addr
  | submit w => w
  | _        => none

def dequeued : Event F → Option Addr
  | dequeue _ w => w
  | _           => none

end Event

-- The items that have been submitted, and those that workers have taken out of the queue, in their order.
def submitted (es : List (Event F)) : List Addr :=
  es.filterMap Event.submitted

def dequeued (es : List (Event F)) : List Addr :=
  es.filterMap Event.dequeued

-- An item that is submitted is not in the queue, and is not the queue itself.
def ProperAt (ts : List (Transition F l)) (t : Transition F l) : Prop :=
  ∀ w, .submit w ∈ t.events →
    link w ≠ l.wq ∧ (submitted (Machine.events ts)).count w = (dequeued (Machine.events ts)).count w

def Proper (ts : List (Transition F l)) : Prop :=
  ∀ ts₁ t ts₂, ts = ts₁ ++ t :: ts₂ → ProperAt ts₁ t

-- The queue has the items that have been submitted and not been taken out, in the order of their submission. Unless
-- it is empty, some worker is not blocked.
structure NoneLost (ts : List (Transition F l)) (s : State F) : Prop where
  order : ∃ xs, s.links.Holds l.wq (xs.map link) ∧
    submitted (Machine.events ts) = dequeued (Machine.events ts) ++ xs
  awake : ¬s.links.empty l.wq → ∃ i, s.workers i ≠ .waiting ∧ s.workers i ≠ .new

-- A worker that waits, or that has been unblocked and has not got the mutex yet.
def Pc.Idle (pc : Pc) : Prop :=
  pc = .waiting ∨ pc = .woken

instance : DecidablePred Pc.Idle :=
  fun _ => inferInstanceAs <| Decidable (_ ∨ _)

def State.idle (s : State F) : Finset Worker :=
  Finset.univ.filter fun i => (s.workers i).Idle

-- Eight bytes at an address overlap an object.
def Overlaps (a : Addr) (object : Addr × Nat) : Prop :=
  a < object.1 + object.2 ∧ object.1 < a + 8

instance : Decidable (Overlaps a object) :=
  inferInstanceAs <| Decidable (_ ∧ _)

-- The id of worker `i` is stored where it does no harm: outside of `wq.prev` and of the variables other than `wq` and
-- `idle_threads`, and the counter does not become four less than there are idle workers.
structure State.Harmless (l : Layout) (s : State F) (i : Worker) (id : UInt64) : Prop where
  prev   : l.thread i ≠ l.wq
  count  : (s.store l (l.thread i) id).idleThreads ≠ .ofNat s.idle.card - 4
  others : ∀ object ∈ [(l.mutex, sizeofMutex), (l.cond, 48), (l.nthreads, 4), (l.threads, 8)],
    ¬Overlaps (l.thread i) object

instance : Decidable (State.Harmless l s i id) :=
  decidable_of_iff (l.thread i ≠ l.wq ∧ (s.store l (l.thread i) id).idleThreads ≠ .ofNat s.idle.card - 4 ∧
      ∀ object ∈ [(l.mutex, sizeofMutex), (l.cond, 48), (l.nthreads, 4), (l.threads, 8)],
        ¬Overlaps (l.thread i) object)
    ⟨fun ⟨h₁, h₂, h₃⟩ => ⟨h₁, h₂, h₃⟩, fun h => ⟨h.prev, h.count, h.others⟩⟩

def Action.Harmless (l : Layout) (s : State F) : Action F → Prop
  | create i id => s.Harmless l i id
  | _           => True

instance : DecidablePred (Action.Harmless l s)
  | .create i id => inferInstanceAs <| Decidable (s.Harmless l i id)
  | .submit .. | .lock _ | .wake _ | .call _ | .finish _ => instDecidableTrue

-- The ids that `ae_init_threads` stores behind the array of ids do no harm.
def Harmless (ts : List (Transition F l)) : Prop :=
  ∀ t ∈ ts, t.act.Harmless l t.pre

instance : Decidable (Harmless ts) :=
  inferInstanceAs <| Decidable <| ∀ t ∈ ts, _

-- The queue has the given items, and is empty before all workers have been created. The counter is zero only if some
-- worker is not idle, and not all workers are blocked unless the queue is empty.
structure State.Inv (l : Layout) (xs : List Addr) (s : State F) : Prop where
  queue : s.links.Holds l.wq (xs.map link)
  new   : (∃ i, s.workers i = .new) → xs = []
  count : s.idleThreads ≠ .ofNat s.idle.card - 4
  awake : xs ≠ [] → ∃ i, s.workers i ≠ .waiting

theorem link_inj (h : link w = link w') : w = w' :=
  Nat.add_right_cancel h

theorem data_link : data (link w) = w :=
  Nat.add_sub_cancel ..

namespace State

theorem mem_idle : i ∈ s.idle ↔ (s.workers i).Idle := by
  simp [idle]

theorem idle_setWorker : (s.setWorker i pc).idle = if pc.Idle then insert i (s.idle.erase i) else s.idle.erase i := by
  ext j
  if hj : j = i then
    subst hj
    split <;> simp_all [mem_idle, setWorker]
  else
    split <;> simp [mem_idle, setWorker, hj]

-- Another position of a worker which is as idle as before.
theorem card_setWorker (h : pc.Idle ↔ (s.workers i).Idle) : (s.setWorker i pc).idle = s.idle := by
  rw [idle_setWorker]
  split
  case isTrue hp  => exact Finset.insert_erase <| mem_idle.mpr <| h.mp hp
  case isFalse hp => exact Finset.erase_eq_of_notMem fun hm => hp <| h.mpr <| mem_idle.mp hm

theorem setWorker_self : (s.setWorker i pc).workers i = pc :=
  Function.update_self ..

theorem new_setWorker (hp : pc ≠ .new) (h : ∃ j, (s.setWorker i pc).workers j = .new) : ∃ j, s.workers j = .new := by
  have ⟨j, hj⟩ := h
  by_cases he : j = i
  case pos => exact absurd (he ▸ hj) <| by rwa [setWorker_self]
  case neg => exact ⟨j, (Function.update_of_ne he ..).symm.trans hj⟩

-- A worker goes on, and it has been idle before exactly if it is idle afterwards.
theorem Inv.setWorker (h : s.Inv l xs) (hi : pc.Idle ↔ (s.workers i).Idle) (hw : pc ≠ .waiting) (hp : pc ≠ .new) :
    (s.setWorker i pc).Inv l xs where
  queue   := h.queue
  new hn  := h.new <| new_setWorker hp hn
  count   := by rw [card_setWorker hi]; exact h.count
  awake _ := ⟨i, by rwa [setWorker_self]⟩

theorem create_inv (h : s.Inv l xs) (hs : s.create l i id = some s') (hh : s.Harmless l i id) : s'.Inv l xs := by
  simp only [create] at hs
  split at hs
  case isFalse   => contradiction
  case isTrue hi =>
    cases hs
    have hx := h.new ⟨i, hi.left⟩
    subst hx
    have hs : (s.store l (l.thread i) id).Inv l [] :=
      ⟨Links.store_holds h.queue hh.prev.symm, fun _ => rfl, hh.count, nofun⟩
    exact hs.setWorker (by simp [Pc.Idle, store, hi.left]) nofun nofun

-- The section of a worker, which is not counted while it has the mutex.
theorem take_inv (hq : s.links.Holds l.wq (xs.map link)) (hn : (∃ i, s.workers i = .new) → xs = [])
    (hc : s.idleThreads ≠ .ofNat (s.idle.erase i).card - 4) :
    ∃ xs', (s.take l i).1.Inv l xs' ∧ xs = dequeued (s.take l i).2 ++ xs' ∧ submitted (s.take l i).2 = [] := by
  have he := Links.empty_iff hq
  cases xs
  case nil =>
    rw [take, if_pos <| he.mpr rfl]
    refine ⟨[], ⟨hq, fun _ => rfl, ?_, nofun⟩, rfl, rfl⟩
    have hi : ({ s with idleThreads := s.idleThreads + 1 }.setWorker i .waiting).idle = insert i (s.idle.erase i) :=
      idle_setWorker.trans <| if_pos <| .inl rfl
    rw [hi, Finset.card_insert_of_notMem <| Finset.notMem_erase i _, UInt32.ofNat_add]
    exact fun (he : s.idleThreads + 1 = _) => hc <| by grind
  case cons x xs =>
    rw [take, if_neg fun h => absurd (he.mp h) (by simp), Links.head_eq hq, data_link]
    have hq : s.links.Holds l.wq ([] ++ link x :: xs.map link) := hq
    refine ⟨xs, ⟨Links.remove_holds hq, fun hw => ?_, ?_, fun _ => ⟨i, by simp [setWorker_self]⟩⟩, rfl, rfl⟩
    case refine_1 => exact absurd (hn <| new_setWorker (by simp) hw) <| by simp
    case refine_2 =>
      have hi : ({ s with links := s.links.remove (link x) }.setWorker i (.dequeued x)).idle = s.idle.erase i :=
        idle_setWorker.trans <| if_neg <| by simp [Pc.Idle]
      rw [hi]
      exact hc

-- A signal reaches a blocked worker, if there is one.
theorem signal_inv (hq : s.links.Holds l.wq (xs.map link)) (hn : (∃ i, s.workers i = .new) → xs = [])
    (hc : s.idleThreads ≠ .ofNat s.idle.card - 4) (hs : s.signal i = some s') : s'.Inv l xs := by
  simp only [signal] at hs
  split at hs
  case isTrue hi =>
    cases hs
    refine ⟨hq, fun hw => hn <| new_setWorker (by simp) hw, ?_, fun _ => ⟨i, by simp [setWorker_self]⟩⟩
    rw [card_setWorker <| by simp [Pc.Idle, hi]]
    exact hc
  case isFalse hi =>
    split at hs
    case isTrue  => contradiction
    case isFalse =>
      cases hs
      exact ⟨hq, hn, hc, fun _ => ⟨i, hi⟩⟩

-- If all workers are blocked, the counter is not zero.
theorem exists_not_waiting (hc : s.idleThreads ≠ .ofNat s.idle.card - 4) (h₀ : ¬s.idleThreads > 0) :
    ∃ i, s.workers i ≠ .waiting := by
  by_contra hw
  have hi : s.idle = Finset.univ := Finset.eq_univ_of_forall fun i => mem_idle.mpr <| .inl <| by
    simpa using not_exists.mp hw i
  have hz : s.idleThreads = 0 := UInt32.le_zero_iff.mp <| UInt32.not_lt.mp h₀
  rw [hi, hz] at hc
  exact hc rfl

theorem submit_inv (h : s.Inv l xs) (hw : link w ∉ l.wq :: xs.map link) (hs : s.submit l w f g i = some s') :
    s'.Inv l (xs ++ [w]) := by
  have hq : (s.links.insertTail l.wq (link w)).Holds l.wq ((xs ++ [w]).map link) := by
    rw [List.map_append]
    exact Links.insertTail_holds h.queue hw
  simp only [submit] at hs
  split at hs
  case isTrue     => contradiction
  case isFalse hn =>
    split at hs
    case isTrue =>
      refine signal_inv ?_ ?_ ?_ hs
      case refine_1 => exact hq
      case refine_2 => exact fun hw => absurd hw hn
      case refine_3 => exact h.count
    case isFalse h₀ =>
      cases hs
      exact ⟨hq, fun hw => absurd hw hn, h.count, fun _ => exists_not_waiting h.count h₀⟩

-- What a step makes of the queue.
theorem step_inv (h : s.Inv l xs) (hs : s.step l a = some (s', es))
    (hw : ∀ w, .submit w ∈ es → link w ∉ l.wq :: xs.map link)
    (hh : a.Harmless l s) :
    ∃ xs', s'.Inv l xs' ∧ xs ++ submitted es = dequeued es ++ xs' := by
  cases a with
  | create i id =>
    have ⟨s₁, hs₁, he⟩ := Option.map_eq_some_iff.mp hs
    cases he
    exact ⟨xs, create_inv h hs₁ hh, List.append_nil _⟩
  | submit w f g i =>
    have ⟨s₁, hs₁, he⟩ := Option.map_eq_some_iff.mp hs
    cases he
    exact ⟨xs ++ [w], submit_inv h (hw w List.mem_cons_self) hs₁, rfl⟩
  | lock i =>
    simp only [step] at hs
    split at hs
    case h_1 hi =>
      have hm : i ∉ s.idle := fun hm => by simpa [Pc.Idle, hi] using mem_idle.mp hm
      have ht := take_inv h.queue h.new ((Finset.erase_eq_of_notMem hm).symm ▸ h.count)
      rw [Option.some.inj hs] at ht
      have ⟨xs', h', he, hn⟩ := ht
      exact ⟨xs', h', by rw [hn, List.append_nil, ← he]⟩
    case h_2 hi =>
      have hm : i ∈ s.idle := mem_idle.mpr <| .inr hi
      have hc : s.idleThreads - 1 ≠ .ofNat (s.idle.erase i).card - 4 := by
        have hc := h.count
        rw [← Finset.card_erase_add_one hm, UInt32.ofNat_add] at hc
        exact fun he => hc <| by grind
      have ht := @take_inv F l { s with idleThreads := s.idleThreads - 1 } i xs h.queue h.new hc
      rw [Option.some.inj hs] at ht
      have ⟨xs', h', he, hn⟩ := ht
      exact ⟨xs', h', by rw [hn, List.append_nil, ← he]⟩
    case h_3 => contradiction
  | wake i =>
    simp only [step] at hs
    split at hs
    case isFalse => contradiction
    case isTrue hi =>
      cases hs
      exact ⟨xs, h.setWorker (by simp [Pc.Idle, hi]) nofun nofun, List.append_nil _⟩
  | call i =>
    simp only [step] at hs
    split at hs
    case h_1 hi =>
      have ⟨_, _, he⟩ := Option.map_eq_some_iff.mp hs
      cases he
      exact ⟨xs, h.setWorker (by simp [Pc.Idle, hi]) nofun nofun, List.append_nil _⟩
    case h_2 => contradiction
  | finish i =>
    simp only [step] at hs
    split at hs
    case h_1 hi =>
      cases hs
      exact ⟨xs, h.setWorker (by simp [Pc.Idle, hi]) nofun nofun, List.append_nil _⟩
    case h_2 => contradiction

theorem idle_init : (State.init l : State F).idle = ∅ :=
  Finset.filter_eq_empty_iff.mpr fun _ _ => by simp [init, Pc.Idle]

theorem init_inv : (State.init l : State F).Inv l [] := by
  refine ⟨Links.init_holds, fun _ => rfl, ?_, nofun⟩
  rw [idle_init, Finset.card_empty]
  show (0 : UInt32) ≠ .ofNat 0 - 4
  decide

end State

theorem proper_snoc {t : Transition F l} : Proper (ts ++ [t]) ↔ Proper ts ∧ ProperAt ts t where
  mp h  := ⟨fun ts₁ u ts₂ he => h ts₁ u (ts₂ ++ [t]) (by simp [he]), h ts t [] rfl⟩
  mpr h := by
    intro ts₁ u ts₂ he
    cases ts₂ using List.reverseRecOn
    case nil =>
      have ⟨ht, hu⟩ := List.append_inj' he rfl
      cases List.singleton_inj.mp hu
      exact ht ▸ h.right
    case append_singleton ts₂ v _ =>
      have ⟨ht, _⟩ := List.append_inj' (by simpa using he : ts ++ [t] = (ts₁ ++ u :: ts₂) ++ [v]) rfl
      exact h.left ts₁ u ts₂ ht

theorem mem_submitted : w ∈ submitted es ↔ .submit w ∈ es := by
  simp only [submitted, List.mem_filterMap]
  constructor
  case mp  =>
    intro ⟨e, hm, he⟩
    cases e <;> simp only [Event.submitted, reduceCtorEq, Option.some.injEq] at he
    exact he ▸ hm
  case mpr => exact fun h => ⟨_, h, rfl⟩

instance {t : Transition F l} : Decidable (ProperAt ts t) :=
  decidable_of_iff (∀ w ∈ submitted t.events, link w ≠ l.wq ∧
      (submitted (Machine.events ts)).count w = (dequeued (Machine.events ts)).count w) <|
    forall_congr' fun _ => imp_congr_left mem_submitted

instance : Decidable (Proper ts) :=
  decidable_of_iff (∀ k : Fin ts.length, ProperAt (ts.take k) ts[k.val]) {
    mp h := by
      rintro ts₁ t ts₂ rfl
      simpa using h ⟨ts₁.length, by simp⟩
    mpr h := fun k => h _ _ (ts.drop (k + 1)) (by simp)
  }

theorem inv_of_run (r : (pool F l).Run ts s) (h : Proper ts) (hh : Harmless ts) :
    ∃ xs, s.Inv l xs ∧ submitted (Machine.events ts) = dequeued (Machine.events ts) ++ xs := by
  induction r
  case nil => exact ⟨[], State.init_inv, rfl⟩
  case snoc ts t r hi =>
    have ⟨h, hw⟩ := proper_snoc.mp h
    have ⟨xs, hx, he⟩ := hi h fun u hu => hh u <| List.mem_append_left _ hu
    have hw (w) (hm : .submit w ∈ t.events) : link w ∉ l.wq :: xs.map link := by
      intro hl
      have ⟨hq, hc⟩ := hw w hm
      cases List.mem_cons.mp hl
      case inl hl => exact hq hl
      case inr hl =>
        have ⟨w', hx, hw'⟩ := List.mem_map.mp hl
        rw [he, List.count_append] at hc
        have hp := List.count_pos_iff.mpr <| link_inj hw' ▸ hx
        omega
    have ⟨xs', hx', he'⟩ := State.step_inv hx t.valid hw <| hh t <| by simp
    refine ⟨xs', hx', ?_⟩
    rw [Machine.events_append, Machine.events_singleton]
    simp only [submitted, dequeued, List.filterMap_append] at *
    rw [he, List.append_assoc, he', List.append_assoc]

-- Items are taken out in their order and workers are not left blocked, if the ids of the threads are not stored over the
-- queue and the other variables.
theorem none_lost (r : (pool F l).Run ts s) (h : Proper ts) (hh : Harmless ts) : NoneLost ts s := by
  have ⟨xs, hx, he⟩ := inv_of_run r h hh
  refine ⟨⟨xs, hx.queue, he⟩, fun hn => ?_⟩
  have hn : xs ≠ [] := fun hx' => hn <| (Links.empty_iff hx.queue).mpr <| List.map_eq_nil_iff.mpr hx'
  have ⟨i, hi⟩ := hx.awake hn
  exact ⟨i, hi, fun he => hn <| hx.new ⟨i, he⟩⟩

-- The second id is stored over `wq.next`.
def harmlessLayout : Layout where
  mutex          := 64
  cond           := 128
  idleThreads    := 176
  nthreads       := 180
  threads        := 184
  defaultThreads := 192
  wq             := 224
  disjoint       := by decide
  aligned        := by decide

-- Worker 0 waits and is unblocked when the first of two items is submitted. Another worker takes the second one.
theorem none_lost_of_two : ∃ (ts : List (Transition Unit harmlessLayout)) (s : _), (pool Unit harmlessLayout).Run ts s ∧
    Machine.events ts = [.submit 800, .submit 900, .dequeue 0 800, .dequeue 1 900] ∧ NoneLost ts s := by
  let as : List (Action Unit) := [.create 0 5000, .create 1 6000, .create 2 7000, .create 3 8000, .lock 0,
    .submit 800 () () 0, .submit 900 () () 0, .lock 0, .lock 1]
  have r := (pool Unit harmlessLayout).path_trace (pool Unit harmlessLayout).init as
  exact ⟨_, _, r, rfl, none_lost r (by decide +kernel) (by decide +kernel)⟩

-- The second id is stored over `wq.prev`.
def harmfulLayout : Layout where
  mutex          := 64
  cond           := 128
  idleThreads    := 176
  nthreads       := 180
  defaultThreads := 192
  threads        := 224
  wq             := 232
  disjoint       := by decide
  aligned        := by decide

-- The queue does not seem empty, and the first worker takes what lies before `wq` for an item.
theorem not_none_lost : ∃ (ts : List (Transition Unit harmfulLayout)) (s : _), (pool Unit harmfulLayout).Run ts s ∧
    Machine.events ts = [.dequeue 0 208] ∧ Proper ts ∧ ¬NoneLost ts s := by
  let as : List (Action Unit) := [.create 0 5000, .create 1 6000, .lock 0]
  have r := (pool Unit harmfulLayout).path_trace (pool Unit harmfulLayout).init as
  have he : Machine.events ((pool Unit harmfulLayout).trace (pool Unit harmfulLayout).init as).1 = [.dequeue 0 208] := rfl
  refine ⟨_, _, r, he, by decide +kernel, fun h => ?_⟩
  have ⟨xs, _, ho⟩ := h.order
  rw [he] at ho
  cases ho

end ThreadPool
