import Mathlib.Algebra.Order.BigOperators.Group.List
import Mathlib.Algebra.Order.Ring.Nat
import Mathlib.Data.List.Dedup
import LabSystems.PBService.Theorems.Copies

namespace PBService

-- The keys that do not look like records.
def UserKey (k : String) : Prop :=
  ¬"uid_".toList <+: k.toList

instance : DecidablePred UserKey :=
  fun _ => inferInstanceAs (Decidable (¬_))

theorem PutAppendArgs.not_userKey_record (args : PutAppendArgs) : ¬UserKey args.record := by
  simp [UserKey, record, String.toList_append]

theorem PutAppendArgs.key_eq_of_touches {args : PutAppendArgs} (hk : UserKey k) (ht : args.Touches k) :
    args.key = k := by
  cases ht
  case inl he => exact absurd (he ▸ hk) args.not_userKey_record
  case inr he => exact he.left.symm

def Event.begun : Event → Option PutAppendArgs
  | begin args => some args
  | _          => none

-- The updates that clerks have begun.
def begun (es : List Event) : List PutAppendArgs :=
  es.filterMap Event.begun

theorem mem_begun : args ∈ begun es ↔ .begin args ∈ es := by
  simp only [begun, List.mem_filterMap]
  constructor
  case mp =>
    intro ⟨e, he, h⟩
    cases e <;> simp only [Event.begun, Option.some.injEq, reduceCtorEq] at h
    exact h ▸ he
  case mpr => exact fun h => ⟨_, h, rfl⟩

-- Clerks only append, only to user keys, and no two of their updates have the same identifiers.
structure AppendsOnly (es : List Event) : Prop where
  append   : ∀ args ∈ begun es, args.op = "Append"
  user     : ∀ args ∈ begun es, UserKey args.key
  distinct : (begun es).map (fun args => (args.client, args.uid)) |>.Nodup

-- A database holds under every user key the values of exactly the appends that it has a record of.
def Accounted (es : List Event) (db : Db) : Prop :=
  ∀ k, UserKey k → ∃ l : List PutAppendArgs, l.Nodup ∧
    (∀ args, args ∈ l ↔ args ∈ begun es ∧ args.key = k ∧ db.read args.record ≠ "") ∧
    db.read k = String.join (l.map (·.value))

-- A server receives the value of a key without an append of which it already has the record.
def Event.Overwrites (es : List Event) (s : State) : Event → Prop
  | merge _ p args => ∃ sv ∈ s.servers p, ∃ op ∈ PBService.begun es, sv.pb.db.read op.record ≠ "" ∧
    args.content.read op.record = "" ∧ op.key ∈ args.content ∧ op.value ≠ ""
  | _ => False

instance : DecidablePred (Event.Overwrites es s) :=
  fun e => by cases e <;> unfold Event.Overwrites <;> infer_instance

structure Regular (es : List Event) : Prop extends AppendsOnly es where
  numbered : ∀ args ∈ begun es, args.Numbered

-- The histories of a database: an append that is part of a value is recorded.
structure Logged (es : List Event) (h : Histories String PutAppendArgs) : Prop where
  issued   : ∀ k, ∀ args ∈ h k, args ∈ begun es ∧ args.Touches k
  nodup    : ∀ k, (h k).Nodup
  recorded : ∀ args, args ∈ h args.key → args ∈ h args.record

-- Conversely, an append that is recorded is part of the value.
def Complete (h : Histories String PutAppendArgs) : Prop :=
  ∀ args, args ∈ h args.record → args.value ≠ "" → args ∈ h args.key

section

variable {es es' : List Event} {args args' : PutAppendArgs} {h h' : Histories String PutAppendArgs}
  {db : Db} {k : String}

theorem AppendsOnly.of_append (hr : AppendsOnly (es ++ es')) : AppendsOnly es := by
  have hs : begun es ⊆ begun (es ++ es') := by simp [begun]
  refine ⟨fun a ha => hr.append a <| hs ha, fun a ha => hr.user a <| hs ha, ?_⟩
  have hd := hr.distinct
  rw [begun, List.filterMap_append, List.map_append] at hd
  exact List.nodup_append.mp hd |>.left

namespace Regular

theorem of_append (hr : Regular (es ++ es')) : Regular es :=
  { hr.toAppendsOnly.of_append with
    numbered := fun a ha => hr.numbered a <| by simp_all [begun] }

-- Only the update itself touches its record.
theorem eq_of_touches (hr : Regular es) (ha : args ∈ begun es) (hb : args' ∈ begun es)
    (ht : args'.Touches args.record) : args' = args := by
  cases ht
  case inl he =>
    have ⟨hc, hu⟩ := (hr.numbered _ hb).eq_of_record_eq (hr.numbered _ ha) he.symm
    exact List.inj_on_of_nodup_map hr.distinct hb ha <| by rw [hc, hu]
  case inr he => exact absurd (he.left ▸ hr.user _ hb) args.not_userKey_record

end Regular

namespace Logged

theorem mono (hl : Logged es h) : Logged (es ++ es') h :=
  { hl with issued := fun k a ha => hl.issued k a ha |>.imp_left fun hm => by simp_all [begun] }

theorem empty : Logged es .empty where
  issued _ _ hm := by simp at hm
  nodup _       := by simp
  recorded _ hm := by simp at hm

-- Every update in the history of a record is the recorded one.
theorem history_record (hl : Logged es h) (hr : Regular es) (ha : args ∈ begun es)
    (hm : args' ∈ h args.record) : args' = args :=
  have ⟨hb, ht⟩ := hl.issued _ _ hm
  hr.eq_of_touches ha hb ht

theorem execute (hl : Logged es h) (ha : args ∈ begun es) (hn : args ∉ h args.record) :
    Logged es (h.execute args) where
  issued k a hm := by
    cases Histories.mem_execute.mp hm
    case inl hm => exact hl.issued k a hm
    case inr hm => exact hm.right ▸ ⟨ha, hm.left⟩
  nodup k := by
    simp only [Histories.execute]
    split
    case isTrue ht =>
      refine List.nodup_append.mpr ⟨hl.nodup k, by simp, ?_⟩
      intro a hm b hb he
      have hm : args ∈ h k := List.mem_singleton.mp hb ▸ he ▸ hm
      cases ht
      case inl hk => exact hn <| hk ▸ hm
      case inr hk => exact hn <| hl.recorded args <| hk.left ▸ hm
    case isFalse => exact hl.nodup k
  recorded a hm := by
    refine Histories.mem_execute.mpr ?_
    cases Histories.mem_execute.mp hm
    case inl hm => exact .inl <| hl.recorded a hm
    case inr hm => exact .inr ⟨hm.right ▸ PutAppendArgs.touches_record, hm.right⟩

theorem merge (hl : Logged es h) (hl' : Logged es h') (hr : Regular es) : Logged es (h.merge h') where
  issued k a hm := by
    cases Histories.mem_merge_or hm
    case inl hm => exact hl.issued k a hm
    case inr hm => exact hl'.issued k a hm
  nodup k := by
    simp only [Histories.merge]
    split
    case isTrue  => exact hl.nodup k
    case isFalse => exact hl'.nodup k
  recorded a hm := by
    cases Histories.mem_merge_or hm
    case inl hm =>
      refine Histories.mem_merge_iff (hl.recorded a hm) |>.mpr fun hn => ?_
      obtain ⟨b, hb⟩ := List.exists_mem_of_ne_nil _ hn
      exact hl'.history_record hr (hl.issued _ _ hm).left hb ▸ hb
    case inr hm => exact Histories.mem_merge_of_mem <| hl'.recorded a hm

end Logged

namespace Logged

theorem history_eq_singleton (hl : Logged es h) (hr : Regular es) (hm : args ∈ h args.record) :
    h args.record = [args] := by
  have ha := hl.issued _ _ hm |>.left
  have he := List.eq_replicate_of_mem fun b hb => hl.history_record hr ha hb
  have hn := List.nodup_replicate.mp <| he ▸ hl.nodup args.record
  have hp := List.length_pos_of_mem hm
  rwa [show (h args.record).length = 1 by omega] at he

-- A record reads as present exactly if its history is not empty.
theorem read_record (hl : Logged es h) (hr : Regular es) (hd : db.Reflects h) (ha : args ∈ begun es) :
    db.read args.record ≠ "" ↔ args ∈ h args.record where
  mp hne := by
    by_contra hn
    have he : h args.record = [] :=
      List.eq_nil_iff_forall_not_mem.mpr fun b hb => hn <| hl.history_record hr ha hb ▸ hb
    exact hne <| (hd _).left.trans <| Histories.value_of_nil he
  mpr hm := by
    have hk : args.record ≠ args.key := fun he => args.not_userKey_record <| he ▸ hr.user _ ha
    rw [(hd _).left]
    simp only [Histories.value, hl.history_eq_singleton hr hm, List.foldl_cons, List.foldl_nil, Update.update,
      PutAppendArgs.update, if_true, if_neg hk]
    exact (hr.numbered _ ha).uid_ne_empty

-- The value of a user key is the concatenation of the appended values.
theorem read_user (hl : Logged es h) (hr : Regular es) (hd : db.Reflects h) (hk : UserKey k) :
    db.read k = String.join ((h k).map (·.value)) := by
  rw [(hd k).left, Histories.value]
  have hi := hl.issued k
  generalize h k = l at hi
  induction l using List.reverseRecOn
  case nil => rfl
  case append_singleton l a ih =>
    obtain ⟨hb, ht⟩ := hi a (by simp)
    have hrec : k ≠ a.record := fun he => a.not_userKey_record <| he ▸ hk
    rw [List.foldl_append, ih fun b hb => hi b <| List.mem_append_left _ hb]
    simp [Update.update, PutAppendArgs.update, hrec, a.key_eq_of_touches hk ht, hr.append _ hb]

theorem accounted (hl : Logged es h) (hr : Regular es) (hd : db.Reflects h) (hc : Complete h) :
    Accounted es db := by
  intro k hk
  -- Recorded appends of the empty string may be missing in the history.
  let rest := (begun es).dedup.filter fun a => a.key = k ∧ db.read a.record ≠ "" ∧ a ∉ h k
  have hm a : a ∈ rest ↔ a ∈ begun es ∧ a.key = k ∧ db.read a.record ≠ "" ∧ a ∉ h k := by
    simp only [rest, List.mem_filter, List.mem_dedup, decide_eq_true_eq]
  have he : ∀ a ∈ rest, a.value = "" := by
    intro a ha
    have ⟨ha, hk, hne, hn⟩ := hm a |>.mp ha
    by_contra hv
    exact hn <| hk ▸ hc a (hl.read_record hr hd ha |>.mp hne) hv
  refine ⟨h k ++ rest, ?nodup, ?mem, ?value⟩
  case nodup =>
    refine List.nodup_append.mpr ⟨hl.nodup k, List.nodup_dedup _ |>.filter _, ?_⟩
    rintro a ha b hb rfl
    exact hm a |>.mp hb |>.right.right.right ha
  case mem =>
    intro a
    rw [List.mem_append, hm]
    constructor
    case mp =>
      intro ha
      cases ha
      case inl ha =>
        have ⟨hb, ht⟩ := hl.issued _ _ ha
        have hk := a.key_eq_of_touches hk ht
        exact ⟨hb, hk, hl.read_record hr hd hb |>.mpr <| hl.recorded a <| hk ▸ ha⟩
      case inr ha => exact ⟨ha.left, ha.right.left, ha.right.right.left⟩
    case mpr =>
      intro ⟨hb, hk, hne⟩
      by_cases ha : a ∈ h k
      case pos => exact .inl ha
      case neg => exact .inr ⟨hb, hk, hne, ha⟩
  case value =>
    have hz : String.join (rest.map (·.value)) = "" := by
      rw [← String.length_eq_zero_iff, String.length_join, List.sum_eq_zero_iff_forall_eq_nat]
      intro n hn
      simp only [List.mem_map, exists_exists_and_eq_and] at hn
      have ⟨a, ha, hn⟩ := hn
      rw [← hn, he a ha, String.length_empty]
    rw [List.map_append, String.join_append, hz, String.append_empty, hl.read_user hr hd hk]

end Logged

namespace Complete

theorem empty : Complete .empty :=
  fun _ hm => by simp at hm

theorem execute (hc : Complete h) (ha : args.op = "Append") : Complete (h.execute args) := by
  intro a hm hv
  refine Histories.mem_execute.mpr ?_
  cases Histories.mem_execute.mp hm
  case inl hm => exact .inl <| hc a hm hv
  case inr hm =>
    have ⟨_, he⟩ := hm
    subst he
    exact .inr ⟨.inr ⟨rfl, .inl ha⟩, rfl⟩

-- A merge keeps up unless it brings the value of a key without a recorded append.
theorem merge (hc : Complete h) (hc' : Complete h')
    (hm : ∀ a, a ∈ h a.record → h' a.record = [] → h' a.key ≠ [] → a.value = "") :
    Complete (h.merge h') := by
  intro a ha hv
  by_cases hn : h' a.record = []
  case pos =>
    have ha : a ∈ h a.record := by simpa [Histories.merge, hn] using ha
    refine Histories.mem_merge_iff (hc a ha hv) |>.mpr fun hk => ?_
    exact absurd (hm a ha hn hk) hv
  case neg =>
    have ha : a ∈ h' a.record := by simpa [Histories.merge, hn] using ha
    exact Histories.mem_merge_of_mem <| hc' a ha hv

end Complete

end

theorem regular_of_run (r : cluster.Run ts s) (ha : AppendsOnly (Machine.events ts)) :
    Regular (Machine.events ts) :=
  { ha with numbered := fun _ hb => numbered_of_begin r <| mem_begun.mp hb }

theorem logged_of_run (r : cluster.Run ts s) (hr : Regular (Machine.events ts)) :
    (replicas (Machine.events ts)).Forall (Logged (Machine.events ts)) := by
  induction r
  case nil => exact .init .empty
  case snoc ts t r hi =>
    rw [Machine.events_append, Machine.events_singleton] at hr ⊢
    have hl := hi hr.of_append
    refine Step.of t |>.forall_replicas (hl.mono fun _ => .mono) .empty (fun p v args he => ?_)
      fun c p args he => ?_
    case refine_1 =>
      have ⟨_, _, hc, hi, ha, _⟩ := Step.of t |>.of_execute he
      have hb := mem_begun.mpr <| (begun_of_run r).pending hc
      have hd := (mirrored_of_run r).server _ _ hi |>.db
      have hn := PBServer.refuse_eq_none.mp ha |>.right
      refine hl.held p |>.mono.execute (by simp_all [begun]) fun hm => ?_
      exact ((hl.held p).read_record hr.of_append hd hb).mpr hm hn
    case refine_2 => exact (hl.held p).mono.merge (hl.sent c).mono hr

theorem complete_of_run (r : cluster.Run ts s) (hr : Regular (Machine.events ts))
    (ho : ∀ ts₁ t ts₂, ts = ts₁ ++ t :: ts₂ → ∀ e ∈ t.events,
      ¬e.Overwrites (Machine.events ts₁) t.pre) :
    (replicas (Machine.events ts)).Forall Complete := by
  induction r
  case nil => exact .init .empty
  case snoc ts t r hi =>
    rw [Machine.events_append, Machine.events_singleton] at hr ⊢
    have hl := logged_of_run r hr.of_append
    have hm := mirrored_of_run r
    have hi := hi hr.of_append fun ts₁ u ts₂ hs => ho ts₁ u (ts₂ ++ [t]) (by simp [hs])
    refine Step.of t |>.forall_replicas hi .empty (fun p v args he => ?_) fun c p args he => ?_
    case refine_1 =>
      have ⟨_, _, hc, _⟩ := Step.of t |>.of_execute he
      have hb := mem_begun.mpr <| (begun_of_run r).pending hc
      exact hi.held p |>.execute <| hr.of_append.append _ hb
    case refine_2 =>
      have ⟨pb, hc, hi', _⟩ := Step.of t |>.of_merge he
      have hd := (hm.server _ _ hi').db
      have hd' := hm.call _ _ (Calls.pending_eq_some.mp hc) _ _ rfl
      refine hi.held p |>.merge (hi.sent c) fun a ha hn hk => ?_
      have hb := (hl.held p).issued _ _ ha |>.left
      by_contra hv
      refine ho ts t [] rfl _ he ⟨_, hi', a, hb, ?_, ?_, (hd' _).right.mpr hk, hv⟩
      case refine_1 => exact (hl.held p).read_record hr.of_append hd hb |>.mpr ha
      case refine_2 => exact (hd' _).left.trans <| Histories.value_of_nil hn

-- If the received value misses a recorded append, it is shorter than the recorded values.
theorem Logged.not_accounted {pb : PBServer} {args : ForwardArgs} (hl' : Logged es h')
    (hr : Regular es) (hd' : args.content.Reflects h') (hb : op ∈ begun es) (hne : pb.db.read op.record ≠ "")
    (he : args.content.read op.record = "")
    (hk : op.key ∈ args.content) (hv : op.value ≠ "") :
    ¬Accounted es (pb.processForward args).db := by
  intro ha
  have ⟨l, _, hm, hj⟩ := ha op.key <| hr.user _ hb
  have hn : op ∉ h' op.record := fun hn => hl'.read_record hr hd' hb |>.mpr hn he
  have hnil : h' op.record = [] :=
    List.eq_nil_iff_forall_not_mem.mpr fun b hm => hn <| hl'.history_record hr hb hm ▸ hm
  have hsub : op :: h' op.key ⊆ l := by
    refine List.cons_subset.mpr ⟨hm op |>.mpr ⟨hb, rfl, ?_⟩, fun a hma => hm a |>.mpr ?_⟩
    case refine_1 => rwa [PBServer.processForward_read, if_neg <| by simp [(hd' _).right, hnil]]
    case refine_2 =>
      have ⟨hba, ht⟩ := hl'.issued _ _ hma
      have hka := a.key_eq_of_touches (hr.user _ hb) ht
      have hra := hl'.recorded a <| hka ▸ hma
      refine ⟨hba, hka, ?_⟩
      rw [PBServer.processForward_read, if_pos <| (hd' _).right.mpr <| List.ne_nil_of_mem hra]
      exact hl'.read_record hr hd' hba |>.mpr hra
  have hnd : (op :: h' op.key).Nodup := List.nodup_cons.mpr ⟨fun hm => hn <| hl'.recorded op hm, hl'.nodup _⟩
  have ⟨l', hp, hs⟩ := List.subperm_of_subset hnd hsub
  rw [PBServer.processForward_read, if_pos hk, hl'.read_user hr hd' (hr.user _ hb)] at hj
  have hlen := congrArg String.length hj
  rw [String.length_join, String.length_join] at hlen
  have hle := (hs.map (·.value)).map String.length |>.sum_le_sum fun _ _ => Nat.zero_le _
  have heq := (hp.map (·.value)).map String.length |>.sum_nat
  have := String.length_eq_zero_iff.not.mpr hv
  simp only [List.map_cons, List.sum_cons] at heq
  omega

theorem not_accounted_of_overwrites {t : Transition} (r : cluster.Run ts t.pre)
    (ha : AppendsOnly (Machine.events (ts ++ [t])))
    (ho : ∃ e ∈ t.events, e.Overwrites (Machine.events ts) t.pre) :
    ∃ p sv, t.post.servers p = some sv ∧ ¬Accounted (Machine.events (ts ++ [t])) sv.pb.db := by
  have hr := regular_of_run (r.snoc t) ha
  rw [Machine.events_append] at hr ⊢
  have ⟨e, he, ho⟩ := ho
  cases e <;> simp only [Event.Overwrites] at ho
  case merge c p args =>
    have ⟨sv, hsv, op, hb, hne, hz, hk, hv⟩ := ho
    have ⟨pb, hc, hi, hpost⟩ := Step.of t |>.of_merge he
    cases hi.symm.trans hsv
    have hl := (logged_of_run r hr.of_append).sent c
    have hd := (mirrored_of_run r).call _ _ (Calls.pending_eq_some.mp hc) _ _ rfl
    refine ⟨p, _, hpost, hl.mono.not_accounted hr hd ?_ hne hz hk hv⟩
    simp_all [begun]

-- Records match the data as long as no server merges a value that misses one of its records.
theorem accounted_iff (r : cluster.Run ts s) (ha : AppendsOnly (Machine.events ts)) :
    (∀ ts₁ t ts₂, ts = ts₁ ++ t :: ts₂ → ∀ p sv, t.post.servers p = some sv →
      Accounted (Machine.events (ts₁ ++ [t])) sv.pb.db) ↔
    ∀ ts₁ t ts₂, ts = ts₁ ++ t :: ts₂ → ∀ e ∈ t.events, ¬e.Overwrites (Machine.events ts₁) t.pre where
  mp h ts₁ t ts₂ hs e he ho := by
    have ha' : AppendsOnly (Machine.events (ts₁ ++ [t])) := by
      rw [show ts = (ts₁ ++ [t]) ++ ts₂ by simp [hs], Machine.events_append] at ha
      exact ha.of_append
    have ⟨p, sv, hp, hn⟩ := not_accounted_of_overwrites (hs ▸ r).split_cons.left ha' ⟨e, he, ho⟩
    exact hn <| h ts₁ t ts₂ hs p sv hp
  mpr h ts₁ t ts₂ hs p sv hp := by
    have ha' : AppendsOnly (Machine.events (ts₁ ++ [t])) := by
      rw [show ts = (ts₁ ++ [t]) ++ ts₂ by simp [hs], Machine.events_append] at ha
      exact ha.of_append
    have r := (hs ▸ r).split_cons.left.snoc t
    have hr := regular_of_run r ha'
    have hc := complete_of_run r hr fun us u ws hu => h us u (ws ++ ts₂) <| by
      rw [hs, show ts₁ ++ t :: ts₂ = (ts₁ ++ [t]) ++ ts₂ by simp, hu, List.append_assoc, List.cons_append]
    exact (logged_of_run r hr).held p |>.accounted hr ((mirrored_of_run r).server _ _ hp).db (hc.held p)

-- The primary forwards two appends to its backup. The call for the first append fails, and its
-- request is delayed.
def delayedForward : List Action :=
  [.startServer "a", .startServer "b", .tick "a", .handle 0, .receive "a", .tick "a", .handle 1,
    .receive "a", .tick "b", .handle 2, .receive "b", .tick "a", .handle 3, .receive "a", .handle 4,
    .receive "a", .makeClerk "" 7, .putAppend 0 "k" "x" "Append" 1, .handle 5, .clerkReceive 0,
    .handle 6, .fail "a", .clerkReceive 0, .putAppend 0 "k" "y" "Append" 2, .handle 8]

theorem accounted_in_order :
    let ts := (cluster.trace .init (delayedForward ++ [.handle 7, .handle 9])).1
    ∀ ts₁ t ts₂, ts = ts₁ ++ t :: ts₂ → ∀ p sv, t.post.servers p = some sv →
      Accounted (Machine.events (ts₁ ++ [t])) sv.pb.db :=
  accounted_iff (cluster.path_trace ..) ⟨by decide, by decide, by decide⟩ |>.mpr <|
    List.forall_split_iff.mpr (by decide)

-- If the first request arrives after the second one, the value goes back to "x", while the record
-- of the second append stays.
theorem not_accounted_reordered : ∃ (ts : List Transition) (s : _), cluster.Run ts s ∧
    AppendsOnly (Machine.events ts) ∧
    ¬∀ ts₁ t ts₂, ts = ts₁ ++ t :: ts₂ → ∀ p sv, t.post.servers p = some sv →
      Accounted (Machine.events (ts₁ ++ [t])) sv.pb.db := by
  have r := cluster.path_trace .init (delayedForward ++ [.handle 9, .handle 7])
  refine ⟨_, _, r, ⟨by decide, by decide, by decide⟩, fun h => ?_⟩
  have ⟨p, sv, hp, hn⟩ := not_accounted_of_overwrites (r.take (i := 26) (by decide))
    ⟨by decide, by decide, by decide⟩ (by decide)
  exact hn <| List.forall_split_iff.mp h 26 (by decide) p sv hp

end PBService
