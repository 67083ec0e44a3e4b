import LabSystems.PBService.Basic
import LabSystems.PBService.Theorems.Server

namespace PBService

open ViewService (View)

namespace PBServer

-- The handler of `PutAppend` on a server without a backup.
def putAppend (pb : PBServer) (args : PutAppendArgs) : PBServer :=
  match pb.refuse args with
  | some _ => pb
  | none   => (pb.execute args).1

-- A server that handles requests one after the other, each in the view that it has at the time.
def serve (pb : PBServer) (reqs : List (View × PutAppendArgs)) : PBServer :=
  reqs.foldl (fun pb r => { pb with view := r.1 }.putAppend r.2) pb

end PBServer

-- The views in which the server with a name is the primary and has no backup.
def Single (p : String) (v : View) : Prop :=
  v.primary = p ∧ v.backup = ""

-- What an operation is meant to make of the value of its key.
def PutAppendArgs.apply (args : PutAppendArgs) (v : String) : String :=
  if args.op = "Append" then v ++ args.value else if args.op = "Put" then args.value else v

-- The distinct operations in the order of their first delivery, applied once each.
def intended (k : String) (reqs : List PutAppendArgs) : String :=
  reqs.eraseDups.filter (·.key = k) |>.foldl (fun v args => args.apply v) ""

-- The identifiers by which a clerk names an operation.
structure Name where
  client : Nat
  uid    : Nat
  deriving DecidableEq, Repr

def Name.record (n : Name) : String :=
  "uid_" ++ toString n.client ++ "_" ++ toString n.uid

-- Requests for operations whose names determine their keys. Each name is used for one operation.
structure Deliveries (keys : Name → Option String) (reqs : List PutAppendArgs) : Prop where
  named : ∀ args ∈ reqs, ∃ n : Name, args.client = toString n.client ∧ args.uid = toString n.uid ∧
    keys n = some args.key
  once  : ∀ args ∈ reqs, ∀ args' ∈ reqs, args.client = args'.client → args.uid = args'.uid → args = args'

-- The key is a record, or the record of an operation on the key is itself the key of an operation.
def Collides (keys : Name → Option String) (k : String) : Prop :=
  ∃ n, (keys n).isSome ∧ n.record = k ∨ keys n = some k ∧ ∃ n', keys n' = some n.record

variable {keys : Name → Option String} {k : String} {reqs : List PutAppendArgs} {args : PutAppendArgs} {n n' : Name}

theorem Name.eq_of_record_eq (h : n.record = n'.record) : n = n' := by
  have num (n : Name) : PutAppendArgs.Numbered ⟨"", "", "", toString n.uid, toString n.client⟩ := ⟨⟨_, rfl⟩, ⟨_, rfl⟩⟩
  have ⟨hc, hu⟩ := (num n).eq_of_record_eq (num n') h
  have ⟨c, u⟩ := n
  cases toString_inj hc
  cases toString_inj hu
  rfl

theorem eraseDups_concat : (reqs ++ [args]).eraseDups =
    if args ∈ reqs then reqs.eraseDups else reqs.eraseDups ++ [args] := by
  rw [List.eraseDups_append]
  split <;> simp [List.removeAll, List.eraseDups_cons, *]

theorem intended_of_mem (h : args.key = k → args ∈ reqs) : intended k (reqs ++ [args]) = intended k reqs := by
  rw [intended, eraseDups_concat]
  split
  case isTrue    => rfl
  case isFalse h' =>
    have hk : args.key ≠ k := fun hk => h' <| h hk
    simp [intended, hk]

theorem intended_of_not_mem (h : args ∉ reqs) (hk : args.key = k) :
    intended k (reqs ++ [args]) = args.apply (intended k reqs) := by
  simp [intended, eraseDups_concat, h, hk]

-- The value of a key is the intended one, and the operations on it that have been delivered are recorded.
structure Tracks (keys : Name → Option String) (k : String) (reqs : List PutAppendArgs) (db : Db) : Prop where
  value    : db.read k = intended k reqs
  recorded : ∀ n, keys n = some k → (db.read n.record ≠ "" ↔ ∃ args ∈ reqs, args.record = n.record)

theorem Deliveries.eq_of_record_eq {args' : PutAppendArgs} (hd : Deliveries keys reqs) (h : args ∈ reqs) (h' : args' ∈ reqs)
    (he : args.record = args'.record) : args = args' := by
  have num {args} (h : args ∈ reqs) : args.Numbered :=
    have ⟨_, hc, hu, _⟩ := hd.named args h
    ⟨⟨_, hc⟩, ⟨_, hu⟩⟩
  have ⟨hc, hu⟩ := (num h).eq_of_record_eq (num h') he
  exact hd.once _ h _ h' hc hu

theorem Tracks.putAppend {pb : PBServer} (h : Tracks keys k reqs pb.db) (hp : pb.IsPrimary)
    (hd : Deliveries keys (reqs ++ [args])) (hc : ¬Collides keys k) :
    Tracks keys k (reqs ++ [args]) (pb.putAppend args).db := by
  obtain ⟨n, hcl, hu, hn⟩ := hd.named args (by simp)
  have hr : args.record = n.record := by simp only [PutAppendArgs.record, Name.record, hcl, hu]
  have hk : k ≠ args.record := fun he => hc ⟨n, .inl ⟨by simp [hn], hr.symm.trans he.symm⟩⟩
  -- The operation is on the key if its record is that of an operation on the key.
  have hkey {n'} (hn' : keys n' = some k) (he : args.record = n'.record) : args.key = k := by
    rw [Name.eq_of_record_eq (hr.symm.trans he)] at hn
    exact Option.some.inj <| hn.symm.trans hn'
  simp only [PBServer.putAppend]
  split
  case h_1 reply hs =>
    have hs : pb.db.read args.record ≠ "" := fun he => by
      cases hs.symm.trans <| PBServer.refuse_eq_none.mpr ⟨hp, he⟩
    constructor
    case value =>
      refine h.value.trans (intended_of_mem fun he => ?_).symm
      -- Only its own first delivery has recorded the operation.
      obtain ⟨args', hm, he'⟩ := h.recorded n (he ▸ hn) |>.mp <| hr ▸ hs
      have he : args' = args := hd.eq_of_record_eq (List.mem_append_left _ hm) (by simp) (he'.trans hr.symm)
      exact he ▸ hm
    case recorded =>
      intro n' hn'
      rw [h.recorded n' hn']
      constructor
      case mp =>
        rintro ⟨args', hm, he⟩
        exact ⟨args', List.mem_append_left _ hm, he⟩
      case mpr =>
        rintro ⟨args', hm, he⟩
        cases List.mem_append.mp hm
        case inl hm => exact ⟨args', hm, he⟩
        case inr hm =>
          cases List.mem_singleton.mp hm
          exact h.recorded n' hn' |>.mp <| he ▸ hs
  case h_2 hs =>
    have hs := PBServer.refuse_eq_none.mp hs |>.right
    constructor
    case value =>
      rw [PBServer.execute_read]
      by_cases he : args.key = k
      case pos =>
        have hm : args ∉ reqs := fun hm => h.recorded n (he ▸ hn) |>.mpr ⟨args, hm, hr⟩ (hr ▸ hs)
        rw [intended_of_not_mem hm he, ← h.value]
        simp [PutAppendArgs.update, PutAppendArgs.apply, he, hk]
      case neg =>
        rw [intended_of_mem (absurd · he), ← h.value]
        exact PutAppendArgs.update_of_not_touches fun ht => ht.elim hk fun ht => he ht.left.symm
    case recorded =>
      intro n' hn'
      rw [PBServer.execute_read]
      by_cases he : args.record = n'.record
      case pos =>
        have hne : n'.record ≠ args.key := fun hne => hk <| (hkey hn' he).symm.trans <| hne.symm.trans he.symm
        have hv : args.update n'.record (pb.db.read n'.record) = args.uid := by
          simp [PutAppendArgs.update, he, hne]
        refine iff_of_true ?_ ⟨args, by simp, he⟩
        rw [hv, hu]
        exact toString_ne_empty _
      case neg =>
        have hne : n'.record ≠ args.key := fun hne => hc ⟨n', .inr ⟨hn', n, hne ▸ hn⟩⟩
        have ht : ¬args.Touches n'.record := fun ht => ht.elim (fun h => he h.symm) fun h => hne h.left
        rw [PutAppendArgs.update_of_not_touches ht, h.recorded n' hn']
        simp [or_and_right, exists_or, he]

theorem Deliveries.of_append {reqs' : List PutAppendArgs} (h : Deliveries keys (reqs ++ reqs')) : Deliveries keys reqs :=
  ⟨fun _ ha => h.named _ <| List.mem_append_left _ ha,
    fun _ ha _ hb => h.once _ (List.mem_append_left _ ha) _ (List.mem_append_left _ hb)⟩

theorem PBServer.putAppend_me {pb : PBServer} : (pb.putAppend args).me = pb.me := by
  simp only [PBServer.putAppend]
  split <;> simp

theorem PBServer.serve_me {reqs : List (View × PutAppendArgs)} : ((PBServer.startServer p).serve reqs).me = p := by
  suffices ∀ pb : PBServer, (pb.serve reqs).me = pb.me from this _
  induction reqs
  case nil          => exact fun _ => rfl
  case cons r rs hi => exact fun pb => hi _ |>.trans PBServer.putAppend_me

theorem tracks_of_serve {reqs : List (View × PutAppendArgs)} (hs : ∀ r ∈ reqs, Single p r.1)
    (hd : Deliveries keys (reqs.map (·.2))) (hc : ¬Collides keys k) :
    Tracks keys k (reqs.map (·.2)) ((PBServer.startServer p).serve reqs).db := by
  induction reqs using List.reverseRecOn
  case nil =>
    refine ⟨rfl, fun n _ => ?_⟩
    simp [PBServer.serve, PBServer.startServer, Db.read]
  case append_singleton reqs r hi =>
    rw [List.map_append] at hd ⊢
    have ht := hi (fun r hr => hs r <| List.mem_append_left _ hr) hd.of_append
    have hp := hs r (by simp) |>.left
    have hm : ((PBServer.startServer p).serve reqs).me = p := PBServer.serve_me
    simp only [PBServer.serve, List.foldl_append, List.foldl_cons, List.foldl_nil, List.map_cons, List.map_nil] at ht hm ⊢
    exact Tracks.putAppend ht (hp.trans hm.symm) hd hc

-- A request with a new record is executed, and one with an old record is not.
theorem PBServer.putAppend_read {pb : PBServer} (hp : pb.IsPrimary) : (pb.putAppend args).db.read k =
    if pb.db.read args.record = "" then args.update k (pb.db.read k) else pb.db.read k := by
  simp only [PBServer.putAppend]
  split
  case h_1 h =>
    have hr : pb.db.read args.record ≠ "" := fun hr => by cases h.symm.trans <| PBServer.refuse_eq_none.mpr ⟨hp, hr⟩
    simp [hr]
  case h_2 h => simp [PBServer.refuse_eq_none.mp h |>.right, PBServer.execute_read]

-- The reply of `Get` to a value.
def valueReply (v : String) : GetReply :=
  if v = "" then ⟨.noKey, ""⟩ else ⟨.ok, v⟩

theorem valueReply_inj {v w : String} (h : valueReply v = valueReply w) : v = w := by
  simp only [valueReply] at h
  split at h <;> split at h <;> simp_all

theorem PBServer.get_eq {pb : PBServer} (hp : pb.IsPrimary) : pb.get ⟨k⟩ = valueReply (pb.db.read k) := by
  simp only [PBServer.get, valueReply]
  split
  case isTrue h  => exact absurd hp h
  case isFalse h => split <;> simp_all

-- However often and in whatever order requests are delivered to a server that stays primary without a
-- backup, `Get` reads what the distinct operations on the key are meant to make of it.
def ExactlyOnce (p : String) (keys : Name → Option String) (k : String) : Prop :=
  ∀ reqs v, (∀ r ∈ reqs, Single p r.1) → Single p v → Deliveries keys (reqs.map (·.2)) →
    { (PBServer.startServer p).serve reqs with view := v }.get ⟨k⟩ = valueReply (intended k (reqs.map (·.2)))

theorem ExactlyOnce.read (h : ExactlyOnce p keys k) (hd : Deliveries keys reqs) :
    ((PBServer.startServer p).serve (reqs.map (⟨1, p, ""⟩, ·))).db.read k = intended k reqs := by
  have hg := h (reqs.map (⟨1, p, ""⟩, ·)) ⟨1, p, ""⟩ (by simp [Single]) ⟨rfl, rfl⟩ (by simpa [Function.comp_def] using hd)
  rw [PBServer.get_eq PBServer.serve_me.symm] at hg
  simpa [Function.comp_def] using valueReply_inj hg

-- The request by which a clerk makes an operation.
def Name.request (n : Name) (key value op : String) : PutAppendArgs :=
  ⟨key, value, op, toString n.uid, toString n.client⟩

theorem Name.request_record {key value op : String} : (n.request key value op).record = n.record :=
  rfl

theorem PBServer.startServer_read : (PBServer.startServer p).db.read k = "" :=
  Db.read_of_not_mem <| AList.notMem_empty _

-- A record of an operation is read as a value.
theorem ExactlyOnce.record_ne (h : ExactlyOnce p keys k) (hn : (keys n).isSome) : n.record ≠ k := by
  intro hr
  have ⟨key, hkey⟩ := Option.isSome_iff_exists.mp hn
  have hd : Deliveries keys [n.request key "" "Append"] := ⟨by simpa using ⟨n, rfl, rfl, hkey⟩, by simp⟩
  have hu : (n.request key "" "Append").update k "" = toString n.uid := by
    rw [PutAppendArgs.update, Name.request_record, if_pos hr.symm]
    simp [Name.request]
  have hi : intended k [n.request key "" "Append"] = "" := by
    simp only [intended, List.eraseDups_cons, List.filter_nil, List.eraseDups_nil, List.filter_cons]
    split <;> simp [PutAppendArgs.apply, Name.request]
  have hv := h.read hd
  simp only [PBServer.serve, List.map_cons, List.map_nil, List.foldl_cons, List.foldl_nil] at hv
  rw [PBServer.putAppend_read rfl, PBServer.startServer_read, PBServer.startServer_read, if_pos rfl, hu, hi] at hv
  exact toString_ne_empty _ hv

-- An operation is taken for executed whose record is the key of another operation.
theorem ExactlyOnce.record_not_key (h : ExactlyOnce p keys k) (hn : keys n = some k) : keys n' ≠ some n.record := by
  intro hn'
  have hk := h.record_ne (n := n) (by simp [hn])
  have hk' := h.record_ne (n := n') (by simp [hn'])
  have hne : n'.record ≠ n.record := fun he =>
    hk <| Option.some.inj <| (Name.eq_of_record_eq he ▸ hn').symm.trans hn
  let a := n'.request n.record "x" "Put"
  let b := n.request k "y" "Put"
  have hd : Deliveries keys [a, b] := by
    constructor
    case named => simpa using ⟨⟨n', rfl, rfl, hn'⟩, ⟨n, rfl, rfl, hn⟩⟩
    case once =>
      have hd (hc : toString n'.client = toString n.client) (hu : toString n'.uid = toString n.uid) : False :=
        hne <| by simp only [Name.record, hc, hu]
      simp only [List.mem_cons, List.not_mem_nil, or_false]
      rintro _ (rfl | rfl) _ (rfl | rfl) hc hu
      · rfl
      · exact hd hc hu |>.elim
      · exact hd hc.symm hu.symm |>.elim
      · rfl
  have hi : intended k [a, b] = "y" := by
    simp [intended, List.eraseDups_cons, a, b, Name.request, hk, PutAppendArgs.apply]
  let v : View := ⟨1, p, ""⟩
  let pb := { PBServer.startServer p with view := v }.putAppend a
  have hpb {k} : pb.db.read k = a.update k "" := by
    rw [PBServer.putAppend_read rfl, PBServer.startServer_read, PBServer.startServer_read, if_pos rfl]
  have hr : pb.db.read b.record ≠ "" := by
    have hu : a.update n.record "" = "x" := if_pos rfl
    exact (hpb.trans hu).symm ▸ by decide
  have hv : ({ pb with view := v }.putAppend b).db.read k = "y" := (h.read hd).trans hi
  have hm : pb.me = p := PBServer.putAppend_me
  have ht : ¬a.Touches k := fun ht => ht.elim (fun he => hk' he.symm) fun he => hk he.left.symm
  rw [PBServer.putAppend_read hm.symm, if_neg hr, hpb, PutAppendArgs.update_of_not_touches ht] at hv
  exact absurd hv <| by decide

-- That is so for all values exactly if records and keys do not collide.
theorem exactlyOnce_iff (p : String) (keys : Name → Option String) (k : String) :
    ExactlyOnce p keys k ↔ ¬Collides keys k := by
  constructor
  case mp =>
    rintro h ⟨n, hc | ⟨hn, n', hn'⟩⟩
    · exact h.record_ne hc.left hc.right
    · exact h.record_not_key hn hn'
  case mpr =>
    intro hc reqs v hs hv hd
    rw [PBServer.get_eq (hv.left.trans PBServer.serve_me.symm)]
    exact congrArg valueReply (tracks_of_serve hs hd hc).value

-- Clerk 7 puts a value under the key which is the record of the first operation of clerk 8.
theorem not_exactlyOnce :
    let reqs : List PutAppendArgs := [⟨"uid_8_1", "x", "Put", "1", "7"⟩, ⟨"k", "y", "Put", "1", "8"⟩]
    let keys : Name → Option String := fun n =>
      if n = ⟨7, 1⟩ then some "uid_8_1" else if n = ⟨8, 1⟩ then some "k" else none
    let pb := (PBServer.startServer "a").serve (reqs.map (⟨1, "a", ""⟩, ·))
    Deliveries keys reqs ∧ intended "k" reqs = "y" ∧ pb.get ⟨"k"⟩ = ⟨.noKey, ""⟩ ∧
      (∀ args ∈ reqs, args.key ≠ "uid_7_1") ∧ pb.get ⟨"uid_7_1"⟩ = ⟨.ok, "1"⟩ := by
  refine ⟨⟨?named, by decide⟩, by decide⟩
  simp only [List.mem_cons, List.not_mem_nil, or_false]
  rintro _ (rfl | rfl)
  · exact ⟨⟨7, 1⟩, by decide⟩
  · exact ⟨⟨8, 1⟩, by decide⟩

end PBService
