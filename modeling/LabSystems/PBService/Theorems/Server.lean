import LabSystems.PBService.Server
import Mathlib.Data.List.Basic

namespace PBService

-- Clerks make up decimal numbers for themselves and for their updates.
structure PutAppendArgs.Numbered (args : PutAppendArgs) : Prop where
  client : ∃ n : Nat, args.client = toString n
  uid    : ∃ n : Nat, args.uid = toString n

theorem underscore_not_mem_toString (n : Nat) : '_' ∉ (toString n).toList := by
  rw [Nat.toString_eq_repr, Nat.toList_repr]
  exact Nat.underscore_not_in_toDigits

theorem toString_ne_empty (n : Nat) : toString n ≠ "" := by
  intro h
  have := congrArg String.toList h
  rw [Nat.toString_eq_repr, Nat.toList_repr] at this
  exact Nat.toDigits_ne_nil this

theorem toString_inj {m n : Nat} (h : toString m = toString n) : m = n := by
  have := congrArg (fun s => Nat.ofDigitChars 10 s.toList 0) h
  simpa only [Nat.toString_eq_repr, Nat.toList_repr, Nat.ofDigitChars_ten_toDigits] using this

namespace PutAppendArgs

variable {args args' : PutAppendArgs} {k v : String}

theorem Numbered.uid_ne_empty (h : args.Numbered) : args.uid ≠ "" :=
  have ⟨n, hn⟩ := h.uid
  hn ▸ toString_ne_empty n

-- Different updates have different records.
theorem Numbered.eq_of_record_eq (h : args.Numbered) (h' : args'.Numbered)
    (he : args.record = args'.record) : args.client = args'.client ∧ args.uid = args'.uid := by
  have ⟨a, ha⟩ := h.client
  have ⟨b, hb⟩ := h.uid
  have ⟨a', ha'⟩ := h'.client
  have ⟨b', hb'⟩ := h'.uid
  simp only [record, ha, hb, ha', hb'] at he ⊢
  have he := congrArg String.toList he
  simp only [String.toList_append, List.append_assoc] at he
  have ⟨hc, _, hu⟩ := List.append_cons_inj_of_notMem (underscore_not_mem_toString _)
    (underscore_not_mem_toString _) |>.mp <| List.append_cancel_left he
  exact ⟨String.toList_inj.mp hc, String.toList_inj.mp hu⟩

-- What the update makes of the value of a key.
def update (args : PutAppendArgs) (k v : String) : String :=
  let v := if k = args.record then args.uid else v
  if k = args.key then
    if args.op = "Append" then v ++ args.value else if args.op = "Put" then args.value else v
  else v

-- The keys whose value the update determines.
def Touches (args : PutAppendArgs) (k : String) : Prop :=
  k = args.record ∨ (k = args.key ∧ (args.op = "Append" ∨ args.op = "Put"))

instance (args : PutAppendArgs) : DecidablePred args.Touches :=
  fun _ => inferInstanceAs (Decidable (_ ∨ _))

theorem touches_record : args.Touches args.record :=
  .inl rfl

theorem update_of_not_touches (h : ¬args.Touches k) : args.update k v = v := by
  simp only [Touches, not_or, not_and] at h
  simp only [update, h.left]
  split <;> simp_all

end PutAppendArgs

namespace Db

variable {db : Db} {k k' v : String}

theorem read_insert : read (db.insert k v) k' = if k' = k then v else db.read k' := by
  by_cases h : k' = k
  case pos =>
    subst h
    simp [read]
  case neg => simp [read, h]

theorem read_of_not_mem (h : k ∉ db) : db.read k = "" := by
  simp [read, AList.lookup_eq_none.mpr h]

end Db

namespace PBServer

variable {pb : PBServer} {args : PutAppendArgs} {k : String}

theorem get_err {args : GetArgs} : (pb.get args).err = .wrongServer ↔ ¬pb.IsPrimary := by
  simp only [get]
  split
  case isTrue h  => exact iff_of_true rfl h
  case isFalse h => split <;> simpa using h

theorem execute_read : (pb.execute args).1.db.read k = args.update k (pb.db.read k) := by
  simp only [execute, PutAppendArgs.update]
  by_cases hk : k = args.key
  case pos => split <;> [skip; split] <;> simp [hk, Db.read_insert]
  case neg => split <;> [skip; split] <;> simp [hk, Db.read_insert]

theorem mem_execute : k ∈ (pb.execute args).1.db ↔ k ∈ pb.db ∨ args.Touches k := by
  simp only [execute, PutAppendArgs.Touches]
  split <;> [skip; split] <;> simp [*, AList.mem_insert] <;> tauto

@[simp]
theorem execute_view : (pb.execute args).1.view = pb.view := by
  simp only [execute]
  split <;> [skip; split] <;> rfl

@[simp]
theorem execute_me : (pb.execute args).1.me = pb.me := by
  simp only [execute]
  split <;> [skip; split] <;> rfl

theorem get_eq_ok {args : GetArgs} :
    pb.get args = ⟨.ok, value⟩ ↔ pb.IsPrimary ∧ pb.db.read args.key ≠ "" ∧ pb.db.read args.key = value := by
  simp only [get]
  split
  case isTrue hp => simp [hp]
  case isFalse hp =>
    rw [and_iff_right <| not_not.mp hp]
    split <;> simp_all

theorem execute_eq_ok : (pb.execute args).2 = ⟨.ok⟩ ↔ args.op = "Append" ∨ args.op = "Put" := by
  simp only [execute]
  split
  case isTrue ha  => simp [ha]
  case isFalse ha => split <;> simp_all

theorem refuse_eq_none : pb.refuse args = none ↔ pb.IsPrimary ∧ pb.db.read args.record = "" := by
  simp only [refuse]
  split
  case isTrue h => simp [h]
  case isFalse h =>
    have h : pb.IsPrimary := not_not.mp h
    split
    case isTrue hr  => simp [hr]
    case isFalse hr => exact iff_of_true rfl ⟨h, not_not.mp hr⟩

theorem refuse_eq_some (h : pb.refuse args = some reply) : reply.err = .wrongServer ∨
    (reply.err = .unset ∧ pb.db.read args.record ≠ "") := by
  simp only [refuse] at h
  split at h
  case isTrue => exact .inl <| by rw [← Option.some.inj h]
  case isFalse =>
    split at h
    case isTrue hr => exact .inr ⟨by rw [← Option.some.inj h], hr⟩
    case isFalse   => contradiction

theorem foldl_insert_lookup {es : List (Sigma fun _ : String => String)} (hn : es.NodupKeys)
    (db : Db) : AList.lookup k (es.foldl (fun db e => db.insert e.1 e.2) db) =
    (es.dlookup k).or (db.lookup k) := by
  induction es generalizing db
  case nil => rfl
  case cons e es hi =>
    have ⟨he, hn⟩ := List.nodupKeys_cons.mp hn
    rw [List.foldl_cons, hi hn]
    by_cases hk : k = e.1
    case pos =>
      subst hk
      have ⟨a, v⟩ := e
      simp [List.dlookup_eq_none.mpr he, List.dlookup_cons_eq]
    case neg => simp [List.dlookup_cons_ne _ _ hk, AList.lookup_insert_ne hk]

-- The received content takes precedence.
theorem processForward_lookup {args : ForwardArgs} : (pb.processForward args).db.lookup k =
    (args.content.lookup k).or (pb.db.lookup k) :=
  foldl_insert_lookup args.content.nodupKeys pb.db

theorem processForward_read {args : ForwardArgs} : (pb.processForward args).db.read k =
    if k ∈ args.content then args.content.read k else pb.db.read k := by
  rw [Db.read, processForward_lookup]
  split
  case isTrue h =>
    have ⟨v, hv⟩ := Option.isSome_iff_exists.mp <| AList.lookup_isSome.mpr h
    simp [Db.read, hv]
  case isFalse h => simp [Db.read, AList.lookup_eq_none.mpr h]

theorem mem_processForward {args : ForwardArgs} :
    k ∈ (pb.processForward args).db ↔ k ∈ args.content ∨ k ∈ pb.db := by
  simp [← AList.lookup_isSome, processForward_lookup]

@[simp]
theorem processForward_view {args : ForwardArgs} : (pb.processForward args).view = pb.view :=
  rfl

@[simp]
theorem processForward_me {args : ForwardArgs} : (pb.processForward args).me = pb.me :=
  rfl

end PBServer

end PBService
