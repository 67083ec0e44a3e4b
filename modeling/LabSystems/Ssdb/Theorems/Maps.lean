import Mathlib.Logic.Function.Basic
import LabSystems.Ssdb.Theorems.Step

namespace Ssdb

open Ordered (Map Write)

-- All calls to LevelDB succeed.
def Action.Succeeds : Action → Prop
  | set ok _ _ | del ok _  => ok = true
  | hset calls _ _ _ _     => calls = ⟨true, true, true⟩
  | reopen                 => True

instance : DecidablePred Action.Succeeds :=
  fun a => by cases a <;> unfold Action.Succeeds <;> infer_instance

-- What the data is about: one map for keys, and another for the keys of all hashes.
structure Maps where
  kv   : Bytes → Option Bytes
  hash : Bytes × Bytes → Option Bytes

namespace Maps

def empty : Maps where
  kv _   := none
  hash _ := none

def call (m : Maps) : Action → Maps
  | .set _ key val           => if key = [] then m else { m with kv := Function.update m.kv key val }
  | .del _ key               => { m with kv := Function.update m.kv key none }
  | .hset _ name key val _   =>
    if Accepted name key then { m with hash := Function.update m.hash (name, key) val } else m
  | .reopen                  => m

end Maps

-- The maps that result from the calls of a run.
def maps (ts : List Transition) : Maps :=
  ts.foldl (fun m t => m.call t.act) .empty

def GetResult.of : Option Bytes → GetResult
  | none     => notFound
  | some val => found val

structure SSDBImpl.Refines (s : SSDBImpl) (m : Maps) : Prop where
  kv   : ∀ key, s.ldb.get (encodeKvKey key) = m.kv key
  hash : ∀ name key, s.ldb.get (encodeHashKey name key) = m.hash (name, key)

section

variable {s s' : SSDBImpl} {m : Maps} {writes : List (Write Bytes Bytes)}

theorem SSDBImpl.ldbGet_true : s.ldbGet true k = .of (s.ldb.get k) := by
  cases h : s.ldb.get k <;> simp [ldbGet, GetResult.of, h]

theorem GetResult.val_of (h : (of v).ret ≠ 0) : v = some (of v).val := by
  cases v
  case none => exact absurd rfl h
  case some => rfl

namespace SSDBImpl

theorem Refines.keep (h : s.Refines m) (hk : s'.ldb = s.ldb) : s'.Refines m :=
  ⟨hk ▸ h.kv, hk ▸ h.hash⟩

-- A field is set, and nothing else but a size.
theorem Refines.hset (hr : s.Refines m) (ha : Accepted name key)
    (h : s.Appends (.put (encodeHashKey name key) val :: writes) type cmd k s')
    (hw : ∀ w ∈ writes, w.key.head? = some DataType.hsize) :
    s'.Refines { m with hash := Function.update m.hash (name, key) val } where
  kv key'         := by
    refine h.get_other rfl (by decide) (fun w hm => ?_) |>.trans <| hr.kv key'
    cases List.mem_cons.mp hm
    case inl he => exact he ▸ ne_of_head? rfl head?_encodeHashKey (by decide)
    case inr hm => exact ne_of_head? rfl (hw w hm) (by decide)
  hash name' key' := by
    rw [h.get_hash head?_encodeHashKey hw]
    simp only [encodeHashKey_inj ha.name_le ha.key_le, Function.update_apply, Prod.mk.injEq, hr.hash]

end SSDBImpl

theorem Step.refines (h : Step s a s') (hr : s.Refines m) (ha : a.Succeeds) : s'.Refines (m.call a) := by
  cases h
  case setKeep key _ _ hn hk =>
    have hn := hn.resolve_right fun hf => Bool.noConfusion <| hf.symm.trans ha
    simpa [Maps.call, hn] using hr.keep hk.ldb
  case set key val hn hap =>
    rw [Maps.call, if_neg hn]
    constructor
    case kv =>
      intro key'
      rw [hap.get_of_head? rfl (by decide)]
      simp [Map.write, Write.apply, Map.get_insert, encodeKvKey_inj, Function.update_apply, hr.kv]
    case hash =>
      intro name' key'
      refine hap.get_other rfl (by decide) (fun w hm => ?_) |>.trans <| hr.hash name' key'
      exact List.mem_singleton.mp hm ▸ ne_of_head? rfl head?_encodeKvKey (by decide)
  case delKeep => cases ha
  case del key hap =>
    constructor
    case kv =>
      intro key'
      rw [hap.get_of_head? rfl (by decide)]
      simp [Map.write, Write.apply, Map.get_erase, encodeKvKey_inj, Maps.call, Function.update_apply,
        hr.kv]
    case hash =>
      intro name' key'
      refine hap.get_other rfl (by decide) (fun w hm => ?_) |>.trans <| hr.hash name' key'
      exact List.mem_singleton.mp hm ▸ ne_of_head? rfl head?_encodeKvKey (by decide)
  case hsetRefused hn hk => simpa [Maps.call, hn] using hr.keep hk.ldb
  case hsetFailed hf _ => 
    cases ha
    cases hf
  case hsetSame hac ht hs hk =>
    cases ha
    rw [Maps.call, if_pos hac]
    rw [SSDBImpl.hget, SSDBImpl.ldbGet_true] at ht hs
    have hv := GetResult.val_of ht
    rw [hs, hr.hash] at hv
    rw [← hv, Function.update_eq_self]
    exact hr.keep hk.ldb
  case hsetOver hac _ _ _ hap =>
    rw [Maps.call, if_pos hac]
    exact hr.hset hac hap <| by simp
  case hsetNew hac _ _ hap =>
    rw [Maps.call, if_pos hac]
    exact hr.hset hac hap <| by simp [SSDBImpl.sizeWrite_key]
  case reopen => exact hr.keep rfl

theorem refines_of_run (r : ssdb.Run ts s) (ha : ∀ t ∈ ts, t.act.Succeeds) : s.Refines (maps ts) := by
  induction r
  case nil => exact ⟨fun _ => rfl, fun _ _ => rfl⟩
  case snoc t r hi =>
    have hi := hi fun u hu => ha u <| List.mem_append_left _ hu
    simpa [maps] using Step.of t |>.refines hi <| ha t <| by simp

theorem Maps.call_hash (h : ¬Accepted name key) : (m.call a).hash (name, key) = m.hash (name, key) := by
  cases a
  case set => rw [call]; split <;> rfl
  case del | reopen => rfl
  case hset =>
    rw [call]
    split
    case isTrue ha =>
      refine (Function.update_apply ..).trans <| if_neg fun he => ?_
      cases he
      exact h ha
    case isFalse => rfl

theorem maps_hash (h : ¬Accepted name key) : (maps ts).hash (name, key) = none := by
  induction ts using List.reverseRecOn
  case nil => rfl
  case append_singleton ts t hi => simpa [maps, Maps.call_hash h] using hi

-- `get` and `hget` read two independent maps, in which no name is longer than the limit, and data of
-- different types never has the same key.
theorem maps_of_run (r : ssdb.Run ts s) (ha : ∀ t ∈ ts, t.act.Succeeds) :
    (∀ key, s.get true key = .of ((maps ts).kv key)) ∧
    (∀ name key, s.hget true name key = .of ((maps ts).hash (name, key))) ∧
    (∀ name key, keyLenMax < name.length → s.hget true name key = .notFound) ∧
    ∀ seq key name field name', [encodeSeqKey seq, encodeKvKey key, encodeHashKey name field,
      encodeHsizeKey name'].Pairwise (· ≠ ·) := by
  have hr := refines_of_run r ha
  have hash (name key) : s.hget true name key = .of ((maps ts).hash (name, key)) :=
    SSDBImpl.ldbGet_true.trans <| congrArg _ <| hr.hash name key
  refine ⟨fun key => SSDBImpl.ldbGet_true.trans <| congrArg _ <| hr.kv key, hash, fun name key hl => ?_,
    fun seq key name field name' => ?_⟩
  case refine_1 => rw [hash, maps_hash fun ha => ha.name_le.not_gt hl, GetResult.of]
  case refine_2 =>
    have hp : List.Pairwise (· ≠ ·) [some DataType.synclog, some DataType.kv, some DataType.hash,
      some DataType.hsize] := by decide
    exact hp.of_map List.head? fun _ _ => ne_of_apply_ne _

-- A name that is 256 bytes longer than the one of a hash, and has the same length byte.
theorem maps_of_run_long :
    let s := (ssdb.trace (.open .empty) [.hset ⟨true, true, true⟩ [110] [102] [2] BinlogType.sync,
      .set true [97] [1], .del true [97]]).2
    s.hget true (110 :: .replicate 256 61) [102] = .notFound :=
  (maps_of_run (ssdb.path_trace ..) (by decide)).right.right.left _ _ <| by
    rw [List.length_cons, List.length_replicate]
    decide

end

end Ssdb
