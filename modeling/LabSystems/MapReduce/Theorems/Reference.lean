import Mathlib.Data.List.Dedup
import LabSystems.MapReduce.Theorems.Names

namespace MapReduce

variable {json : Json} {Map : Bytes → List KeyValue} {Reduce : String → List String → String} {f name : String}
  {fs fs' : Files} {res kvs : List KeyValue} {b : Bytes} {nreduce r i n : Nat}

theorem encode_ne_nil (json : Json) (kv : KeyValue) : json.encode kv ≠ [] := by
  intro h
  have hd := json.decode_encode kv []
  rw [h, List.append_nil, json.decode_nil] at hd
  cases hd

theorem decodeAll_encode (h : kvs.length ≤ n) : decodeAll json n (kvs.flatMap json.encode) = kvs := by
  induction kvs generalizing n
  case nil => cases n <;> simp [decodeAll, json.decode_nil]
  case cons kv kvs hi =>
    cases n
    case zero   => cases h
    case succ n => simp [decodeAll, json.decode_encode, hi (Nat.le_of_succ_le_succ h)]

theorem readAll_encode : readAll json (kvs.flatMap json.encode) = kvs := by
  refine decodeAll_encode ?_
  induction kvs
  case nil => exact Nat.zero_le _
  case cons kv kvs hi =>
    have := List.length_pos_iff.mpr <| encode_ne_nil json kv
    rw [List.flatMap_cons, List.length_append, List.length_cons]
    omega

-- The records of one partition.
def partition (nreduce r : Nat) (l : List KeyValue) : List KeyValue :=
  l.filter fun kv => ihash kv.key % nreduce.toUInt32 = r.toUInt32

theorem writePartition_some (h : nreduce.toUInt32 ≠ 0 ∨ res = []) :
    writePartition json nreduce r res = some ((partition nreduce r res).flatMap json.encode) := by
  cases h
  case inr h => simp [h, writePartition, partition]
  case inl h =>
    have go out : res.foldlM (fun out kv =>
        if nreduce.toUInt32 = 0 then none
        else if ihash kv.key % nreduce.toUInt32 = r.toUInt32 then some (out ++ json.encode kv)
        else some out) out = some (out ++ (partition nreduce r res).flatMap json.encode) := by
      induction res generalizing out
      case nil => simp [partition]
      case cons kv res hi =>
        rw [List.foldlM_cons, if_neg h]
        by_cases hk : ihash kv.key % nreduce.toUInt32 = r.toUInt32
        case pos => simp [hk, hi, partition]
        case neg => simp [hk, hi, partition]
    exact go []

theorem writePartition_none (h : nreduce.toUInt32 = 0) (hr : res ≠ []) : writePartition json nreduce r res = none := by
  cases res
  case nil  => exact absurd rfl hr
  case cons => simp [writePartition, h]

-- Files with the given names and contents are written, and nothing else.
structure Writes (names : Nat → String) (contents : Nat → Bytes) (n : Nat) (fs fs' : Files) : Prop where
  written : ∀ r < n, fs' (names r) = some (contents r)
  other   : ∀ name, (∀ r < n, name ≠ names r) → fs' name = fs name

-- A loop that creates one file in every round.
theorem Writes.loop {names : Nat → String} {contents : Nat → Bytes} {step : Files → Nat → Option Files}
    (hn : ∀ r r', names r = names r' → r = r')
    (hs : ∀ r < n, ∀ fs', Writes names contents r fs fs' →
      step fs' r = some (Function.update fs' (names r) (some (contents r)))) :
    ∃ fs', (List.range n).foldlM step fs = some fs' ∧ Writes names contents n fs fs' := by
  induction n
  case zero => exact ⟨fs, rfl, nofun, fun _ _ => rfl⟩
  case succ n hi =>
    have ⟨fs', hf, hw⟩ := hi fun r hr => hs r <| Nat.lt_succ_of_lt hr
    refine ⟨Function.update fs' (names n) (some (contents n)), ?_, fun r hr => ?_, fun name h => ?_⟩
    · simp [List.range_succ, List.foldlM_append, hf, hs n (Nat.lt_succ_self n) fs' hw]
    · by_cases he : r = n
      case pos => rw [he, Function.update_self]
      case neg =>
        rw [Function.update_of_ne <| fun h => he <| hn r n h]
        exact hw.written r <| by omega
    · rw [Function.update_of_ne <| h n <| Nat.lt_succ_self n]
      exact hw.other name fun r hr => h r <| Nat.lt_succ_of_lt hr

-- A loop that reads one file in every round.
theorem foldlM_readAll {names : Nat → String} {parts : Nat → List KeyValue} {g : σ → KeyValue → σ} {a : σ}
    (h : ∀ i < n, fs (names i) = some ((parts i).flatMap json.encode)) :
    (List.range n).foldlM (fun a i => do
      let b ← fs (names i)
      return (readAll json b).foldl g a) a = some (((List.range n).flatMap parts).foldl g a) := by
  induction n
  case zero => rfl
  case succ n hi =>
    have hi := hi fun i hn => h i <| Nat.lt_succ_of_lt hn
    simp only [List.range_succ, List.foldlM_append, hi, List.flatMap_append, List.foldl_append]
    simp [h n, readAll_encode]

section Map

theorem doMap_some (json : Json) (f : String) (hb : fs (mapName f i) = some b)
    (h : nreduce.toUInt32 ≠ 0 ∨ Map (readOnce b n) = []) : ∃ fs', doMap json Map i f nreduce n fs = some fs' ∧
      Writes (reduceName f i) (fun r => (partition nreduce r <| Map <| readOnce b n).flatMap json.encode) nreduce fs fs' := by
  simp only [doMap, hb, Option.bind_eq_bind, Option.bind_some]
  exact Writes.loop (fun _ _ h => (reduceName_inj h).right) fun r _ fs' _ => by simp [writePartition_some h]

theorem doMap_none (hb : fs (mapName f i) = some b) (h : nreduce.toUInt32 = 0) (hn : 0 < nreduce)
    (hm : Map (readOnce b n) ≠ []) : doMap json Map i f nreduce n fs = none := by
  cases nreduce
  case zero   => cases hn
  case succ n => simp [doMap, hb, List.range_succ_eq_map, writePartition_none h hm]

variable {split : Nat → Bytes} {counts : Nat → Nat}

-- The files after the map jobs, which have called `Map` on `got`.
structure Mapped (json : Json) (Map : Bytes → List KeyValue) (got : Nat → Bytes) (f : String) (nreduce n : Nat)
    (fs fs' : Files) : Prop where
  written : ∀ i < n, ∀ r < nreduce,
    fs' (reduceName f i r) = some ((partition nreduce r (Map (got i))).flatMap json.encode)
  other   : ∀ name, (∀ i r, name ≠ reduceName f i r) → fs' name = fs name

theorem maps_some (json : Json) (nreduce : Nat) (hs : ∀ i < n, fs (mapName f i) = some (split i))
    (h : nreduce.toUInt32 ≠ 0 ∨ ∀ i < n, Map (readOnce (split i) (counts i)) = []) :
    ∃ fs', (List.range n).foldlM (fun fs i => doMap json Map i f nreduce (counts i) fs) fs = some fs' ∧
      Mapped json Map (fun i => readOnce (split i) (counts i)) f nreduce n fs fs' := by
  induction n
  case zero => exact ⟨fs, rfl, nofun, fun _ _ => rfl⟩
  case succ n hi =>
    have ⟨fs', hf, hw⟩ := hi (fun i hn => hs i <| Nat.lt_succ_of_lt hn) <|
      h.imp_right fun h i hn => h i <| Nat.lt_succ_of_lt hn
    have hb : fs' (mapName f n) = some (split n) :=
      (hw.other _ fun _ _ => mapName_ne_reduceName).trans <| hs n n.lt_succ_self
    have ⟨fs'', hf', hw'⟩ := doMap_some json f hb <| h.imp_right fun h => h n n.lt_succ_self
    refine ⟨fs'', by simp [List.range_succ, List.foldlM_append, hf, hf'], fun i hn r hr => ?_, fun name h => ?_⟩
    · by_cases he : i = n
      case pos => exact he ▸ hw'.written r hr
      case neg =>
        rw [hw'.other _ fun r' _ h => he (reduceName_inj h).left]
        exact hw.written i (by omega) r hr
    · rw [hw'.other name fun r _ => h n r]
      exact hw.other name h

theorem maps_none (json : Json) (hs : ∀ i < n, fs (mapName f i) = some (split i)) (h : nreduce.toUInt32 = 0) (hn : 0 < nreduce)
    (hm : ∃ i < n, Map (readOnce (split i) (counts i)) ≠ []) :
    (List.range n).foldlM (fun fs i => doMap json Map i f nreduce (counts i) fs) fs = none := by
  induction n
  case zero => have ⟨_, hi, _⟩ := hm; cases hi
  case succ n hi =>
    have hs' : ∀ i < n, fs (mapName f i) = some (split i) := fun i hn => hs i <| Nat.lt_succ_of_lt hn
    rw [List.range_succ, List.foldlM_append]
    by_cases hm' : ∃ i < n, Map (readOnce (split i) (counts i)) ≠ []
    case pos => simp [hi hs' hm']
    case neg =>
      -- The last job is the first one that emits something.
      have hm' : ∀ i < n, Map (readOnce (split i) (counts i)) = [] := by
        simpa only [not_exists, not_and, not_not] using hm'
      have ⟨fs', hf, hw⟩ := maps_some json nreduce hs' <| .inr hm'
      have hb : fs' (mapName f n) = some (split n) :=
        (hw.other _ fun _ _ => mapName_ne_reduceName).trans <| hs n n.lt_succ_self
      have ⟨i, hi, hm⟩ := hm
      have he : i = n := by
        by_contra he
        exact hm <| hm' i <| by omega
      simp [hf, doMap_none hb h hn (he ▸ hm)]

end Map

-- What the program computes: every key once, in the order of the bytes, with the reduction of all its
-- values in the order in which they were emitted.
def reference (Reduce : String → List String → String) (l : List KeyValue) : List KeyValue :=
  (sortStrings (l.map (·.key)).dedup).map fun k => ⟨k, Reduce k <| Grouping.values (·.key) (·.value) k l⟩

theorem bytes_injective : bytes.Injective :=
  fun _ _ h => String.toByteArray_inj.mp <| ByteArray.ext <| Array.toList_inj.mp h

theorem sortStrings_dedup {υ : Type} {m : AList fun _ : String => υ} {ks : List String} (h : ∀ k, k ∈ m ↔ k ∈ ks) :
    sortStrings m.keys = sortStrings ks.dedup :=
  Grouping.sortBy_congr bytes_injective m.keys_nodup ks.nodup_dedup fun k => by rw [List.mem_dedup, ← h, AList.mem_keys]

theorem mem_reference {k : String} {l : List KeyValue} :
    k ∈ (reference Reduce l).map (·.key) ↔ k ∈ l.map (·.key) := by
  simp [reference, sortStrings, Grouping.mem_sortBy]

theorem value_reference {kv : KeyValue} {l : List KeyValue} (h : kv ∈ reference Reduce l) :
    kv.value = Reduce kv.key (Grouping.values (·.key) (·.value) kv.key l) := by
  have ⟨k, _, hk⟩ := List.mem_map.mp h
  rw [← hk]

theorem pairwise_reference {l : List KeyValue} :
    ((reference Reduce l).map (·.key)).Pairwise (bytes · < bytes ·) := by
  have hk : (reference Reduce l).map (·.key) = sortStrings (l.map (·.key)).dedup := by
    simp [reference, Function.comp_def]
  exact hk ▸ Grouping.pairwise_sortBy bytes_injective (List.nodup_dedup _)

theorem doReduce_some {parts : Nat → List KeyValue}
    (h : ∀ i < n, fs (reduceName f i r) = some ((parts i).flatMap json.encode)) :
    doReduce json Reduce r f n fs = some (Function.update fs (mergeName f r)
      (some ((reference Reduce <| (List.range n).flatMap parts).flatMap json.encode))) := by
  have hk k : k ∈ ((List.range n).flatMap parts).foldl pushBack ∅ ↔ k ∈ ((List.range n).flatMap parts).map (·.key) :=
    Grouping.mem_foldl_insert.trans <| or_iff_right <| AList.notMem_empty k
  have hl k : ((((List.range n).flatMap parts).foldl pushBack ∅).lookup k).getD [] =
      Grouping.values (·.key) (·.value) k ((List.range n).flatMap parts) :=
    Grouping.lookup_foldl_push
  rw [doReduce, foldlM_readAll h]
  simp [sortStrings_dedup hk, hl, reference, List.flatMap_map]

theorem merge_some {mr : MapReduce} {parts : Nat → List KeyValue} (F : String → String)
    (h : ∀ r < mr.nReduce, fs (mergeName mr.file r) = some ((parts r).flatMap json.encode))
    (hF : ∀ kv ∈ (List.range mr.nReduce).flatMap parts, kv.value = F kv.key) :
    merge json mr fs = some (Function.update fs (outputName mr.file) (some
      ((sortStrings (((List.range mr.nReduce).flatMap parts).map (·.key)).dedup).flatMap fun k => line ⟨k, F k⟩))) := by
  obtain ⟨kvs, hkvs⟩ : ∃ kvs, kvs = ((List.range mr.nReduce).flatMap parts).foldl
    (fun (kvs : AList fun _ : String => String) kv => kvs.insert kv.key kv.value) ∅ := ⟨_, rfl⟩
  have hk k : k ∈ kvs ↔ k ∈ ((List.range mr.nReduce).flatMap parts).map (·.key) := by
    rw [hkvs]
    exact Grouping.mem_foldl_insert.trans <| or_iff_right <| AList.notMem_empty k
  have hl : ∀ k ∈ sortStrings kvs.keys, (kvs.lookup k).getD "" = F k := by
    intro k hm
    have hm := (hk k).mp <| AList.mem_keys.mpr <| Grouping.mem_sortBy.mp hm
    rw [hkvs, Grouping.lookup_foldl_insert hF (fun h => absurd h <| AList.notMem_empty k) (.inr hm), Option.getD_some]
  rw [merge, foldlM_readAll h, ← hkvs]
  simp only [Option.bind_eq_bind, Option.bind_some, ← sortStrings_dedup hk]
  congr 3
  exact List.flatMap_congr fun k hm => by rw [hl k hm]

section Run

variable {mr : MapReduce} {split : Nat → Bytes} {counts : Nat → Nat} {l : List KeyValue}

-- What the map calls emit, ordered by split and then by emission.
def emitted (Map : Bytes → List KeyValue) (split : Nat → Bytes) (n : Nat) : List KeyValue :=
  (List.range n).flatMap fun i => Map (split i)

-- Every key is in one partition, with all its records.
theorem exists_partition {kv : KeyValue} (h : nreduce.toUInt32 ≠ 0) (hm : kv ∈ l) :
    ∃ r < nreduce, kv ∈ partition nreduce r l := by
  have h₀ : 0 < nreduce.toUInt32.toNat := Nat.pos_of_ne_zero fun h₀ => h <| UInt32.toNat_inj.mp h₀
  have hl : (ihash kv.key % nreduce.toUInt32).toNat < nreduce.toUInt32.toNat := by
    rw [UInt32.toNat_mod]
    exact Nat.mod_lt _ h₀
  have hr : nreduce.toUInt32.toNat ≤ nreduce := by
    rw [Nat.toUInt32_eq, UInt32.toNat_ofNat']
    exact Nat.mod_le ..
  refine ⟨(ihash kv.key % nreduce.toUInt32).toNat, hl.trans_le hr, List.mem_filter.mpr ⟨hm, decide_eq_true ?_⟩⟩
  exact UInt32.ofNat_toNat.symm

theorem values_partition {k : String} (h : k ∈ (partition nreduce r l).map (·.key)) :
    Grouping.values (·.key) (·.value) k (partition nreduce r l) = Grouping.values KeyValue.key KeyValue.value k l := by
  have ⟨kv, hm, hk⟩ := List.mem_map.mp h
  have ⟨_, hp⟩ := List.mem_filter.mp hm
  exact Grouping.values_filter fun kv' he => by simpa [he, ← hk] using hp

theorem mem_partitions {k : String} (h : nreduce.toUInt32 ≠ 0 ∨ l = []) :
    k ∈ ((List.range nreduce).flatMap fun r => reference Reduce <| partition nreduce r l).map (·.key) ↔
    k ∈ l.map (·.key) := by
  constructor
  case mp =>
    intro hk
    have ⟨kv, hm, hk⟩ := List.mem_map.mp hk
    have ⟨r, _, hm⟩ := List.mem_flatMap.mp hm
    have ⟨kv', hm', hk'⟩ := List.mem_map.mp <| mem_reference.mp <| List.mem_map_of_mem hm
    exact List.mem_map.mpr ⟨kv', List.mem_of_mem_filter hm', hk'.trans hk⟩
  case mpr =>
    intro hk
    have ⟨kv, hm, hk⟩ := List.mem_map.mp hk
    have h := h.resolve_right fun hl => by simp [hl] at hm
    have ⟨r, hr, hp⟩ := exists_partition h hm
    have hf : kv.key ∈ (reference Reduce <| partition nreduce r l).map (·.key) :=
      mem_reference.mpr <| List.mem_map_of_mem hp
    have ⟨kv', hm', hk'⟩ := List.mem_map.mp hf
    exact List.mem_map.mpr ⟨kv', List.mem_flatMap.mpr ⟨r, List.mem_range.mpr hr, hm'⟩, hk'.trans hk⟩

theorem toUInt32_eq_zero : nreduce.toUInt32 = 0 ↔ 2 ^ 32 ∣ nreduce := by
  rw [Nat.dvd_iff_mod_eq_zero, ← UInt32.toNat_inj, Nat.toUInt32_eq, UInt32.toNat_ofNat']
  rfl

theorem partition_emitted : (List.range n).flatMap (fun i => partition nreduce r (Map (split i))) =
    partition nreduce r (emitted Map split n) :=
  List.filter_flatMap.symm

theorem emitted_eq_nil : emitted Map split n = [] ↔ ∀ i < n, Map (split i) = [] := by
  simp [emitted]

theorem reduces_some (Reduce : String → List String → String) (hw : ∀ i < mr.nMap, ∀ r < mr.nReduce,
      fs (reduceName mr.file i r) = some ((partition mr.nReduce r (Map (split i))).flatMap json.encode)) :
    ∃ fs', (List.range mr.nReduce).foldlM (fun fs r => doReduce json Reduce r mr.file mr.nMap fs) fs = some fs' ∧
      ∀ r < mr.nReduce, fs' (mergeName mr.file r) =
        some ((reference Reduce <| partition mr.nReduce r (emitted Map split mr.nMap)).flatMap json.encode) := by
  have hs : ∀ r < mr.nReduce, ∀ fs', Writes (mergeName mr.file)
      (fun r => (reference Reduce <| partition mr.nReduce r (emitted Map split mr.nMap)).flatMap json.encode) r fs fs' →
      doReduce json Reduce r mr.file mr.nMap fs' = some (Function.update fs' (mergeName mr.file r)
        (some ((reference Reduce <| partition mr.nReduce r (emitted Map split mr.nMap)).flatMap json.encode))) := by
    intro r hr fs' hw'
    rw [← partition_emitted]
    refine doReduce_some fun i hi => ?_
    rw [hw'.other _ fun _ _ h => mergeName_ne_reduceName h.symm]
    exact hw i hi r hr
  have ⟨fs', hf, hw'⟩ := Writes.loop (fun _ _ => mergeName_inj) hs
  exact ⟨fs', hf, hw'.written⟩

-- The text of the output for what the map calls emit.
def output (Reduce : String → List String → String) (l : List KeyValue) : Bytes :=
  (reference Reduce l).flatMap line

theorem runJobs_some (json : Json) (Reduce : String → List String → String)
    (hs : ∀ i < mr.nMap, fs (mapName mr.file i) = some (split i))
    (h : mr.nReduce.toUInt32 ≠ 0 ∨ emitted Map (fun i => readOnce (split i) (counts i)) mr.nMap = []) :
    ∃ fs', runJobs json Map Reduce mr counts fs = some fs' ∧
      fs' (outputName mr.file) = some (output Reduce <| emitted Map (fun i => readOnce (split i) (counts i)) mr.nMap) := by
  generalize hg : (fun i => readOnce (split i) (counts i)) = got at h ⊢
  have ⟨fs₁, h₁, hw⟩ := maps_some json mr.nReduce hs <| h.imp_right fun h i hi =>
    (congrArg Map <| congrFun hg i).trans <| emitted_eq_nil.mp h i hi
  rw [hg] at hw
  have ⟨fs₂, h₂, hr⟩ := reduces_some Reduce hw.written
  have hF : ∀ kv ∈ (List.range mr.nReduce).flatMap fun r => reference Reduce <| partition mr.nReduce r (emitted Map got mr.nMap),
      kv.value = Reduce kv.key (Grouping.values (·.key) (·.value) kv.key (emitted Map got mr.nMap)) := by
    intro kv hm
    have ⟨r, _, hm⟩ := List.mem_flatMap.mp hm
    rw [value_reference hm, values_partition <| mem_reference.mp <| List.mem_map_of_mem hm]
  have hm := merge_some (fun k => Reduce k <| Grouping.values (·.key) (·.value) k <| emitted Map got mr.nMap) hr hF
  refine ⟨_, by simp only [runJobs, h₁, h₂, Option.bind_eq_bind, Option.bind_some, hm]; rfl, ?_⟩
  rw [Function.update_self, output, reference, List.flatMap_map]
  congr 2
  exact Grouping.sortBy_congr bytes_injective (List.nodup_dedup _) (List.nodup_dedup _) fun k => by
    rw [List.mem_dedup, List.mem_dedup, mem_partitions h]

-- The jobs compute the reference result, unless the number of partitions is 0 as a `uint32` and there is something to
-- partition, or the zero bytes that stand for what has not been read make a difference.
theorem runJobs_iff (hn : 1 ≤ mr.nReduce) (hs : ∀ i < mr.nMap, fs (mapName mr.file i) = some (split i)) :
    (∃ fs', runJobs json Map Reduce mr counts fs = some fs' ∧
      fs' (outputName mr.file) = some (output Reduce <| emitted Map split mr.nMap)) ↔
    (¬2 ^ 32 ∣ mr.nReduce ∨ emitted Map (fun i => readOnce (split i) (counts i)) mr.nMap = []) ∧
      output Reduce (emitted Map (fun i => readOnce (split i) (counts i)) mr.nMap) =
        output Reduce (emitted Map split mr.nMap) := by
  rw [← toUInt32_eq_zero]
  constructor
  case mp =>
    intro ⟨fs', h, ho⟩
    have hc : mr.nReduce.toUInt32 ≠ 0 ∨ emitted Map (fun i => readOnce (split i) (counts i)) mr.nMap = [] := by
      by_contra hc
      have ⟨h₀, he⟩ := not_or.mp hc
      have hm : ∃ i < mr.nMap, Map (readOnce (split i) (counts i)) ≠ [] := by
        by_contra hm
        exact he <| emitted_eq_nil.mpr <| by simpa only [not_exists, not_and, not_not] using hm
      simp [runJobs, maps_none json hs (not_not.mp h₀) hn hm] at h
    have ⟨fs'', h', ho'⟩ := runJobs_some json Reduce hs hc
    cases h.symm.trans h'
    exact ⟨hc, Option.some.inj <| ho'.symm.trans ho⟩
  case mpr =>
    intro ⟨hc, he⟩
    rw [← he]
    exact runJobs_some json Reduce hs hc

end Run

-- A codec that escapes quotation marks and backslashes only.
section Quoted

def escape (b : Bytes) : Bytes :=
  b.flatMap fun c => if c = 34 ∨ c = 92 then [92, c] else [c]

-- The string before the closing quotation mark.
def unescape : Bytes → Option (Bytes × Bytes)
  | []           => none
  | 92 :: c :: b => (unescape b).map fun (s, b) => (c :: s, b)
  | c :: b       => if c = 34 then some ([], b) else (unescape b).map fun (s, b) => (c :: s, b)

theorem unescape_escape (b rest : Bytes) : unescape (escape b ++ 34 :: rest) = some (b, rest) := by
  induction b
  case nil => rfl
  case cons c b hi =>
    rw [escape, List.flatMap_cons, ← escape]
    by_cases h : c = 34 ∨ c = 92
    case pos => simp [h, unescape, hi]
    case neg =>
      have ⟨h₁, h₂⟩ := not_or.mp h
      simp [h₁, h₂, unescape, hi]

def expect (p b : Bytes) : Option Bytes :=
  if p <+: b then some (b.drop p.length) else none

theorem expect_append (p b : Bytes) : expect p (p ++ b) = some b := by
  simp [expect]

def Json.quoted : Json where
  encode kv :=
    bytes "\x7b\"Key\":\"" ++ escape (bytes kv.key) ++ 34 :: bytes ",\"Value\":\"" ++ escape (bytes kv.value) ++
      34 :: bytes "\x7d\n"
  decode b := do
    let b ← expect (bytes "\x7b\"Key\":\"") b
    let (key, b) ← unescape b
    let b ← expect (bytes ",\"Value\":\"") b
    let (value, b) ← unescape b
    let b ← expect (bytes "\x7d\n") b
    return (⟨← String.fromUTF8? ⟨key.toArray⟩, ← String.fromUTF8? ⟨value.toArray⟩⟩, b)
  decode_nil := by decide +kernel
  decode_encode kv rest := by
    have hu s : String.fromUTF8? ⟨(bytes s).toArray⟩ = some s := by
      simp [String.fromUTF8?, bytes, s.isValidUTF8, String.fromUTF8]
    simp only [List.append_assoc, List.cons_append, expect_append, Option.bind_eq_bind, Option.bind_some,
      unescape_escape, hu]
    rfl

end Quoted

-- Counting the letters of two splits.
def letters (b : Bytes) : List KeyValue :=
  b.map fun c => ⟨String.singleton <| Char.ofNat c.toNat, "1"⟩

def count (_ : String) (vs : List String) : String :=
  toString vs.length

def splits (i : Nat) : Bytes :=
  if i = 0 then [98, 97] else [97]

def splitFiles (name : String) : Option Bytes :=
  if name = mapName "f" 0 then some (splits 0) else if name = mapName "f" 1 then some (splits 1) else none

-- Every call reads a whole split.
def whole (_ : Nat) : Nat :=
  2

theorem runJobs_letters :
    ∃ fs', runJobs .quoted letters count ⟨2, 3, "f"⟩ whole splitFiles = some fs' ∧
      fs' "mrtmp.f" = some (bytes "a: 2\nb: 1\n") := by
  have h : ∃ fs', runJobs .quoted letters count ⟨2, 3, "f"⟩ whole splitFiles = some fs' ∧
      fs' (outputName "f") = some (output count <| emitted letters splits 2) :=
    (runJobs_iff (by decide) (by decide +kernel)).mpr ⟨.inl <| by decide, rfl⟩
  have ⟨fs', hr, ho⟩ := h
  exact ⟨fs', hr, ho.trans <| congrArg some <| by decide +kernel⟩

-- With 2 ^ 32 partitions, the first letter that is emitted leads to a division by zero.
theorem not_runJobs :
    (∀ i < 2, splitFiles (mapName "f" i) = some (splits i)) ∧
    ¬∃ fs', runJobs .quoted letters count ⟨2, 2 ^ 32, "f"⟩ whole splitFiles = some fs' ∧
      fs' (outputName "f") = some (output count <| emitted letters splits 2) := by
  have hs : ∀ i < 2, splitFiles (mapName "f" i) = some (splits i) := by decide +kernel
  refine ⟨hs, fun ⟨fs', h, _⟩ => ?_⟩
  have hl : ∃ i < 2, letters (readOnce (splits i) (whole i)) ≠ [] := ⟨0, by decide, by decide⟩
  have hm := maps_none .quoted hs (toUInt32_eq_zero.mpr <| Nat.dvd_refl (2 ^ 32)) (by decide) hl
  rw [runJobs, hm] at h
  cases h

end MapReduce
