import LabSystems.Diskv.Theorems.Calls

namespace Diskv.DisKV

open Crash Files

variable {kv : DisKV} {shard : Int} {key content n : Bytes} {v : Store} {d : Directory} {s : Disk} {F : Fate → Prop}

theorem Opened.names (h : kv.Opened v shard d s) : s.names (kv.path shard) = .ok (d.keys, s) := by
  obtain ⟨D, hd, hs, _⟩ := h
  rw [Disk.names, hd.shard, hs]

-- The names in a shard's directory.
structure Listed (v : Store) (shard : Int) (ns : List Bytes) : Prop where
  named : ∀ n ∈ ns, ∃ key, n = keyName key ∨ n = tempName key
  mem   : ∀ key, keyName key ∈ ns ↔ (v shard key).isSome

theorem Opened.listed (h : kv.Opened v shard d s) (hp : ns.Perm d.keys) : Listed v shard ns where
  named n hn := h.keeps.named n <| hp.mem_iff.mp hn
  mem key := by rw [hp.mem_iff, ← AList.mem_keys, ← AList.lookup_isSome, h.keeps.lookup]

theorem ensures_readDir : Ensures F (kv.Opened v shard d) (readDir (kv.dirName shard))
    (fun r s => Either (fun ns => Listed v shard ns ∧ kv.Holds v s) (fun _ => F .fails ∧ kv.Holds v s) r)
      fun s => Faulty F ∧ kv.Holds v s := by
  refine .bind (Ensures.call_ok (A := fun ns s => ns = d.keys ∧ kv.Opened v shard d s)
    (B := fun _ s => F .fails ∧ kv.Holds v s) (N := fun s => (d.keys, s))
    (fun s h => ⟨by rw [components_dirName, h.names], rfl, h⟩) (fun hf s h => ⟨hf, h.holds⟩)
    fun hf s h => ⟨⟨hf, h.holds⟩, hf, h.holds⟩) fun r => ?_
  cases r with
  | error => exact .pure fun s h => h
  | ok    => exact .pure fun s h => ⟨h.right.listed <| h.left ▸ List.mergeSort_perm .., h.right.holds⟩

-- The contents of the names that have been read.
def Read (v : Store) (shard : Int) (ns : List Bytes) (m : Shard) : Prop :=
  ∀ key, (keyName key ∈ ns → m.lookup key = v shard key) ∧ (keyName key ∉ ns → m.lookup key = none)

theorem Read.insert {m : Shard} (h : Read v shard ns m) (hv : v shard key = some content) :
    Read v shard (ns ++ [keyName key]) (m.insert key content) := by
  intro key'
  by_cases hk : key' = key
  case pos =>
    subst hk
    simp [hv]
  case neg =>
    have hn : keyName key' ≠ keyName key := mt keyName_inj.mp hk
    simpa [AList.lookup_insert_ne hk, hn] using h key'

theorem Read.skip {m : Shard} (h : Read v shard ns m) : Read v shard (ns ++ [tempName key]) m := by
  intro key'
  simpa [keyName_ne_tempName] using h key'

theorem ensures_readName (hn : n = keyName key ∧ (v shard key).isSome ∨ n = tempName key) {m : Shard} :
    Ensures F (fun s => Read v shard ns m ∧ kv.Holds v s) (kv.readName shard m n)
      (fun m s => Read v shard (ns ++ [n]) m ∧ kv.Holds v s) fun s => Faulty F ∧ kv.Holds v s := by
  have hk : Bytes.ofString "key-" = [107, 101, 121, 45] := by decide
  have ht : Bytes.ofString "temp-" = [116, 101, 109, 112, 45] := by decide
  rcases hn with ⟨rfl, hv⟩ | rfl
  case inr =>
    have hl : ¬(tempName key).length < 4 := by
      rw [tempName, List.length_append, ht, List.length_cons]
      simp only [List.length_cons]
      omega
    have hne : (tempName key).take 4 ≠ Bytes.ofString "key-" := by
      rw [tempName, ht, hk]
      simp
    rw [readName, if_neg hl, if_neg hne]
    exact .pure fun s h => ⟨h.left.skip, h.right⟩
  case inl =>
    have hl : ¬(keyName key).length < 4 := by
      rw [keyName, List.length_append, hk]
      simp
    have he : (keyName key).take 4 = Bytes.ofString "key-" := by
      rw [keyName, hk]
      simp
    have hd : decodeKey ((keyName key).drop 4) = some key := by
      rw [keyName, hk]
      exact Base32.decodeString_encodeToString
    rw [readName, if_neg hl, if_pos he, hd]
    refine .of_and fun hr => ?_
    refine .bind ensures_fileGet fun r => ?_
    obtain ⟨content, err⟩ := r
    cases err with
    | none   => exact .pure fun s h => ⟨hr.insert <| h.left rfl, h.right.right⟩
    | some e =>
      refine .halt fun s h => ⟨.inl <| (h.right.left (by simp)).resolve_left fun hn => ?_, h.right.right⟩
      rw [hn] at hv
      cases hv

-- What is read is what the shard holds.
theorem ensures_fileReadShard : Ensures F (kv.Holds v) (kv.fileReadShard shard)
    (fun m s => (∀ key, m.lookup key = v shard key) ∧ kv.Holds v s) fun s => Faulty F ∧ kv.Holds v s := by
  refine ensures_in_shardDir (fun d => ?_) fun s hf h => ⟨hf, h⟩
  refine .bind ensures_readDir fun r => ?_
  cases r with
  | error    => exact .halt fun s h => ⟨.inl h.left, h.right⟩
  | ok files =>
    refine .of_and fun hl => ?_
    have hr : Read v shard [] ∅ := fun key => by simp
    refine (Ensures.foldlM (I := fun ns m s => Read v shard ns m ∧ kv.Holds v s) fun ns n ns' hns m => ?_).weaken
      (fun s h => ⟨hr, h⟩) (fun m s h => ⟨fun key => ?_, h.right⟩) fun _ h => h
    case refine_1 =>
      have hm : n ∈ files := by simp [hns]
      obtain ⟨key, rfl | rfl⟩ := hl.named n hm
      case inl => exact ensures_readName (.inl ⟨rfl, (hl.mem key).mp hm⟩)
      case inr => exact ensures_readName (.inr rfl)
    case refine_2 =>
      by_cases hn : keyName key ∈ files
      case pos => exact (h.left key).left hn
      case neg => rw [(h.left key).right hn, Option.not_isSome_iff_eq_none.mp <| mt (hl.mem key).mpr hn]

-- The shard `shard` has become `u`.
def HoldsWith (kv : DisKV) (v : Store) (shard : Int) (u : Bytes → Option Bytes) (s : Disk) : Prop :=
  kv.Holds (Function.update v shard u) s

-- Of what a shard held some is left.
def Left (v : Store) (shard : Int) (u : Bytes → Option Bytes) : Prop :=
  ∀ key, u key = none ∨ u key = v shard key

-- The names `ns` have been gone through, and are not in the directory any more unless a call has failed.
def Removing (kv : DisKV) (v : Store) (shard : Int) (d : Directory) (F : Fate → Prop) (ns : List Bytes) (s : Disk) :
    Prop :=
  ∃ d' u, kv.Opened (Function.update v shard u) shard d' s ∧ Left v shard u ∧ (∀ n ∈ d', n ∈ d) ∧
    (¬F .fails → ∀ n ∈ ns, n ∉ d')

theorem Opened.unlink (h : kv.Opened v shard d s) : s.unlink (kv.path shard ++ [n]) =
    if n ∈ d then .ok ((), s.setDir (kv.path shard) (d.erase n)) else .error .notExist := by
  obtain ⟨D, hd, hs, _⟩ := h
  rw [Disk.unlink, hd.dir, hs, List.dropLast_concat, List.getLastD_concat]

theorem Removing.fails (h : kv.Removing v shard d F ns s) (hf : F .fails) : kv.Removing v shard d F (ns ++ [n]) s := by
  obtain ⟨d', u, ho, hl, hs, _⟩ := h
  exact ⟨d', u, ho, hl, hs, fun hn => absurd hf hn⟩

theorem Removing.unlink (h : kv.Removing v shard d F ns s) :
    kv.Removing v shard d F (ns ++ [n]) (Program.done (·.unlink (kv.path shard ++ [n])) s).snd := by
  obtain ⟨d', u, ho, hl, hs, hn⟩ := h
  rw [Program.done, ho.unlink]
  split
  case h_1 s' hd =>
    split at hd
    case isFalse => cases hd
    case isTrue =>
      cases hd
      refine ⟨d'.erase n, fun key => if keyName key = n then none else u key, ?_, fun key => ?_, fun m hm => ?_, ?_⟩
      case refine_1 =>
        have hk := ho.keeps.unlink n
        have h := ho.set hk
        rwa [Function.update_idem, Function.update_self] at h
      case refine_2 =>
        by_cases hk : keyName key = n
        case pos => exact .inl <| if_pos hk
        case neg => exact (hl key).imp (if_neg hk).trans (if_neg hk).trans
      case refine_3 => exact hs m (AList.mem_erase.mp hm).right
      case refine_4 =>
        intro hf m hm hm'
        obtain ⟨hne, hm'⟩ := AList.mem_erase.mp hm'
        rcases List.mem_append.mp hm with hm | hm
        case inl => exact hn hf m hm hm'
        case inr => exact hne <| List.mem_singleton.mp hm
  case h_2 e hd =>
    split at hd
    case isTrue => cases hd
    case isFalse hm =>
      refine ⟨d', u, ho, hl, hs, fun hf m hm' => ?_⟩
      rcases List.mem_append.mp hm' with hm' | hm'
      case inl => exact hn hf m hm'
      case inr => exact List.mem_singleton.mp hm' ▸ hm

theorem Removing.left (h : kv.Removing v shard d F ns s) : ∃ u, Left v shard u ∧ kv.HoldsWith v shard u s := by
  obtain ⟨d', u, ho, hl, _⟩ := h
  exact ⟨u, hl, ho.holds⟩

theorem ensures_unlink_all : Ensures F (kv.Removing v shard d F [])
    (ns.foldlM (fun err name => do
      let err₁ ← call (·.unlink <| components (kv.dirName shard) ++ [name])
      return err <|> errorOf err₁) (none : Option Error))
    (fun _ => kv.Removing v shard d F ns) fun s => Faulty F ∧ ∃ u, Left v shard u ∧ kv.HoldsWith v shard u s := by
  refine Ensures.foldlM (I := fun ns _ => kv.Removing v shard d F ns) fun ns n _ _ err => ?_
  rw [components_dirName]
  refine .bind (Q := fun _ => kv.Removing v shard d F (ns ++ [n])) (.call (fun s h => h.unlink) (fun hf s h => h.fails hf)
    fun hf s h => ⟨⟨hf, h.unlink.left⟩, hf, h.left⟩) fun _ => ?_
  exact .pure fun s h => h

theorem Opened.rmdir (h : kv.Opened v shard d s) : s.rmdir (kv.path shard) =
    if d.keys = [] then .ok ((), ⟨s.dirs.erase (kv.path shard)⟩) else .error .notEmpty := by
  obtain ⟨D, hd, hs, _⟩ := h
  rw [Disk.rmdir, hd.shard, hs]

theorem Opened.erase (h : kv.Opened v shard d s) :
    kv.HoldsWith v shard (fun _ => none) ⟨s.dirs.erase (kv.path shard)⟩ := by
  obtain ⟨D, hd', hs, hk⟩ := h
  refine ⟨_, hd'.erase, fun shard' => ?_⟩
  by_cases hs' : shard' = shard
  case pos => simpa [hs'] using Keeps.empty
  case neg => simpa [hs'] using hk shard'

theorem Removing.rmdir (h : kv.Removing v shard d F ns s) (hm : ¬F .fails → ∀ n ∈ d, n ∈ ns) :
    ∃ u, Left v shard u ∧ (¬F .fails → u = fun _ => none) ∧
      kv.HoldsWith v shard u (Program.done (·.rmdir (components (kv.dirName shard))) s).snd := by
  obtain ⟨d', u, ho, hl, hs, hn⟩ := h
  rw [components_dirName, Program.done, ho.rmdir]
  by_cases hk : d'.keys = []
  case pos =>
    have he := ho.erase
    rw [HoldsWith, Function.update_idem] at he
    rw [if_pos hk]
    exact ⟨fun _ => none, fun _ => .inl rfl, fun _ => rfl, he⟩
  case neg =>
    obtain ⟨n, hd⟩ := List.exists_mem_of_ne_nil _ hk
    rw [if_neg hk]
    exact ⟨u, hl, fun hf => absurd hd <| hn hf n <| hm hf n <| hs n hd, ho.holds⟩

-- If no call fails, then nothing is left. The order in which the files are removed makes no difference.
theorem ensures_removeAll (rank : Bytes → Nat) : Ensures F (kv.Opened v shard d) (removeAll rank (kv.dirName shard))
    (fun _ s => ∃ u, Left v shard u ∧ (¬F .fails → u = fun _ => none) ∧ kv.HoldsWith v shard u s)
    fun s => Faulty F ∧ ∃ u, Left v shard u ∧ kv.HoldsWith v shard u s := by
  have hl : Left v shard (v shard) := fun _ => .inr rfl
  have hw s (h : kv.Opened v shard d s) : kv.HoldsWith v shard (v shard) s := by
    rw [HoldsWith, Function.update_eq_self]
    exact h.holds
  have hr s (h : kv.Opened v shard d s) : kv.Removing v shard d F [] s :=
    ⟨d, v shard, by rwa [Function.update_eq_self], hl, fun _ h => h, by simp⟩
  refine .bind (Ensures.call_ok (A := fun ns s => ns = d.keys ∧ kv.Removing v shard d F [] s)
    (B := fun _ s => F .fails ∧ kv.Removing v shard d F [] s) (N := fun s => (d.keys, s))
    (fun s h => ⟨by rw [components_dirName, h.names], rfl, hr s h⟩) (fun hf s h => ⟨hf, hr s h⟩)
    fun hf s h => ⟨⟨hf, _, hl, hw s h⟩, hf, _, hl, hw s h⟩) fun r => ?_
  refine .weaken (P := fun s => (¬F .fails → ∀ n ∈ d, n ∈ ranked rank r) ∧ kv.Removing v shard d F [] s) ?_ (fun s h => ?_)
    (fun _ _ h => h) fun _ h => h
  case refine_2 =>
    cases r with
    | error => exact ⟨fun hf => absurd h.left hf, h.right⟩
    | ok    =>
      refine ⟨fun _ n hn => ?_, h.right⟩
      rw [h.left, ranked, List.mem_mergeSort]
      exact hn
  refine .of_and fun hm => .bind ensures_unlink_all fun err => ?_
  refine .bind (Q := fun _ s => ∃ u, Left v shard u ∧ (¬F .fails → u = fun _ => none) ∧ kv.HoldsWith v shard u s)
    (.call (fun s h => ?_) (fun hf s h => ?_) fun hf s h => ?_) fun r => ?_
  case refine_1 => exact h.rmdir hm
  case refine_2 =>
    obtain ⟨u, hl, h⟩ := h.left
    exact ⟨u, hl, fun hn => absurd hf hn, h⟩
  case refine_3 =>
    obtain ⟨u, hl, _, hu⟩ := h.rmdir hm
    exact ⟨⟨hf, u, hl, hu⟩, hf, h.left⟩
  case refine_4 =>
    cases r with
    | ok      => exact .pure fun s h => h
    | error e => cases e <;> exact .pure fun s h => h

-- A shard consists of what it held and of what it is replaced by.
def Mixed (v : Store) (shard : Int) (m : Shard) (u : Bytes → Option Bytes) : Prop :=
  ∀ key, u key = none ∨ u key = v shard key ∨ u key = m.lookup key

-- It is not a mixture of them.
def Unmixed (v : Store) (shard : Int) (m : Shard) (u : Bytes → Option Bytes) : Prop :=
  Left v shard u ∨ ∀ key, u key = none ∨ u key = m.lookup key

theorem put_update : Store.put (Function.update v shard u) shard key content =
    Function.update v shard (Function.update u key (some content)) := by
  rw [Store.put, Function.update_idem, Function.update_self]

abbrev Entry :=
  Sigma fun _ : Bytes => Bytes

section Replace

variable {m : Shard} {ys zs : List (Entry)} {u : Bytes → Option Bytes}

theorem dlookup_snoc (hm : m.entries = ys ++ (⟨key, content⟩ : Entry) :: zs) :
    (fun key' => (ys ++ [(⟨key, content⟩ : Entry)]).dlookup key') =
      Function.update (fun key' => ys.dlookup key') key (some content) := by
  have hn : key ∉ ys.keys := by
    have hnd := m.nodupKeys
    rw [List.NodupKeys, hm, List.keys, List.map_append, List.map_cons, List.nodup_middle, List.nodup_cons] at hnd
    exact fun hk => hnd.left <| List.mem_append_left _ hk
  funext key'
  rw [List.dlookup_append]
  by_cases hk : key' = key
  case pos =>
    rw [hk, Function.update_self, List.dlookup_eq_none.mpr hn, List.dlookup_cons_eq (β := fun _ => Bytes), Option.none_or]
  case neg =>
    rw [Function.update_of_ne hk, List.dlookup_cons_ne _ (⟨key, content⟩ : Entry) hk, List.dlookup_nil, Option.or_none]

theorem lookup_of_entries (hm : m.entries = ys ++ (⟨key, content⟩ : Entry) :: zs) : m.lookup key = some content :=
  List.mem_dlookup m.nodupKeys <| by simp [hm]

theorem dlookup_of_entries (hm : m.entries = ys ++ zs) (key : Bytes) :
    ys.dlookup key = none ∨ ys.dlookup key = m.lookup key := by
  cases hd : ys.dlookup key with
  | none   => exact .inl rfl
  | some c =>
    have hmem := List.of_mem_dlookup hd
    exact .inr (List.mem_dlookup m.nodupKeys <| by simp [hm, hmem]).symm

theorem Mixed.put (h : Mixed v shard m u) (hm : m.lookup key = some content) :
    Mixed v shard m (Function.update u key (some content)) := by
  intro key'
  by_cases hk : key' = key
  case pos =>
    rw [hk, Function.update_self, hm]
    exact .inr <| .inr rfl
  case neg => simpa [hk] using h key'

-- The entries `ys` have been put.
def Putting (kv : DisKV) (v : Store) (shard : Int) (m : Shard) (F : Fate → Prop)
    (ys : List (Entry)) (s : Disk) : Prop :=
  ∃ u, (Mixed v shard m u ∧ (¬F .fails → u = fun key => ys.dlookup key)) ∧ kv.HoldsWith v shard u s

theorem ensures_put_entry (hm : m.entries = ys ++ (⟨key, content⟩ : Entry) :: zs) : Ensures F (kv.Putting v shard m F ys)
    (kv.filePut shard key content >>= fun _ => (pure () : Program Disk Unit))
    (fun _ => kv.Putting v shard m F (ys ++ [(⟨key, content⟩ : Entry)]))
    fun s => Faulty F ∧ ∃ u, (Mixed v shard m u ∧ (¬F .fails → Unmixed v shard m u)) ∧ kv.HoldsWith v shard u s := by
  refine .of_exists fun u => .of_and fun hu => ?_
  obtain ⟨hx, hf⟩ := hu
  have hl := lookup_of_entries hm
  have hp : ¬F .fails → Function.update u key (some content) = fun key' => (ys ++ [(⟨key, content⟩ : Entry)]).dlookup key' :=
    fun hn => hf hn ▸ (dlookup_snoc hm).symm
  have hnew (zs : List (Entry)) {ys u} (hm : m.entries = ys ++ zs)
      (hu : ¬F .fails → u = fun key => ys.dlookup key) (hn : ¬F .fails) : Unmixed v shard m u :=
    .inr fun key' => hu hn ▸ dlookup_of_entries hm key'
  refine .bind (ensures_filePut.weaken (fun _ h => h) (fun _ _ h => h) fun s h => ⟨h.left, ?_⟩) fun err => ?_
  case refine_1 =>
    rcases h.right with h | h
    case inl => exact ⟨u, ⟨hx, hnew _ hm hf⟩, h⟩
    case inr =>
      rw [put_update] at h
      exact ⟨_, ⟨hx.put hl, hnew zs (by simp [hm]) hp⟩, h⟩
  case refine_2 =>
    refine .pure fun s h => ?_
    cases err with
    | none =>
      have h := h.left rfl
      rw [put_update] at h
      exact ⟨_, ⟨hx.put hl, hp⟩, h⟩
    | some e =>
      obtain ⟨hfail, h⟩ := h.right (by simp)
      exact ⟨u, ⟨hx, fun hn => absurd hfail hn⟩, h⟩

-- If no call fails, then the shard is replaced as a whole, or it is cut off on the way, with a part of what it held or
-- with a part of what it is replaced by.
theorem ensures_fileReplaceShard (rank : Bytes → Nat) : Ensures F (kv.Holds v) (kv.fileReplaceShard shard m rank)
    (fun _ s => ∃ u, (Mixed v shard m u ∧ (¬F .fails → u = fun key => m.lookup key)) ∧ kv.HoldsWith v shard u s)
    fun s => Faulty F ∧ ∃ u, (Mixed v shard m u ∧ (¬F .fails → Unmixed v shard m u)) ∧ kv.HoldsWith v shard u s := by
  have hold {u} (hl : Left v shard u) : Mixed v shard m u ∧ (¬F .fails → Unmixed v shard m u) :=
    ⟨fun key => (hl key).imp_right .inl, fun _ => .inl hl⟩
  refine ensures_in_shardDir (fun d => ?_) fun s hf h => ⟨hf, v shard, hold fun _ => .inr rfl, ?_⟩
  case refine_2 =>
    rw [HoldsWith, Function.update_eq_self]
    exact h
  case refine_1 =>
    refine .bind ((ensures_removeAll rank).weaken (fun _ h => h) (fun _ _ h => h) fun s h => ⟨h.left, ?_⟩) fun _ => ?_
    case refine_1 =>
      obtain ⟨u, hl, h⟩ := h.right
      exact ⟨u, hold hl, h⟩
    case refine_2 =>
      refine (Ensures.foldlM (I := fun ys _ => kv.Putting v shard m F ys) fun ys x zs hm _ => ?_).weaken
        (fun s h => ?_) (fun _ _ h => h) fun _ h => h
      case refine_1 => exact ensures_put_entry hm
      case refine_2 =>
        obtain ⟨u, hl, hn, h⟩ := h
        exact ⟨u, ⟨(hold hl).left, fun hf => by simp [hn hf]⟩, h⟩

end Replace

end Diskv.DisKV
