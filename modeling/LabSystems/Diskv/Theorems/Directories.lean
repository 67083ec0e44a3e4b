import Mathlib.Logic.Function.Basic
import LabSystems.Diskv.Server

namespace Diskv

open Crash Files

def keyName (key : Bytes) : Bytes :=
  Bytes.ofString "key-" ++ DisKV.encodeKey key

def tempName (key : Bytes) : Bytes :=
  Bytes.ofString "temp-" ++ DisKV.encodeKey key

theorem keyName_inj : keyName key = keyName key' ↔ key = key' :=
  ⟨fun h => Base32.encodeToString_inj <| List.append_cancel_left h, fun h => h ▸ rfl⟩

theorem keyName_ne_tempName : keyName key ≠ tempName key' := by
  intro h
  have hd := congrArg List.head? h
  rw [keyName, tempName, show Bytes.ofString "key-" = 107 :: Bytes.ofString "ey-" by decide,
    show Bytes.ofString "temp-" = 116 :: Bytes.ofString "emp-" by decide] at hd
  cases hd

theorem slash_not_mem_keyName : 47 ∉ keyName key := by
  rw [keyName, List.mem_append, not_or]
  exact ⟨by decide, Base32.slash_not_mem_encodeToString⟩

theorem slash_not_mem_tempName : 47 ∉ tempName key := by
  rw [tempName, List.mem_append, not_or]
  exact ⟨by decide, Base32.slash_not_mem_encodeToString⟩

-- The files of a shard whose keys have the contents `u`. Files that have not been renamed may be left over.
structure Keeps (u : Bytes → Option Bytes) (d : Directory) : Prop where
  lookup : ∀ key, d.lookup (keyName key) = u key
  named  : ∀ n ∈ d, ∃ key, n = keyName key ∨ n = tempName key

namespace Keeps

variable {u : Bytes → Option Bytes} {d : Directory}

theorem empty : Keeps (fun _ => none) ∅ where
  lookup _ := AList.lookup_empty _
  named n h := absurd h <| AList.notMem_empty n

theorem temp (h : Keeps u d) (key content : Bytes) : Keeps u (d.insert (tempName key) content) where
  lookup key' := by rw [AList.lookup_insert_ne keyName_ne_tempName, h.lookup]
  named n hn := by
    rcases AList.mem_insert _ |>.mp hn with rfl | hn
    case inl => exact ⟨key, .inr rfl⟩
    case inr => exact h.named n hn

theorem rename (h : Keeps u d) (key content : Bytes) :
    Keeps (Function.update u key (some content)) ((d.erase (tempName key)).insert (keyName key) content) where
  lookup key' := by
    by_cases hk : key' = key
    case pos => rw [hk, AList.lookup_insert, Function.update_self]
    case neg =>
      rw [AList.lookup_insert_ne <| mt keyName_inj.mp hk, AList.lookup_erase_ne keyName_ne_tempName, h.lookup,
        Function.update_of_ne hk]
  named n hn := by
    rcases AList.mem_insert _ |>.mp hn with rfl | hn
    case inl => exact ⟨key, .inl rfl⟩
    case inr => exact h.named n (AList.mem_erase.mp hn).right

theorem unlink (h : Keeps u d) (n : Bytes) : Keeps (fun key => if keyName key = n then none else u key) (d.erase n) where
  lookup key := by
    split
    case isTrue hk  => rw [hk, AList.lookup_erase]
    case isFalse hk => rw [AList.lookup_erase_ne hk, h.lookup]
  named m hm := h.named m (AList.mem_erase.mp hm).right

end Keeps

-- The contents of all shards.
abbrev Store :=
  Int → Bytes → Option Bytes

def Store.put (v : Store) (shard : Int) (key content : Bytes) : Store :=
  Function.update v shard <| Function.update (v shard) key <| some content

namespace DisKV

variable {kv : DisKV} {shard shard' : Int} {key n : Bytes} {v : Store} {d d' : Directory} {s : Disk}

variable (kv) in
def path (shard : Int) : List Bytes :=
  components kv.dir ++ [Bytes.ofString "shard-" ++ Bytes.signed shard]

variable (kv) in
def dirName (shard : Int) : Bytes :=
  kv.dir ++ Bytes.ofString "/shard-" ++ Bytes.signed shard ++ Bytes.ofString "/"

theorem path_inj : kv.path shard = kv.path shard' ↔ shard = shard' := by
  refine ⟨fun h => ?_, fun h => h ▸ rfl⟩
  have h := List.append_cancel_left h
  exact Bytes.signed_inj <| List.append_cancel_left (List.cons.inj h).left

theorem components_dirName : components (kv.dirName shard) = kv.path shard := by
  have hn : 47 ∉ Bytes.ofString "shard-" ++ Bytes.signed shard := by
    rw [List.mem_append, not_or]
    refine ⟨by decide, fun h => ?_⟩
    rw [Bytes.signed] at h
    split at h
    case isTrue =>
      rcases List.mem_cons.mp h with h | h
      case inl => cases h
      case inr => cases (Bytes.isDigit_of_mem_decimal h : Bytes.isDigit 47 = true)
    case isFalse => cases (Bytes.isDigit_of_mem_decimal h : Bytes.isDigit 47 = true)
  have hs : Bytes.ofString "shard-" = 115 :: Bytes.ofString "hard-" := by decide
  rw [dirName, path, show Bytes.ofString "/shard-" = 47 :: Bytes.ofString "shard-" by decide,
    show Bytes.ofString "/" = 47 :: [] by decide, List.append_assoc kv.dir, components_append_slash, List.cons_append,
    components_append_slash, components_nil, components_name (by simp [hs]) hn, List.append_nil]

theorem components_keyName :
    components (kv.dirName shard ++ Bytes.ofString "/key-" ++ encodeKey key) = kv.path shard ++ [keyName key] := by
  have hk : Bytes.ofString "key-" = 107 :: Bytes.ofString "ey-" := by decide
  rw [show Bytes.ofString "/key-" = 47 :: Bytes.ofString "key-" by decide, List.append_assoc, List.cons_append,
    components_append_slash, components_dirName, ← keyName, components_name (by simp [keyName, hk]) slash_not_mem_keyName]

theorem components_tempName :
    components (kv.dirName shard ++ Bytes.ofString "/temp-" ++ encodeKey key) = kv.path shard ++ [tempName key] := by
  have hk : Bytes.ofString "temp-" = 116 :: Bytes.ofString "emp-" := by decide
  rw [show Bytes.ofString "/temp-" = 47 :: Bytes.ofString "temp-" by decide, List.append_assoc, List.cons_append,
    components_append_slash, components_dirName, ← tempName,
    components_name (by simp [tempName, hk]) slash_not_mem_tempName]

-- The directories of the shards, beside which there is nothing.
structure Dirs (kv : DisKV) (D : Int → Option Directory) (s : Disk) : Prop where
  shard : ∀ shard, s.dirs.lookup (kv.path shard) = D shard
  root  : s.dirs.lookup (components kv.dir) = some ∅
  mem   : ∀ p ∈ s.dirs, p = components kv.dir ∨ ∃ shard, p = kv.path shard

theorem path_ne_root : components kv.dir ≠ kv.path shard := by
  simp [path]

namespace Dirs

variable {D : Int → Option Directory}

theorem set (h : kv.Dirs D s) : kv.Dirs (Function.update D shard (some d)) (s.setDir (kv.path shard) d) where
  shard shard' := by
    by_cases hs : shard' = shard
    case pos => rw [hs, Function.update_self, Disk.setDir, AList.lookup_insert]
    case neg => rw [Function.update_of_ne hs, Disk.setDir, AList.lookup_insert_ne <| mt path_inj.mp hs, h.shard]
  root := by rw [Disk.setDir, AList.lookup_insert_ne path_ne_root, h.root]
  mem p hp := by
    rcases AList.mem_insert _ |>.mp hp with rfl | hp
    case inl => exact .inr ⟨shard, rfl⟩
    case inr => exact h.mem p hp

theorem erase (h : kv.Dirs D s) : kv.Dirs (Function.update D shard none) ⟨s.dirs.erase (kv.path shard)⟩ where
  shard shard' := by
    by_cases hs : shard' = shard
    case pos => rw [hs, Function.update_self, AList.lookup_erase]
    case neg => rw [Function.update_of_ne hs, AList.lookup_erase_ne <| mt path_inj.mp hs, h.shard]
  root := by rw [AList.lookup_erase_ne path_ne_root, h.root]
  mem p hp := h.mem p (AList.mem_erase.mp hp).right

theorem dir (h : kv.Dirs D s) : s.dir (kv.path shard ++ [n]) = D shard := by
  rw [Disk.dir, List.dropLast_concat, h.shard]

theorem file (h : kv.Dirs D s) : s.file (kv.path shard ++ [n]) = (D shard).bind (·.lookup n) := by
  rw [Disk.file, h.dir, List.getLastD_concat]
  rfl

theorem not_mem (h : kv.Dirs D s) : kv.path shard ++ [n] ∉ s.dirs := by
  intro hm
  rcases h.mem _ hm with he | ⟨shard', he⟩
  all_goals
    have hl := congrArg List.length he
    simp [path] at hl

theorem exists_path (h : kv.Dirs D s) : s.Exists (kv.path shard) ↔ (D shard).isSome := by
  have hf : s.file (kv.path shard) = none := by
    rw [path, Disk.file, Disk.dir, List.dropLast_concat, h.root]
    rfl
  have hm : kv.path shard ∈ s.dirs ↔ (D shard).isSome := by
    rw [← h.shard]
    exact AList.lookup_isSome.symm
  simp [Disk.Exists, hf, hm]

end Dirs

-- The contents of the shards on a disk.
def Holds (kv : DisKV) (v : Store) (s : Disk) : Prop :=
  ∃ D, kv.Dirs D s ∧ ∀ shard, Keeps (v shard) ((D shard).getD ∅)

-- In addition, a shard has the directory `d`.
def Opened (kv : DisKV) (v : Store) (shard : Int) (d : Directory) (s : Disk) : Prop :=
  ∃ D, kv.Dirs D s ∧ D shard = some d ∧ ∀ shard, Keeps (v shard) ((D shard).getD ∅)

namespace Opened

theorem holds (h : kv.Opened v shard d s) : kv.Holds v s := by
  obtain ⟨D, hd, _, hk⟩ := h
  exact ⟨D, hd, hk⟩

theorem keeps (h : kv.Opened v shard d s) : Keeps (v shard) d := by
  obtain ⟨D, _, hs, hk⟩ := h
  simpa [hs] using hk shard

theorem set (h : kv.Opened v shard d s) (hk : Keeps u d') :
    kv.Opened (Function.update v shard u) shard d' (s.setDir (kv.path shard) d') := by
  obtain ⟨D, hd, _, hk'⟩ := h
  refine ⟨_, hd.set, Function.update_self .., fun shard' => ?_⟩
  by_cases hs : shard' = shard
  case pos => simpa [hs] using hk
  case neg => simpa [hs] using hk' shard'

theorem set_same (h : kv.Opened v shard d s) (hk : Keeps (v shard) d') :
    kv.Opened v shard d' (s.setDir (kv.path shard) d') := by
  have h := h.set hk
  rwa [Function.update_eq_self] at h

theorem create (h : kv.Opened v shard d s) :
    s.create (kv.path shard ++ [n]) = .ok ((), s.setDir (kv.path shard) (d.insert n [])) := by
  obtain ⟨D, hd, hs, _⟩ := h
  rw [Disk.create, if_neg hd.not_mem, hd.dir, hs, List.dropLast_concat, List.getLastD_concat]

theorem append (h : kv.Opened v shard (d.insert n content) s) : s.append (kv.path shard ++ [n]) b =
    .ok ((), s.setDir (kv.path shard) (d.insert n (content ++ [b]))) := by
  obtain ⟨D, hd, hs, _⟩ := h
  rw [Disk.append, hd.dir, hd.file, hs, Option.bind_some, AList.lookup_insert, List.dropLast_concat,
    List.getLastD_concat]
  simp only [AList.insert_insert]

end Opened
end DisKV
end Diskv
