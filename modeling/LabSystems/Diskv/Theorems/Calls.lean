import LabSystems.Diskv.Theorems.Directories

-- What the functions of a server ensure, whatever becomes of the calls that they make.
namespace Diskv.DisKV

open Crash Files

variable {kv : DisKV} {shard : Int} {key content n : Bytes} {v : Store} {d : Directory} {s : Disk} {F : Fate → Prop}

theorem Holds.stat_mkdir (h : kv.Holds v s) (shard : Int) :
    (∃ d, kv.Opened v shard d s) ∧ s.stat (kv.path shard) = .ok ((), s) ∧ s.mkdir (kv.path shard) = .error .exist ∨
      s.stat (kv.path shard) = .error .notExist ∧ s.mkdir (kv.path shard) = .ok ((), s.setDir (kv.path shard) ∅) ∧
        kv.Opened v shard ∅ (s.setDir (kv.path shard) ∅) := by
  obtain ⟨D, hd, hk⟩ := h
  cases hs : D shard with
  | some d =>
    have he : s.Exists (kv.path shard) := by simp [hd.exists_path, hs]
    exact .inl ⟨⟨d, D, hd, hs, hk⟩, if_pos he, if_pos he⟩
  | none =>
    have he : ¬s.Exists (kv.path shard) := by simp [hd.exists_path, hs]
    have hr : (kv.path shard).dropLast ∈ s.dirs := by
      rw [path, List.dropLast_concat, ← AList.lookup_isSome, hd.root]
      rfl
    refine .inr ⟨if_neg he, by rw [Disk.mkdir, if_neg he, if_pos hr], _, hd.set, Function.update_self .., fun shard' => ?_⟩
    by_cases hs' : shard' = shard
    case pos => simpa [hs', hs] using hk shard
    case neg => simpa [hs'] using hk shard'

theorem ensures_shardDir : Ensures F (kv.Holds v) (kv.shardDir shard)
    (fun str s => str = kv.dirName shard ∧ ∃ d, kv.Opened v shard d s) fun s => Faulty F ∧ kv.Holds v s := by
  have hc : components (kv.dirName shard) = kv.path shard := components_dirName
  unfold shardDir
  refine .bind (Q := fun r s => Either (fun _ => ∃ d, kv.Opened v shard d s)
    (fun _ => kv.Holds v s ∧ (F .fails ∨ s.stat (kv.path shard) = .error .notExist)) r) ?stat fun r => ?_
  case stat =>
    refine .call (fun s h => ?_) (fun hf s h => ⟨h, .inl hf⟩) fun hf s h => ?_
    all_goals
      rw [← dirName, hc, Program.done]
      rcases h.stat_mkdir shard with ⟨ho, hs, _⟩ | ⟨hs, _⟩ <;> rw [hs]
    case refine_1.inl => exact ho
    case refine_1.inr => exact ⟨h, .inr hs⟩
    case refine_2.inl => exact ⟨⟨hf, h⟩, hf, h⟩
    case refine_2.inr => exact ⟨⟨hf, h⟩, hf, h⟩
  cases r with
  | ok    => exact .pure fun s h => ⟨rfl, h⟩
  | error =>
    refine .bind (Q := fun r s => Either (fun _ => ∃ d, kv.Opened v shard d s) (fun _ => F .fails ∧ kv.Holds v s) r)
      ?mkdir fun r => ?_
    case mkdir =>
      refine .call (fun s h => ?_) (fun hf s h => ⟨hf, h.left⟩) fun hf s h => ?_
      all_goals
        rw [← dirName, hc, Program.done]
        rcases h.left.stat_mkdir shard with ⟨_, hs, hm⟩ | ⟨_, hm, ho⟩ <;> rw [hm]
      case refine_1.inl =>
        refine ⟨h.right.resolve_right fun hn => ?_, h.left⟩
        cases hs.symm.trans hn
      case refine_1.inr => exact ⟨∅, ho⟩
      case refine_2.inl => exact ⟨⟨hf, h.left⟩, hf, h.left⟩
      case refine_2.inr => exact ⟨⟨hf, ho.holds⟩, hf, h.left⟩
    cases r with
    | ok    => exact .pure fun s h => ⟨rfl, h⟩
    | error => exact .halt fun s h => ⟨.inl h.left, h.right⟩

-- A program that goes on in the directory of a shard.
theorem ensures_in_shardDir {g : Bytes → Program Disk α} {Q : α → Disk → Prop} {C : Disk → Prop}
    (hg : ∀ d, Ensures F (kv.Opened v shard d) (g (kv.dirName shard)) Q C) (hc : ∀ s, Faulty F → kv.Holds v s → C s) :
    Ensures F (kv.Holds v) (kv.shardDir shard >>= g) Q C := by
  refine .bind (ensures_shardDir.weaken (fun _ h => h) (fun _ _ h => h) fun s h => hc s h.left h.right) fun str => ?_
  refine .of_and fun he => .of_exists fun d => ?_
  subst he
  exact hg d

theorem Opened.read (h : kv.Opened v shard d s) : s.read (kv.path shard ++ [keyName key]) =
    (v shard key).elim (.error .notExist) fun content => .ok (content, s) := by
  rw [← h.keeps.lookup]
  obtain ⟨D, hd, hs, _⟩ := h
  cases hk : d.lookup (keyName key) <;> simp [Disk.read, hd.file, hs, hk]

theorem ensures_fileGet : Ensures F (kv.Holds v) (kv.fileGet shard key)
    (fun r s => (r.snd = none → v shard key = some r.fst) ∧ (r.snd ≠ none → v shard key = none ∨ F .fails) ∧
      kv.Holds v s) fun s => Faulty F ∧ kv.Holds v s := by
  refine ensures_in_shardDir (fun d => ?_) fun s hf h => ⟨hf, h⟩
  refine .bind (Q := fun r s => Either (fun content => v shard key = some content ∧ kv.Holds v s)
    (fun _ => (v shard key = none ∨ F .fails) ∧ kv.Holds v s) r) ?read fun r => ?_
  case read =>
    refine .call (fun s h => ?_) (fun hf s h => ⟨.inr hf, h.holds⟩) fun hf s h => ?_
    all_goals
      rw [components_keyName, Program.done, h.read]
      cases hv : v shard key
    case refine_1.none => exact ⟨.inl rfl, h.holds⟩
    case refine_1.some => exact ⟨rfl, h.holds⟩
    case refine_2.none => exact ⟨⟨hf, h.holds⟩, hf, h.holds⟩
    case refine_2.some => exact ⟨⟨hf, h.holds⟩, hf, h.holds⟩
  cases r with
  | ok    => exact .pure fun s h => ⟨fun _ => h.left, fun hn => absurd rfl hn, h.right⟩
  | error => exact .pure fun s h => ⟨by simp, fun _ => h.left, h.right⟩

section Put

variable {path : Bytes}

theorem Opened.temp (h : kv.Opened v shard (d.insert (tempName key) c) s) (c' : Bytes) :
    kv.Opened v shard (d.insert (tempName key) c') (s.setDir (kv.path shard) (d.insert (tempName key) c')) := by
  refine h.set_same ?_
  have hk := h.keeps.temp key c'
  rwa [AList.insert_insert] at hk

theorem ensures_write (hp : components path = kv.path shard ++ [tempName key]) :
    Ensures F (kv.Opened v shard (d.insert (tempName key) content)) (write path bs)
      (fun err s => (err = none → kv.Opened v shard (d.insert (tempName key) (content ++ bs)) s) ∧
        (err ≠ none → F .fails ∧ kv.Holds v s)) fun s => Faulty F ∧ kv.Holds v s := by
  induction bs generalizing content
  case nil => exact .pure fun s h => ⟨fun _ => by simpa using h, fun hn => absurd rfl hn⟩
  case cons b bs hi =>
    refine .bind (Ensures.call_ok (A := fun _ => kv.Opened v shard (d.insert (tempName key) (content ++ [b])))
      (B := fun _ s => F .fails ∧ kv.Holds v s) (fun s h => ⟨hp ▸ h.append, h.temp _⟩) (fun hf s h => ⟨hf, h.holds⟩)
      fun hf s h => ⟨⟨hf, (h.temp _).holds⟩, hf, h.holds⟩) fun r => ?_
    cases r with
    | ok      => exact hi.weaken (fun _ h => h) (fun _ _ h => by simpa using h) fun _ h => h
    | error e => exact .pure fun s h => ⟨by simp, fun _ => h⟩

theorem ensures_writeFile (hp : components path = kv.path shard ++ [tempName key]) :
    Ensures F (kv.Opened v shard d) (writeFile path content)
      (fun err s => (err = none → kv.Opened v shard (d.insert (tempName key) content) s) ∧
        (err ≠ none → F .fails ∧ kv.Holds v s)) fun s => Faulty F ∧ kv.Holds v s := by
  refine .bind (Ensures.call_ok (A := fun _ => kv.Opened v shard (d.insert (tempName key) []))
    (B := fun _ s => F .fails ∧ kv.Holds v s) (fun s h => ⟨hp ▸ h.create, h.set_same <| h.keeps.temp key []⟩)
    (fun hf s h => ⟨hf, h.holds⟩) fun hf s h => ⟨⟨hf, (h.set_same <| h.keeps.temp key []).holds⟩, hf, h.holds⟩) fun r => ?_
  cases r with
  | error e => exact .pure fun s h => ⟨by simp, fun _ => h⟩
  | ok      =>
    refine .bind (ensures_write hp) fun err => ?_
    -- The file is closed even if it has not been written.
    cases err with
    | none =>
      refine .bind (Ensures.call_ok (A := fun _ => kv.Opened v shard (d.insert (tempName key) content))
        (B := fun _ s => F .fails ∧ kv.Holds v s) (fun s h => ⟨rfl, h.left rfl⟩)
        (fun hf s h => ⟨hf, (h.left rfl).holds⟩)
        fun hf s h => ⟨⟨hf, (h.left rfl).holds⟩, hf, (h.left rfl).holds⟩) fun r => ?_
      cases r with
      | ok      => exact .pure fun s h => ⟨fun _ => h, fun hn => absurd rfl hn⟩
      | error e => exact .pure fun s h => ⟨by simp [errorOf], fun _ => h⟩
    | some e =>
      have hn : some e ≠ none := by simp
      refine .bind (Q := fun _ s => F .fails ∧ kv.Holds v s) (.call (fun s h => h.right hn) (fun _ s h => h.right hn)
        fun hf s h => ⟨⟨hf, (h.right hn).right⟩, hf, (h.right hn).right⟩) fun r => ?_
      exact .pure fun s h => ⟨by simp, fun _ => h⟩

theorem Opened.rename (h : kv.Opened v shard (d.insert (tempName key) content) s) :
    s.rename (kv.path shard ++ [tempName key]) (kv.path shard ++ [keyName key]) = .ok ((), s.setDir (kv.path shard)
      (((d.insert (tempName key) content).erase (tempName key)).insert (keyName key) content)) := by
  obtain ⟨D, hd, hs, _⟩ := h
  have hc : (d.insert (tempName key) content).lookup (tempName key) = some content := AList.lookup_insert _
  have hset (d d' : Directory) : (s.setDir (kv.path shard) d).setDir (kv.path shard) d' = s.setDir (kv.path shard) d' := by
    rw [Disk.setDir, Disk.setDir, Disk.setDir, AList.insert_insert]
  have hdir (d : Directory) : (s.setDir (kv.path shard) d).dir (kv.path shard ++ [keyName key]) = some d := by
    rw [Disk.dir, List.dropLast_concat, Disk.setDir, AList.lookup_insert]
  rw [Disk.rename, hd.dir, hd.file, hs, Option.bind_some, hc]
  simp only [if_neg hd.not_mem, List.dropLast_concat, List.getLastD_concat, hdir, hset]

theorem Opened.put (h : kv.Opened v shard (d.insert (tempName key) content) s) : kv.Holds (v.put shard key content)
    (s.setDir (kv.path shard) (((d.insert (tempName key) content).erase (tempName key)).insert (keyName key) content)) :=
  (h.set <| h.keeps.rename key content).holds

-- A content is put as a whole or not at all.
theorem ensures_filePut : Ensures F (kv.Holds v) (kv.filePut shard key content)
    (fun err s => (err = none → kv.Holds (v.put shard key content) s) ∧ (err ≠ none → F .fails ∧ kv.Holds v s))
      fun s => Faulty F ∧ (kv.Holds v s ∨ kv.Holds (v.put shard key content) s) := by
  have hc s (hf : Faulty F) (h : kv.Holds v s) : Faulty F ∧ (kv.Holds v s ∨ kv.Holds (v.put shard key content) s) :=
    ⟨hf, .inl h⟩
  refine ensures_in_shardDir (fun d => ?_) hc
  refine .weaken (P := kv.Holds v) ?_ (fun s h => h.holds) (fun _ _ h => h) (fun _ h => h)
  refine ensures_in_shardDir (fun d => ?_) hc
  refine .bind ((ensures_writeFile components_tempName).weaken (fun _ h => h) (fun _ _ h => h)
    fun s h => hc s h.left h.right) fun err => ?_
  cases err with
  | some e => exact .pure fun s h => ⟨by simp, fun _ => h.right (by simp)⟩
  | none   =>
    refine .bind (Ensures.call_ok (A := fun _ => kv.Holds (v.put shard key content))
      (B := fun _ s => F .fails ∧ kv.Holds v s)
      (N := fun s => ((), s.setDir (kv.path shard)
        (((d.insert (tempName key) content).erase (tempName key)).insert (keyName key) content))) (fun s h => ⟨?_, (h.left rfl).put⟩)
      (fun hf s h => ⟨hf, (h.left rfl).holds⟩)
      fun hf s h => ⟨⟨hf, .inr (h.left rfl).put⟩, hf, .inl (h.left rfl).holds⟩) fun r => ?_
    case refine_1 => rw [components_tempName, components_keyName, (h.left rfl).rename]
    case refine_2 =>
      cases r with
      | ok      => exact .pure fun s h => ⟨fun _ => h, fun hn => absurd rfl hn⟩
      | error e => exact .pure fun s h => ⟨by simp, fun _ => h⟩

end Put

end Diskv.DisKV
