import LabSystems.Diskv.Theorems.Shards

namespace Diskv

open Crash Files

-- What a request may return and what may become of the shards, where `F` are the fates of the calls.
inductive Allowed (F : Fate → Prop) (v : Store) : Request → Event → Store → Prop
  | got (h : v shard key = some content) : Allowed F v (.get shard key) (.got content none) v
  | notGot (h : v shard key = none ∨ F .fails) : Allowed F v (.get shard key) (.got content (some err)) v
  | put : Allowed F v (.put shard key content) (.put none) (v.put shard key content)
  | notPut (h : F .fails) : Allowed F v (.put shard key content) (.put (some err)) v
  | read (h : ∀ key, m.lookup key = v shard key) : Allowed F v (.read shard) (.read m) v
  | replaced (h : DisKV.Mixed v shard m u) (hf : ¬F .fails → u = fun key => m.lookup key) :
    Allowed F v (.replace shard m rank) .replaced (Function.update v shard u)
  | down (h : Faulty F) : Allowed F v req .down v
  | downPut (h : Faulty F) : Allowed F v (.put shard key content) .down (v.put shard key content)
  | downReplace (h : Faulty F) (hm : DisKV.Mixed v shard m u) (hf : ¬F .fails → DisKV.Unmixed v shard m u) :
    Allowed F v (.replace shard m rank) .down (Function.update v shard u)

-- The requests that have been made and what they have returned.
inductive History : List (Action × List Event) → Store → Prop
  | start : History [] fun _ _ => none
  | step : History h v → Allowed (· ∈ a.fates) v a.request e v' → History (h ++ [(a, [e])]) v'

namespace DisKV

variable {kv : DisKV} {v : Store} {s : Disk} {F : Fate → Prop} {ts : List kv.server.Transition}

-- What is on a disk.
def contents (kv : DisKV) (s : Disk) : Store :=
  fun shard key => s.file (kv.path shard ++ [keyName key])

theorem Holds.contents (h : kv.Holds v s) : kv.contents s = v := by
  obtain ⟨D, hd, hk⟩ := h
  funext shard key
  rw [DisKV.contents, hd.file, ← (hk shard).lookup]
  cases D shard <;> rfl

theorem ensures_serve (req : Request) : Ensures F (kv.Holds v) (kv.serve req)
    (fun e s => ∃ v', Allowed F v req e v' ∧ kv.Holds v' s)
    fun s => ∃ v', Allowed F v req .down v' ∧ kv.Holds v' s := by
  have hd s (h : Faulty F ∧ kv.Holds v s) : ∃ v', Allowed F v req .down v' ∧ kv.Holds v' s := ⟨v, .down h.left, h.right⟩
  cases req with
  | get shard key =>
    refine .bind (ensures_fileGet.weaken (fun _ h => h) (fun _ _ h => h) hd) fun r => .pure fun s h => ?_
    obtain ⟨content, err⟩ := r
    cases err with
    | none   => exact ⟨v, .got <| h.left rfl, h.right.right⟩
    | some e => exact ⟨v, .notGot <| h.right.left (by simp), h.right.right⟩
  | put shard key content =>
    refine .bind (ensures_filePut.weaken (fun _ h => h) (fun _ _ h => h) fun s h => ?_) fun err => .pure fun s h => ?_
    case refine_1 =>
      rcases h.right with hs | hs
      case inl => exact hd s ⟨h.left, hs⟩
      case inr => exact ⟨_, .downPut h.left, hs⟩
    case refine_2 =>
      cases err with
      | none   => exact ⟨_, .put, h.left rfl⟩
      | some e =>
        obtain ⟨hf, h⟩ := h.right (by simp)
        exact ⟨v, .notPut hf, h⟩
  | read shard =>
    refine .bind (ensures_fileReadShard.weaken (fun _ h => h) (fun _ _ h => h) hd) fun m => .pure fun s h => ?_
    exact ⟨v, .read h.left, h.right⟩
  | replace shard m rank =>
    refine .bind ((ensures_fileReplaceShard rank).weaken (fun _ h => h) (fun _ _ h => h) fun s h => ?_)
      fun _ => .pure fun s h => ?_
    case refine_1 =>
      obtain ⟨hf, u, ⟨hm, hu⟩, h⟩ := h
      exact ⟨_, .downReplace hf hm hu, h⟩
    case refine_2 =>
      obtain ⟨u, ⟨hm, hu⟩, h⟩ := h
      exact ⟨_, .replaced hm hu, h⟩

theorem holds_init : kv.Holds (fun _ _ => none) kv.server.init := by
  refine ⟨fun _ => none, ⟨fun shard => ?_, ?_, fun p hp => ?_⟩, fun _ => .empty⟩
  case refine_1 =>
    have hn : kv.path shard ∉ kv.server.init.dirs := fun hm => path_ne_root (List.mem_singleton.mp hm).symm
    exact AList.lookup_eq_none.mpr hn
  case refine_2 => exact List.dlookup_cons_eq [] (components kv.dir) ∅
  case refine_3 => exact .inl <| List.mem_singleton.mp hp

theorem step_holds (t : kv.server.Transition) (h : kv.Holds v t.pre) :
    ∃ e v', t.events = [e] ∧ Allowed (· ∈ t.act.fates) v t.act.request e v' ∧ kv.Holds v' t.post := by
  have ht := t.valid
  obtain ⟨_, hr, hn⟩ := ensures_serve (F := (· ∈ t.act.fates)) t.act.request ⟨t.pre, t.act.fates⟩ h fun _ h => h
  simp only [server, step] at ht
  split at ht
  case h_1 e w hs =>
    obtain ⟨hp, he⟩ := Prod.mk.inj <| Option.some.inj ht
    obtain ⟨v', ha, hv⟩ := hr e <| by rw [hs]
    rw [hs] at hv
    exact ⟨e, v', he.symm, ha, hp ▸ hv⟩
  case h_2 w hs =>
    obtain ⟨hp, he⟩ := Prod.mk.inj <| Option.some.inj ht
    obtain ⟨v', ha, hv⟩ := hn <| by rw [hs]
    rw [hs] at hv
    exact ⟨.down, v', he.symm, ha, hp ▸ hv⟩

theorem run_holds (h : kv.server.Run ts s) : ∃ v, kv.Holds v s ∧ History (ts.map fun t => (t.act, t.events)) v := by
  induction h
  case nil => exact ⟨_, holds_init, .start⟩
  case snoc t _ hi =>
    obtain ⟨v, hv, hh⟩ := hi
    obtain ⟨e, v', he, ha, hv'⟩ := step_holds t hv
    refine ⟨v', hv', ?_⟩
    rw [List.map_append, List.map_singleton, he]
    exact hh.step ha

-- A server behaves like a store that changes at once, however often it goes down and whichever calls fail.
theorem run_history (h : kv.server.Run ts s) : History (ts.map fun t => (t.act, t.events)) (kv.contents s) := by
  obtain ⟨v, hv, hh⟩ := run_holds h
  exact hv.contents ▸ hh

end DisKV

namespace Request

-- A request that may change what a shard holds for a key.
def Writes : Request → Int → Bytes → Prop
  | put shard key _, shard', key'   => shard = shard' ∧ key = key'
  | replace shard _ _, shard', _    => shard = shard'
  | get _ _, _, _ | read _, _, _    => False

-- A request to store a content.
def Offers : Request → Int → Bytes → Bytes → Prop
  | put shard key c, shard', key', c'  => shard = shard' ∧ key = key' ∧ c = c'
  | replace shard m _, shard', key', c => shard = shard' ∧ m.lookup key' = some c
  | get _ _, _, _, _ | read _, _, _, _ => False

end Request

namespace Allowed

variable {v v' : Store} {req : Request} {e : Event} {shard : Int} {key content : Bytes} {F : Fate → Prop}

theorem put_eq (v : Store) (h : ¬(shard' = shard ∧ key' = key)) : v.put shard' key' content shard key = v shard key := by
  rw [Store.put]
  by_cases hs : shard = shard'
  case neg => rw [Function.update_of_ne hs]
  case pos =>
    subst hs
    rw [Function.update_self, Function.update_of_ne fun hk => h ⟨rfl, hk.symm⟩]

theorem frame (h : Allowed F v req e v') (hw : ¬req.Writes shard key) : v' shard key = v shard key := by
  cases h
  case got | notGot | notPut | read | down => rfl
  case put | downPut                       => exact put_eq v hw
  case replaced | downReplace              => exact congrFun (Function.update_of_ne (fun h => hw h.symm) ..) key

theorem offers (h : Allowed F v req e v') (hc : v' shard key = some content) :
    v shard key = some content ∨ req.Offers shard key content := by
  have hput {shard' key' c} (hc : v.put shard' key' c shard key = some content) :
      v shard key = some content ∨ (Request.put shard' key' c).Offers shard key content := by
    by_cases hk : shard' = shard ∧ key' = key
    case neg => exact .inl <| put_eq v hk ▸ hc
    case pos =>
      obtain ⟨rfl, rfl⟩ := hk
      rw [Store.put, Function.update_self, Function.update_self] at hc
      exact .inr ⟨rfl, rfl, Option.some.inj hc⟩
  have hreplace {shard' m u rank} (hm : DisKV.Mixed v shard' m u)
      (hc : Function.update v shard' u shard key = some content) :
      v shard key = some content ∨ (Request.replace shard' m rank).Offers shard key content := by
    by_cases hs : shard = shard'
    case neg => exact .inl <| by rwa [Function.update_of_ne hs] at hc
    case pos =>
      subst hs
      rw [Function.update_self] at hc
      rcases hm key with hn | hv | hm
      case inl => cases hn.symm.trans hc
      case inr.inl => exact .inl <| hv.symm.trans hc
      case inr.inr => exact .inr ⟨rfl, hm.symm.trans hc⟩
  cases h
  case got | notGot | notPut | read | down => exact .inl hc
  case put | downPut                       => exact hput hc
  case replaced hm _ | downReplace hm _    => exact hreplace hm hc

theorem put_succeeds (h : Allowed F v (.put shard key content) e v') (hf : ¬Faulty F) : e = .put none := by
  cases h
  case put                          => rfl
  case notPut hn                    => exact absurd (.inl hn) hf
  case down hn | downPut hn         => exact absurd hn hf

end Allowed

namespace DisKV

variable {kv : DisKV} {v : Store} {s : Disk} {ts ts₁ ts₂ : List kv.server.Transition} {t : kv.server.Transition}
  {shard : Int} {key content : Bytes}

-- A shard has a content for a key.
def Has (kv : DisKV) (shard : Int) (key content : Bytes) (s : Disk) : Prop :=
  ∃ v, kv.Holds v s ∧ v shard key = some content

theorem Has.contents (h : kv.Has shard key content s) : kv.contents s shard key = some content := by
  obtain ⟨v, hv, hc⟩ := h
  exact hv.contents ▸ hc

theorem Has.path (p : kv.server.Path s ts s') (h : kv.Has shard key content s)
    (hw : ∀ u ∈ ts, ¬u.act.request.Writes shard key) : kv.Has shard key content s' := by
  refine p.invariant_of (I := kv.Has shard key content) h hw fun u hu h => ?_
  obtain ⟨v, hv, hc⟩ := h
  obtain ⟨e, v', _, ha, hv'⟩ := step_holds u hv
  exact ⟨v', hv', (ha.frame hu).trans hc⟩

theorem has_put (h : kv.server.Run ts t.pre) (hr : t.act.request = .put shard key content) (he : t.events = [.put none]) :
    kv.Has shard key content t.post := by
  obtain ⟨v, hv, _⟩ := run_holds h
  obtain ⟨e, v', he', ha, hv'⟩ := step_holds t hv
  cases he.symm.trans he'
  rw [hr] at ha
  cases ha
  exact ⟨_, hv', by simp [Store.put]⟩

-- A content that has been put is there until the key or the shard is written again.
theorem put_survives (h : kv.server.Run (ts₁ ++ t :: ts₂) s) (hr : t.act.request = .put shard key content)
    (he : t.events = [.put none]) (hw : ∀ u ∈ ts₂, ¬u.act.request.Writes shard key) :
    kv.contents s shard key = some content ∧ ∀ u ∈ ts₂,
      (∀ c, u.act.request = .get shard key → u.events = [.got c none] → c = content) ∧
        ∀ m, u.act.request = .read shard → u.events = [.read m] → m.lookup key = some content := by
  obtain ⟨h₁, h₂⟩ := h.split_cons
  have hp := has_put h₁ hr he
  refine ⟨(hp.path h₂ hw).contents, fun u hu => ?_⟩
  obtain ⟨us, us', rfl⟩ := List.append_of_mem hu
  obtain ⟨v, hv, hc⟩ := hp.path h₂.split_cons.left fun u hm => hw u <| by simp [hm]
  obtain ⟨e, v', he', ha, _⟩ := step_holds u hv
  constructor
  case left =>
    intro c hr he
    cases he.symm.trans he'
    rw [hr] at ha
    cases ha with
    | got h => exact Option.some.inj <| h.symm.trans hc
  case right =>
    intro m hr he
    cases he.symm.trans he'
    rw [hr] at ha
    cases ha with
    | read h => exact (h key).trans hc

-- Whatever is there has been offered as a whole.
theorem run_offered (h : kv.server.Run ts s) (hc : kv.contents s shard key = some content) :
    ∃ t ∈ ts, t.act.request.Offers shard key content := by
  suffices h' : ∃ v, kv.Holds v s ∧ ∀ content, v shard key = some content →
      ∃ t ∈ ts, t.act.request.Offers shard key content by
    obtain ⟨v, hv, h'⟩ := h'
    exact h' content <| hv.contents ▸ hc
  refine h.history_invariant (I := fun ts s => ∃ v, kv.Holds v s ∧ ∀ content, v shard key = some content →
      ∃ t ∈ ts, t.act.request.Offers shard key content) ⟨_, holds_init, by simp⟩ ?_
  rintro ts t ⟨v, hv, h⟩
  obtain ⟨e, v', _, ha, hv'⟩ := step_holds t hv
  refine ⟨v', hv', fun content hc => ?_⟩
  rcases ha.offers hc with hc | ho
  case inr => exact ⟨t, by simp, ho⟩
  case inl =>
    obtain ⟨u, hu, ho⟩ := h content hc
    exact ⟨u, by simp [hu], ho⟩

theorem isSome_step (kv : DisKV) (s : Disk) (a : Action) : (kv.server.step s a).isSome := by
  simp only [server, step]
  split <;> rfl

def take (kv : DisKV) (s : Disk) (a : Action) : kv.server.Transition where
  pre    := s
  act    := a
  events := ((kv.server.step s a).get <| kv.isSome_step s a).snd
  post   := ((kv.server.step s a).get <| kv.isSome_step s a).fst
  valid  := by simp

-- A content is put, the server goes down at another one, and the first one is got.
def home : DisKV :=
  ⟨.ofString "/home"⟩

def stored : home.server.Transition :=
  home.take home.server.init ⟨.put 0 (.ofString "a") (.ofString "1"), []⟩

def lost : home.server.Transition :=
  home.take stored.post ⟨.put 0 (.ofString "b") (.ofString "2"), [.succeeds, .succeeds, .succeeds, .crashes true]⟩

def fetched : home.server.Transition :=
  home.take lost.post ⟨.get 0 (.ofString "a"), []⟩

theorem run_fetched : home.server.Run ([] ++ stored :: [lost, fetched]) fetched.post :=
  Machine.Path.nil.snoc stored |>.snoc lost |>.snoc fetched

theorem stored_events : stored.events = [.put none] := by
  obtain ⟨e, v', he, ha, _⟩ := step_holds stored holds_init
  rw [he, ha.put_succeeds fun hf => ?_]
  rcases hf with hf | ⟨_, hf⟩ <;> cases hf

theorem unwritten : ∀ u ∈ [lost, fetched], ¬u.act.request.Writes 0 (.ofString "a") := by
  intro u hu
  rcases List.mem_cons.mp hu with rfl | hu
  case inl =>
    have hn : Bytes.ofString "b" ≠ .ofString "a" := by decide
    exact fun h => hn h.right
  case inr =>
    obtain rfl := List.mem_singleton.mp hu
    exact id

theorem stored_survives : home.contents fetched.post 0 (.ofString "a") = some (.ofString "1") :=
  put_survives run_fetched rfl stored_events unwritten |>.left

theorem stored_offered :
    ∃ t ∈ [] ++ stored :: [lost, fetched], t.act.request.Offers 0 (.ofString "a") (.ofString "1") := by
  have hs : home.Has 0 (.ofString "a") (.ofString "1") stored.post := has_put .nil rfl stored_events
  exact run_offered run_fetched (hs.path run_fetched.split_cons.right unwritten).contents

theorem fetched_history : History (([] ++ stored :: [lost, fetched]).map fun t : home.server.Transition =>
    (t.act, t.events)) (home.contents fetched.post) :=
  run_history run_fetched

end DisKV
end Diskv
