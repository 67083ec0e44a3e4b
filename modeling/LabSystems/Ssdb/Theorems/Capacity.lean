import LabSystems.Ssdb.Theorems.Requests

namespace Ssdb

namespace Buffer

variable {heap : Nat → UInt8} {b b' : Buffer} {p : Bytes}

-- The sizes of a buffer that is small at first. The double of the last one is negative.
def Sized (b : Buffer) : Prop :=
  b.total < 2 ^ 13 ∨ ∃ k ≤ 30, b.total = 2 ^ k

theorem newTotal_pow : ∀ k < 30, ∃ j ≤ 30, newTotal (2 ^ k) = 2 ^ j := by
  decide

theorem newTotal_small {n : Nat} (h : n < 2 ^ 13) : newTotal n = 2 ^ 13 :=
  if_pos h

namespace Sized

theorem le (h : b.Sized) : b.total ≤ 2 ^ 30 := by
  rcases h with h | ⟨k, hk, ht⟩
  case inl => omega
  case inr => exact ht ▸ Nat.pow_le_pow_right (by decide) hk

theorem of_total (h : b.Sized) (ht : b'.total = b.total) : b'.Sized := by
  unfold Sized
  exact ht ▸ h

theorem grow (h : b.Sized) (hg : b.grow heap = some b') : b'.Sized := by
  have hb := (grow_eq_some hg).left
  rcases h with h | ⟨k, hk, ht⟩
  case inl => exact .inr ⟨13, by decide, hb.trans <| newTotal_small h⟩
  case inr =>
    rcases Nat.lt_or_eq_of_le hk with hk | rfl
    case inl =>
      have ⟨j, hj, hn⟩ := newTotal_pow k hk
      exact .inr ⟨j, hj, by rw [hb, ht, hn]⟩
    case inr =>
      -- There is no buffer of 2^31 bytes.
      have hl := b'.total_lt
      rw [hb, ht] at hl
      exact absurd hl (by decide)

theorem grow_eq_none (h : b.Sized) (hg : b.grow heap = none) : b.total = 2 ^ 30 := by
  have hl : 2 ^ 31 ≤ newTotal b.total := by
    unfold Buffer.grow at hg
    split at hg
    case isTrue  => cases hg
    case isFalse => omega
  rcases h with h | ⟨k, hk, ht⟩
  case inl =>
    rw [newTotal_small h] at hl
    omega
  case inr =>
    rcases Nat.lt_or_eq_of_le hk with hk | rfl
    case inr => exact ht
    case inl =>
      have ⟨j, hj, hn⟩ := newTotal_pow k hk
      have hj : 2 ^ j ≤ 2 ^ 30 := Nat.pow_le_pow_right (by decide) hj
      rw [ht, hn] at hl
      omega

theorem append (h : b.Sized) : (b.append heap p).1.Sized := by
  fun_induction Buffer.append heap b p
  case case1       => exact h
  case case2 hg hi => exact hi <| h.grow hg
  case case3 hp    =>
    refine h.of_total ?_
    simp only [total, space, List.length_append, List.length_drop] at hp ⊢
    omega

end Sized

theorem before_append : (b.append heap p).1.before = b.before := by
  fun_induction append heap b p
  case case1       => rfl
  case case2 hg hi => exact hi.trans (grow_eq_some hg).right.left
  case case3       => rfl

theorem data_of_append (h : (b.append heap p).2 = -1) : (b.append heap p).1.data = b.data := by
  fun_induction append heap b p
  case case1       => rfl
  case case2 hg hi => exact (hi h).trans (grow_eq_some hg).right.right
  case case3       => cases h

-- What has been consumed takes space as well.
theorem append_ne_iff (heap : Nat → UInt8) (p : Bytes) (h : b.Sized) :
    (b.append heap p).2 ≠ -1 ↔ b.before.length + b.data.length + p.length ≤ 2 ^ 30 := by
  fun_induction append heap b p
  case case1 hp hg    =>
    have ht := h.grow_eq_none hg
    simp only [total, space] at hp ht
    simp only [ne_eq, not_true_eq_false, false_iff]
    omega
  case case2 hg hi =>
    obtain ⟨_, hb, hd⟩ := grow_eq_some hg
    rw [hi <| h.grow hg, hb, hd]
  case case3 b hp     =>
    have hl := h.le
    simp only [total, space] at hp hl
    exact iff_of_true (by simp) (by omega)

-- A string for which there is no memory is left out.
theorem Sized.data_append (h : b.Sized) (hb : b.before = []) : (b.append heap p).1.data =
    if b.data.length + p.length ≤ 2 ^ 30 then b.data ++ p else b.data := by
  have hn := append_ne_iff heap p h
  rw [hb, List.length_nil, zero_add] at hn
  split
  case isTrue hl  => exact Buffer.data_append <| hn.mpr hl
  case isFalse hl => exact data_of_append <| not_not.mp <| mt hn.mp hl

end Buffer

namespace Link

variable {double : Bytes → Int64} {heap : Nat → UInt8} {input input' : Buffer} {chunk : Bytes}

-- The data is read without being moved.
structure Reads (input input' : Buffer) : Prop where
  total    : input'.total = input.total
  consumed : input'.before.length + input'.data.length = input.before.length + input.data.length

namespace Reads

theorem refl : Reads input input :=
  ⟨rfl, rfl⟩

theorem trans (h : Reads input input') (h' : Reads input' input'') : Reads input input'' :=
  ⟨h'.total.trans h.total, h'.consumed.trans h.consumed⟩

theorem decr (n : Int) : Reads input (input.decr n) := by
  constructor
  all_goals
    simp only [Buffer.total, Buffer.decr, List.length_append, List.length_take, List.length_drop]
    omega

end Reads

-- A call that moves the data has not read all of it.
theorem reads_recvReq (double : Bytes → Int64) (heap : Nat → UInt8) (input : Buffer) :
    Reads input (recvReq double heap input).2 ∨
    (recvReq double heap input).2.data = input.data ∧ input.data ≠ [] ∧
      ∀ arg args, (recvReq double heap input).1.req ≠ some (arg :: args) := by
  unfold recvReq
  split
  case isTrue     => exact .inl .refl
  case isFalse hs =>
    have hm (ret) : (more heap input ret).2.data = input.data ∧ input.data ≠ [] ∧
        ∀ arg args, (more heap input ret).1.req ≠ some (arg :: args) :=
      ⟨Buffer.data_reserve, by simpa [Buffer.size] using hs, fun _ _ => req_ne_more⟩
    split
    case isTrue =>
      unfold redisRecvReq
      split
      case h_1 => exact .inl .refl
      case h_2 => exact .inr <| hm _
      case h_3 => exact .inl <| .decr _
    case isFalse =>
      split
      case h_1 => exact .inl .refl
      case h_2 => exact .inr <| hm _
      case h_3 => exact .inl <| .decr _

theorem reads_drain (h : (drain double heap input).2 = some input') (hd : input'.data = []) : Reads input input' := by
  fun_induction drain double heap input
  case case1             => cases h
  case case2 input r hr  =>
    have hr := Option.some.inj h
    rcases reads_recvReq double heap input with hs | ⟨he, hne, _⟩
    case inl => exact hr ▸ hs
    case inr => exact absurd (he.symm.trans <| (congrArg Buffer.data hr).trans hd) hne
  case case3 input r arg args hr _ hi =>
    rcases reads_recvReq double heap input with hs | ⟨_, _, hn⟩
    case inl => exact hs.trans <| hi h
    case inr => exact absurd hr <| hn _ _

end Link

-- Everything has been consumed when the next chunk arrives.
def LinkTransition.Consumed (t : LinkTransition double heap) : Prop :=
  ∃ b ∈ t.post, b.data = []

instance {t : LinkTransition double heap} : Decidable t.Consumed :=
  inferInstanceAs <| Decidable <| ∃ b ∈ t.post, b.data = []

namespace Link

open RedisLink (Request)

variable {ts : List (LinkTransition double heap)} {o : Option Buffer}

-- How much has been received, when everything is consumed.
structure Filled (ts : List (LinkTransition double heap)) (b : Buffer) : Prop where
  sized   : b.Sized
  data    : b.data = []
  appends : (∀ t ∈ ts, LinkTransition.Appends t) ↔ (ts.flatMap (·.act)).length ≤ 2 ^ 30
  before  : (∀ t ∈ ts, LinkTransition.Appends t) → b.before.length = (ts.flatMap (·.act)).length

theorem Filled.nil : Filled ([] : List (LinkTransition double heap)) (.new heap initBufferSize h) where
  sized   := .inl <| by simp [Buffer.total, Buffer.new, initBufferSize]
  data    := rfl
  appends := by simp
  before  := by simp [Buffer.new]

theorem reads_onRead (h : (onRead double heap input chunk).2 = some input') (hd : input'.data = []) :
    Reads (input.append heap chunk).1 input' := by
  unfold onRead at h
  split at h
  case isFalse   => exact reads_drain h hd
  case isTrue hc =>
    cases h
    have ha : (input.append heap []).1 = input := by
      rw [Buffer.append, dif_neg (by simp)]
      ext1 <;> simp
    rw [hc, ha]
    exact .refl

theorem Filled.step (h : Filled ts b) (t : LinkTransition double heap) (hb : t.pre = some b) (hc : t.Consumed) :
    ∃ b', t.post = some b' ∧ Filled (ts ++ [t]) b' := by
  have ⟨b', hb', hd⟩ := hc
  have hpost : t.post = (onRead double heap b t.act).2 := by
    have ⟨c, hc, hv⟩ := Option.map_eq_some_iff.mp t.valid
    cases hb.symm.trans hc
    exact (congrArg Prod.fst hv).symm
  have hr := reads_onRead (hpost.symm.trans hb') hd
  have ht : t.Appends ↔ b.before.length + t.act.length ≤ 2 ^ 30 := by
    have hn := Buffer.append_ne_iff heap t.act h.sized
    rw [h.data, List.length_nil, add_zero] at hn
    exact ⟨fun ha => hn.mp <| ha b hb, fun hl c hc => Option.some.inj (hb.symm.trans hc) ▸ hn.mpr hl⟩
  have happ : (∀ u ∈ ts ++ [t], LinkTransition.Appends u) ↔ (∀ u ∈ ts, LinkTransition.Appends u) ∧ t.Appends := by
    simp [or_imp, forall_and]
  have hlen : ((ts ++ [t]).flatMap (·.act)).length = (ts.flatMap (·.act)).length + t.act.length := by simp
  refine ⟨b', hb', (h.sized.append).of_total hr.total, hd, ?_, fun ha => ?_⟩
  case refine_1 =>
    rw [happ, ht, hlen, h.appends]
    constructor
    case mp  => exact fun ⟨hs, hl⟩ => h.before (h.appends.mpr hs) ▸ hl
    case mpr =>
      intro hl
      have hs : (ts.flatMap (·.act)).length ≤ 2 ^ 30 := by omega
      exact ⟨hs, (h.before <| h.appends.mpr hs).symm ▸ hl⟩
  case refine_2 =>
    have ⟨hs, ha⟩ := happ.mp ha
    have hl := hr.consumed
    rw [Buffer.before_append, Buffer.data_append (ha b hb), hd, h.data] at hl
    rw [hlen, ← h.before hs]
    simpa using hl

theorem filled_of_run (r : (link double heap).Run ts o) (hc : ∀ t ∈ ts, LinkTransition.Consumed t) :
    ∃ b, o = some b ∧ Filled ts b := by
  refine r.history_invariant (I := fun ts o => (∀ t ∈ ts, LinkTransition.Consumed t) → ∃ b, o = some b ∧ Filled ts b)
    ?_ ?_ hc
  case refine_1 => exact fun _ => ⟨_, rfl, .nil⟩
  case refine_2 =>
    intro ts t hi hc
    have ⟨b, hb, hf⟩ := hi fun u hu => hc u <| List.mem_append_left _ hu
    exact hf.step t hb <| hc t <| by simp

-- The room that has been consumed is never used again.
theorem appends_iff (r : (link double heap).Run ts o) (hc : ∀ t ∈ ts, LinkTransition.Consumed t) :
    ((∀ t ∈ ts, LinkTransition.Appends t) ↔ (ts.flatMap (·.act)).length ≤ 2 ^ 30) ∧
      ∃ b, o = some b ∧ b.total ≤ 2 ^ 30 ∧
        ((ts.flatMap (·.act)).length ≤ 2 ^ 30 → (ts.flatMap (·.act)).length ≤ b.total) := by
  have ⟨b, hb, hf⟩ := filled_of_run r hc
  refine ⟨hf.appends, b, hb, hf.sized.le, fun hl => ?_⟩
  rw [← hf.before <| hf.appends.mpr hl, Buffer.total]
  omega

def ping : Request :=
  ⟨[.ofString "ping"], by simp, by decide +kernel⟩

def pinged : List (LinkTransition (fun _ => 0) fun _ => 0) × Option Buffer :=
  Machine.trace _ (link (fun _ => 0) fun _ => 0).init [ping.bytes, ping.bytes]

theorem appends_iff_pinged : pinged.1.length = 2 ∧ ∀ t ∈ pinged.1, LinkTransition.Appends t :=
  ⟨by decide +kernel, appends_iff (Machine.path_trace ..) (by decide +kernel) |>.left.mpr (by decide +kernel)⟩

variable (double heap) in
-- A buffer that holds one whole request.
theorem recvReq_request {r : Request} (h : b.data = r.bytes) : ∃ n,
    recvReq double heap b = (⟨some 1, r.args, some (RedisLink.convertReq double r.args).recvString⟩, b.decr n) ∧
      (b.decr n).data = [] := by
  have ⟨l, hl⟩ := r.exists_star
  have hlead : b.leading = 0 := by
    have hd : b.data = [] ++ r.bytes := h
    exact leading_of_lead hd (by simp) (by simp [hl])
  have hf : b.From b.leading r.bytes := hlead ▸ .zero h
  have hs := b.size_lt
  have hsize := hf.length
  have hi : int (b.size - b.leading) = r.bytes.length := by rw [int_eq] <;> omega
  have hb : b.byte b.leading = '*'.toUInt8 := Buffer.From.byte (hl ▸ hf)
  rw [recvReq_star (h ▸ r.bytes_ne_nil) hb, hi]
  have hbytes : r.bytes ++ [] = r.bytes ++ [] := rfl
  rcases RedisLink.parse_bytes hf hbytes with ⟨hn, _⟩ | ⟨views, next, l', hv, hf', hleft, hp⟩
  case inl => exact absurd rfl hn
  case inr =>
    refine ⟨next, by rw [hp, ← hv], ?_⟩
    have hdata : (b.decr next).data = l' := hf'.drop
    rcases hleft with hl | ⟨hl, _⟩
    case inl => exact hdata.trans <| by simpa using hl
    case inr => exact hdata.trans hl

variable (double heap) in
theorem drain_request {r : Request} (h : b.data = r.bytes) :
    ∃ b', (drain double heap b).2 = some b' ∧ b'.data = [] := by
  have ⟨n, hr, hd⟩ := recvReq_request double heap h
  have hz : (recvReq double heap (b.decr n)) = (⟨none, [], some []⟩, b.decr n) := by
    rw [recvReq, if_pos (by simp [Buffer.size, hd])]
  refine ⟨b.decr n, ?_, hd⟩
  rw [drain]
  split
  case h_1 hn | h_2 hn => simp [hr, recvString_ne_nil] at hn
  case h_3 =>
    rw [drain, hr, hz]

variable (double heap) in
theorem onRead_request (r : Request) (h : b.data = []) :
    ∃ b', (onRead double heap b r.bytes).2 = some b' ∧ b'.data = [] := by
  rw [onRead, if_neg r.bytes_ne_nil]
  by_cases ha : (b.append heap r.bytes).2 = -1
  case neg => exact drain_request double heap <| by rw [Buffer.data_append ha, h, List.nil_append]
  case pos =>
    have hd : (b.append heap r.bytes).1.data = [] := Buffer.data_of_append ha ▸ h
    refine ⟨_, ?_, hd⟩
    rw [drain, recvReq, if_pos (by simp [Buffer.size, hd])]

variable (double heap) in
-- A client sends one request again and again.
theorem exists_run (r : Request) (n : Nat) : ∃ ts, ∃ o, (link double heap).Run ts o ∧
    ts.map (·.act) = List.replicate n r.bytes ∧ ∀ t ∈ ts, LinkTransition.Consumed t := by
  induction n
  case zero      => exact ⟨[], _, .nil, rfl, by simp⟩
  case succ n hi =>
    have ⟨ts, o, hr, ha, hc⟩ := hi
    have ⟨b, hb, hf⟩ := filled_of_run hr hc
    have ⟨b', hb', hd⟩ := onRead_request double heap r hf.data
    subst hb
    let t : LinkTransition double heap := ⟨some b, r.bytes, (onRead double heap b r.bytes).1, some b', by
      simp only [link, ← hb']
      rfl⟩
    refine ⟨ts ++ [t], some b', hr.snoc t, ?_, fun u hu => ?_⟩
    case refine_1 => rw [List.map_append, ha, List.replicate_succ']; rfl
    case refine_2 =>
      rcases List.mem_append.mp hu with hu | hu
      case inl => exact hc u hu
      case inr => exact List.mem_singleton.mp hu ▸ ⟨b', rfl, hd⟩

theorem exists_not_appends {n : Nat} (r : Request) (h : 2 ^ 30 < n * r.bytes.length) :
    ∃ ts, ∃ o, (link double heap).Run ts o ∧ ts.map (·.act) = List.replicate n r.bytes ∧
      (∀ t ∈ ts, LinkTransition.Consumed t) ∧ ∃ t ∈ ts, ¬LinkTransition.Appends t := by
  have ⟨ts, o, hr, ha, hc⟩ := exists_run double heap r n
  have ⟨_, _, hf⟩ := filled_of_run hr hc
  have hl : (ts.flatMap (·.act)).length = n * r.bytes.length := by
    rw [List.flatMap, ha, List.length_flatten, List.map_replicate, List.sum_replicate_nat]
  refine ⟨ts, o, hr, ha, hc, ?_⟩
  by_contra hn
  have hle := hf.appends.mp fun t ht => by_contra fun hna => hn ⟨t, ht, hna⟩
  exact absurd (hl.symm.trans_le hle) <| not_le.mpr h

-- A gigabyte of requests that are read one by one, and the last one is dropped.
theorem not_appends : ping.bytes = .ofString "*1\r\n$4\r\nping\r\n" ∧ ping.bytes.length ≤ initBufferSize ∧
    ∃ ts, ∃ o, (link (fun _ => 0) fun _ => 0).Run ts o ∧ ts.map (·.act) = List.replicate 76695845 ping.bytes ∧
      (∀ t ∈ ts, LinkTransition.Consumed t) ∧ ∃ t ∈ ts, ¬LinkTransition.Appends t :=
  ⟨by decide +kernel, by decide +kernel, exists_not_appends ping <| by
    have hl : ping.bytes.length = 14 := by decide +kernel
    rw [hl]
    decide⟩

end Link

end Ssdb
