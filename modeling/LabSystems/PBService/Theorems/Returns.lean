import LabSystems.PBService.Theorems.Invariant

namespace PBService

open ViewService (View)

namespace Event

-- A server that is primary in its own view reads the value with which it answers a call of `Get`.
def Reads (c : Nat) (args : GetArgs) (value : String) : Event → Prop
  | get c' p v args' reply => v.primary = p ∧ c' = c ∧ args' = args ∧ reply.value = value
  | _                      => False

-- A server that is primary in its own view executes the update of a clerk with some number.
def Executes (args : PutAppendArgs) : Event → Prop
  | execute p v args' => v.primary = p ∧ args'.client = args.client ∧ args'.uid = args.uid
  | _                 => False

-- A server executes an update whose own key is `k`.
def Updates (k : String) : Event → Prop
  | execute _ _ args => args.key = k
  | _                => False

instance : DecidablePred (Reads c args v)
  | get .. => inferInstanceAs <| Decidable (_ ∧ _ ∧ _ ∧ _)
  | start .. | ping .. | view .. | execute .. | putAppend .. | forward .. | merge .. | begin .. | gotten .. | done .. =>
    instDecidableFalse

instance : DecidablePred (Executes args)
  | execute .. => inferInstanceAs <| Decidable (_ ∧ _ ∧ _)
  | start .. | ping .. | view .. | get .. | putAppend .. | forward .. | merge .. | begin .. | gotten .. | done .. =>
    instDecidableFalse

instance : DecidablePred (Updates k)
  | execute .. => inferInstanceAs <| Decidable (_ = _)
  | start .. | ping .. | view .. | get .. | putAppend .. | forward .. | merge .. | begin .. | gotten .. | done .. =>
    instDecidableFalse

end Event

abbrev Executed (es : List Event) (args : PutAppendArgs) : Prop :=
  ∃ e ∈ es, e.Executes args

abbrev Updated (es : List Event) (k : String) : Prop :=
  ∃ e ∈ es, e.Updates k

-- A key holds a record only if the update has been executed, or if it has been used as a user's key.
def Recorded (es : List Event) (db : Db) : Prop :=
  ∀ args : PutAppendArgs, args.Numbered → db.read args.record ≠ "" →
    Executed es args ∨ Updated es args.record

section

variable {es es' : List Event} {args : PutAppendArgs} {db : Db} {pb : PBServer}

theorem Executed.mono (h : Executed es args) : Executed (es ++ es') args :=
  have ⟨e, he, h⟩ := h
  ⟨e, List.mem_append_left _ he, h⟩

-- Updates are told apart by their clerk and their number.
theorem Executed.congr (h : Executed es args) (he : args.client = args'.client ∧ args.uid = args'.uid) :
    Executed es args' := by
  have ⟨e, hm, h⟩ := h
  refine ⟨e, hm, ?_⟩
  cases e <;> simp only [Event.Executes] at h ⊢
  rwa [← he.left, ← he.right]

theorem Updated.mono (h : Updated es k) : Updated (es ++ es') k :=
  have ⟨e, he, h⟩ := h
  ⟨e, List.mem_append_left _ he, h⟩

namespace Recorded

theorem empty : Recorded es ∅ :=
  fun _ _ h => absurd rfl h

theorem mono (h : Recorded es db) : Recorded (es ++ es') db :=
  fun args hn hr => h args hn hr |>.imp .mono .mono

theorem execute (h : Recorded es pb.db) (hn : args.Numbered) (he : Executed es args)
    (hu : Updated es args.key) : Recorded es (pb.execute args).1.db := by
  intro args' hn' hr
  by_cases ht : args.Touches args'.record
  case neg =>
    rw [PBServer.execute_read, PutAppendArgs.update_of_not_touches ht] at hr
    exact h args' hn' hr
  case pos =>
    cases ht
    case inl hk => exact .inl <| he.congr <| hn.eq_of_record_eq hn' hk.symm
    case inr hk => exact .inr <| hk.left ▸ hu

theorem merge {content : ForwardArgs} (h : Recorded es pb.db) (hc : Recorded es content.content) :
    Recorded es (pb.processForward content).db := by
  intro args hn hr
  rw [PBServer.processForward_read] at hr
  split at hr
  case isTrue  => exact hc args hn hr
  case isFalse => exact h args hn hr

end Recorded

-- What a reply tells about the events so far.
def Reply.Backed (es : List Event) (c : Nat) : Request → Option (Option Reply) → Prop
  | .get p args, some (some (get r)) =>
    ∃ view, .get c p view args r ∈ es ∧ (r.err ≠ .wrongServer → view.primary = p)
  | .putAppend _ args, some (some (putAppend r)) =>
    r.err = .wrongServer ∨ Executed es args ∨ (r.err = .unset ∧ Updated es args.record)
  | _, _ => True

structure Call.Backed (es : List Event) (c : Nat) (call : Call Request (Option Reply)) : Prop where
  reply   : Reply.Backed es c call.request call.reply
  content : ∀ p args, call.request = .forward p args → Recorded es args.content

-- A server that waits for its backup has executed the update.
def Lock.Backed (es : List Event) : Lock → Prop
  | putAppend _ _ args _ => Executed es args
  | _                    => True

structure Server.Backed (es : List Event) (sv : Server) : Prop where
  lock : sv.lock.Backed es
  db   : Recorded es sv.pb.db

def State.Backed (es : List Event) (s : State) : Prop :=
  s.All (fun _ sv => sv.Backed es) (fun _ => True) (fun _ => True) (Call.Backed es)

theorem Reply.Backed.mono (h : Reply.Backed es c r rep) : Reply.Backed (es ++ es') c r rep := by
  unfold Reply.Backed at h ⊢
  split <;> simp only at h
  case h_1 =>
    have ⟨view, he, hp⟩ := h
    exact ⟨view, List.mem_append_left _ he, hp⟩
  case h_2 => exact h.imp_right <| Or.imp .mono <| And.imp_right .mono
  case h_3 => trivial

theorem Lock.Backed.mono {lock : Lock} (h : lock.Backed es) : lock.Backed (es ++ es') := by
  cases lock
  case putAppend => exact Executed.mono h
  all_goals trivial

theorem Call.Backed.mono {call : Call Request (Option Reply)} (h : Call.Backed es c call) :
    Call.Backed (es ++ es') c call :=
  ⟨h.reply.mono, fun p args he => h.content p args he |>.mono⟩

theorem Call.Backed.unhandled {r : Request} (h : ∀ p args, r = .forward p args → Recorded es args.content) :
    Call.Backed es c ⟨r, none⟩ :=
  ⟨by cases r <;> trivial, h⟩

namespace State.Backed

variable {s : State} {p : String} {c : Nat} {r : Request}

theorem mono (h : s.Backed es) : s.Backed (es ++ es') :=
  All.mono h (fun _ _ _ h => ⟨h.lock.mono, h.db.mono⟩) (fun _ _ _ => id) (fun _ _ _ => .mono)

theorem setServer (p : String) (lock : Lock) (h : s.Backed es) (hl : lock.Backed es) (hd : Recorded es pb.db) :
    (s.setServer p (some ⟨pb, lock⟩)).Backed es :=
  All.setServer h ⟨hl, hd⟩

theorem free (h : s.Backed es) (hd : Recorded es pb.db) :
    (s.setServer p (some ⟨pb, .free⟩)).Backed es :=
  h.setServer p _ trivial hd

theorem answer {rep : Option Reply} (h : s.Backed es)
    (hr : ∀ r old, s.calls[c]? = some ⟨r, old⟩ → Reply.Backed es c r (some rep)) :
    (s.answer c rep).Backed es :=
  All.answer h fun r old hc => ⟨hr r old hc, h.call c ⟨r, old⟩ hc |>.content⟩

theorem reply {rep : Option Reply} (h : s.Backed es) (hc : s.calls.pending c = some r)
    (hr : Reply.Backed es c r (some rep)) : (s.answer c rep).Backed es :=
  h.answer fun r' old ho => by
    cases (Calls.pending_eq_some.mp hc).symm.trans ho
    exact hr

theorem send (h : s.Backed es) (hr : ∀ p args, r ≠ .forward p args) : (s.send r).Backed es :=
  All.send h <| .unhandled fun p args he => absurd he <| hr p args

theorem forward {lock : Nat → Lock} (h : s.Backed es) (hl : (lock s.calls.length).Backed es)
    (hd : Recorded es pb.db) : (s.forward p pb lock).Backed es := by
  refine All.send (h.setServer p _ hl hd) <| .unhandled fun _ _ he => ?_
  cases he
  exact hd

theorem beginOp (h : s.Backed es) : (s.beginOp i ck op).Backed es := by
  simp only [State.beginOp]
  split
  case isTrue  => exact send (All.spawn h trivial) fun _ _ he => by cases he
  case isFalse => exact send (All.spawn h trivial) fun _ _ he => by cases op <;> cases he

end State.Backed

theorem State.Backed.executed {s : State} (hb : s.Backed es) (hs : s.Sound)
    (hr : s.Requests PutAppendArgs.Numbered) (hc : s.calls.pending c = some (.putAppend p args))
    (hi : s.servers p = some ⟨pb, .free⟩)
    (ha : pb.refuse args = none) (he : .execute p pb.view args ∈ es) :
    Executed es args ∧ Recorded es (pb.execute args).1.db := by
  have hn := hr.pending hc
  have hp := hs.isPrimary_iff hi |>.mp <| PBServer.refuse_eq_none.mp ha |>.left
  have hx : Executed es args := ⟨_, he, hp, rfl, rfl⟩
  exact ⟨hx, (hb.server _ _ hi).db.execute hn hx ⟨_, he, rfl⟩⟩

theorem Step.backed (h : Step s a s' es') (hs : s.Sound) (hr : s.Requests PutAppendArgs.Numbered)
    (hb : s.Backed es) : s'.Backed (es ++ es') := by
  have hb : s.Backed (es ++ es') := hb.mono
  cases h
  case vsTick => exact hb.vs
  case start => exact hb.free .empty
  case crash => exact State.All.crash hb
  case tick p pb hi =>
    have hb := hb.setServer p (.ping s.calls.length) trivial (hb.server _ _ hi).db
    exact hb.send fun _ _ he => by cases he
  case makeClerk => exact State.All.makeClerk hb trivial
  case get => exact hb.beginOp
  case putAppend => exact hb.beginOp
  case handlePing hc => exact State.Backed.reply (s := { s with vs := _ }) hb.vs hc trivial
  case handleGet pb hc hi =>
    refine hb.reply hc ⟨pb.view, by simp, fun he => ?_⟩
    exact hs.isPrimary_iff hi |>.mp <| not_not.mp <| mt PBServer.get_err.mpr he
  case refuse hc hi hf =>
    refine hb.reply hc <| PBServer.refuse_eq_some hf |>.imp_right fun h => ?_
    exact (hb.server _ _ hi).db _ (hr.pending hc) h.right |>.imp_right fun hu => ⟨h.left, hu⟩
  case execute hc hi ha _ =>
    have ⟨hx, hd⟩ := hb.executed hs hr hc hi ha (by simp)
    exact hb.free hd |>.reply hc <| .inr <| .inl hx
  case replicate hc hi ha _ =>
    have ⟨hx, hd⟩ := hb.executed hs hr hc hi ha (by simp)
    have hb : (s.answer _ none).Backed _ := hb.reply hc trivial
    exact hb.forward hx hd
  case merge hc hi =>
    have hr := (hb.call _ _ <| Calls.pending_eq_some.mp hc).content _ _ rfl
    exact hb.free ((hb.server _ _ hi).db.merge hr) |>.reply hc trivial
  case view hi _ _        => exact hb.free (hb.server _ _ hi).db
  case viewForward hi _ _ => exact hb.forward trivial (hb.server _ _ hi).db
  case forwarded hi _     => exact hb.free (hb.server _ _ hi).db
  case replicated hi _ =>
    have hb' := hb.server _ _ hi
    refine hb.free hb'.db |>.answer fun r old hc => ?_
    cases (hs.server _ _ hi).lock.right.symm.trans hc
    exact .inr <| .inl hb'.lock
  case updateView th _ _ _ _ _ _ _ =>
    exact State.All.setView hb (fun _ => id) |>.setThread (.server _) trivial |> State.Backed.send
      <| fun _ _ he => by cases hop : th.op <;> simp [hop, Op.request] at he
  case gotten => exact State.All.setThread .returned hb trivial
  case done   => exact State.All.setThread .returned hb trivial
  case retry ck _ _ _ _ _ _ _ _ =>
    exact State.All.setThread (.updateView _) hb trivial |> State.Backed.send
      <| fun _ _ he => by cases he

theorem backed_of_run (r : cluster.Run ts s) : s.Backed (Machine.events ts) := by
  induction r
  case nil => exact .init
  case snoc t r hi =>
    have hb := Step.of t |>.backed (sound_of_run r) (numbered_of_run r) hi
    simpa using hb

theorem State.Backed.reply_of_wait {s : State} {th : Thread} {i : Nat} (h : s.Backed es) (hs : s.Sound)
    (ht : s.threads[i]? = some th)
    (hw : th.wait = .server c) (hr : s.calls.reply c = some rep) :
    ∃ p, Reply.Backed es c (th.op.request p) (some rep) := by
  have ⟨_, hr⟩ := Calls.reply_eq_some.mp hr
  have ⟨p, _, hr'⟩ := hs.thread _ _ ht c hw
  cases hr.symm.trans hr'
  exact ⟨p, h.call _ _ hr |>.reply⟩

theorem Step.handled {v : View} {args : GetArgs} (h : Step s a s' es) (hs : s.Sound) (he : .get c p v args r ∈ es) :
    s'.calls.reply c = some (some (.get r)) ∧ (v.primary = p → r.err ≠ .wrongServer) := by
  cases h <;> simp at he
  case handleGet hc hi =>
    have ⟨hc', hp', hv, ha, hr⟩ := he
    subst hc' hp' hv ha hr
    refine ⟨Calls.reply_answer_self <| Calls.pending_eq_some.mp hc, fun hp he => ?_⟩
    exact PBServer.get_err.mp he <| hs.isPrimary_iff hi |>.mpr hp

-- A call of `Get` is handled once.
theorem get_of_run {args : GetArgs} (r : cluster.Run ts s) (he : .get c p view args rep ∈ Machine.events ts) :
    s.calls.reply c = some (some (.get rep)) ∧ (view.primary = p → rep.err ≠ .wrongServer) := by
  induction r
  case nil => contradiction
  case snoc t r hi =>
    have hs := sound_of_run r
    rw [Machine.events_append, List.mem_append, Machine.events_singleton] at he
    cases he
    case inl he => exact ⟨Step.of t |>.reply hs (hi he).left, (hi he).right⟩
    case inr he => exact Step.of t |>.handled hs he

end

-- A `Get` returns what a server has read that was primary in its own view, and an update returns
-- after such a server has executed it.
structure WorkDone (es new : List Event) : Prop where
  get       : ∀ c args v, .gotten c args v ∈ new → ∃ e ∈ es, e.Reads c args v
  putAppend : ∀ c args, .done c args ∈ new → Executed es args

-- A reply that sends a clerk away with its operation undone. Servers keep their records among the
-- keys of the users, so that an update of a record's key passes for the recorded update.
def Reply.Refuses (es : List Event) : Op → Reply → Prop
  | .get _, get r => r.err = .wrongServer
  | .putAppend args, putAppend r =>
    (r.err = .wrongServer ∨ (r.err = .unset ∧ Updated es args.record)) ∧ ¬Executed es args
  | _, _ => False

instance : Decidable (Reply.Refuses es op rep) := by
  cases op <;> cases rep <;> unfold Reply.Refuses <;> infer_instance

-- Neither loop of a clerk looks at the error in a reply.
def Action.ReturnsEarly (es : List Event) (s : State) : Action → Prop
  | clerkReceive i => ∃ th ∈ s.threads[i]?, ∃ c ∈ th.wait.call,
    ∃ rep ∈ (s.calls.reply c).join, th.wait = .server c ∧ rep.Refuses es th.op
  | _ => False

instance : Decidable (Action.ReturnsEarly es s a) := by
  cases a <;> unfold Action.ReturnsEarly <;> infer_instance

theorem Step.of_gotten (h : Step s a s' es) (he : .gotten c args v ∈ es) : ∃ i th r,
    a = .clerkReceive i ∧ s.threads[i]? = some th ∧ th.wait = .server c ∧ th.op = .get args ∧
    s.calls.reply c = some (some (.get r)) ∧ r.value = v := by
  cases h <;> simp at he
  case gotten ht hw hop hr =>
    have ⟨hc, ha, hv⟩ := he
    subst hc ha
    exact ⟨_, _, _, rfl, ht, hw, hop, hr, hv.symm⟩

theorem Step.of_done (h : Step s a s' es) (he : .done c args ∈ es) : ∃ i th r,
    a = .clerkReceive i ∧ s.threads[i]? = some th ∧ th.wait = .server c ∧ th.op = .putAppend args ∧
    s.calls.reply c = some (some (.putAppend r)) := by
  cases h <;> simp at he
  case done ht hw hop hr =>
    have ⟨hc, ha⟩ := he
    subst hc ha
    exact ⟨_, _, _, rfl, ht, hw, hop, hr⟩

-- A goroutine of a clerk returns with any reply to its operation.
theorem events_of_get {th : Thread} (h : State.step s (.clerkReceive i) = some (s', es))
    (ht : s.threads[i]? = some th) (hw : th.wait = .server c) (hop : th.op = .get args)
    (hr : s.calls.reply c = some (some (.get r))) : .gotten c args r.value ∈ es := by
  simp only [State.step, ht, hw, Wait.call, hr, State.clerkResume, hop, Option.bind_some,
    Option.join_some] at h
  obtain ⟨_, _, h⟩ := Option.bind_eq_some_iff.mp h
  cases h
  simp

theorem events_of_putAppend {th : Thread} (h : State.step s (.clerkReceive i) = some (s', es))
    (ht : s.threads[i]? = some th) (hw : th.wait = .server c) (hop : th.op = .putAppend args)
    (hr : s.calls.reply c = some (some (.putAppend r))) : .done c args ∈ es := by
  simp only [State.step, ht, hw, Wait.call, hr, State.clerkResume, hop, Option.bind_some,
    Option.join_some] at h
  obtain ⟨_, _, h⟩ := Option.bind_eq_some_iff.mp h
  cases h
  simp

theorem Action.ReturnsEarly.intro {s : State} {th : Thread} (ht : s.threads[i]? = some th)
    (hw : th.wait = .server c) (hc : s.calls.reply c = some (some rep)) (hr : rep.Refuses es th.op) :
    ReturnsEarly es s (.clerkReceive i) :=
  ⟨th, ht, c, by simp [hw, Wait.call], rep, by simp [hc], hw, hr⟩

theorem workDone_step {t : Transition} (r : cluster.Run ts t.pre) :
    WorkDone (Machine.events ts) t.events ↔ ¬t.act.ReturnsEarly (Machine.events ts) t.pre where
  mp h hr := by
    generalize ha : t.act = a at hr
    have hv := ha ▸ t.valid
    cases a <;> simp only [Action.ReturnsEarly] at hr
    have ⟨th, ht, c, _, rep, hc, hw, hr⟩ := hr
    have hc := Option.join_eq_some_iff.mp hc
    cases hop : th.op <;> cases rep <;> simp only [hop, Reply.Refuses] at hr
    case get.get =>
      have ⟨e, he, hd⟩ := h.get c _ _ <| events_of_get hv ht hw hop hc
      cases e <;> simp only [Event.Reads] at hd
      have ⟨hp, hi, _, _⟩ := hd
      subst hi
      have ⟨hc', hn⟩ := get_of_run r he
      cases hc'.symm.trans hc
      exact hn hp hr
    case putAppend.putAppend =>
      exact hr.right <| h.putAppend c _ <| events_of_putAppend hv ht hw hop hc
  mpr h := by
    have hb := backed_of_run r
    have hs := sound_of_run r
    constructor
    case get =>
      intro c args v he
      have ⟨i, th, rep, ha, ht, hw, hop, hc, hv⟩ := Step.of t |>.of_gotten he
      have ⟨p, hd⟩ := hb.reply_of_wait hs ht hw hc
      simp only [hop, Op.request, Reply.Backed] at hd
      have ⟨_, he, hp⟩ := hd
      refine ⟨_, he, hp fun hr => h ?_, rfl, rfl, hv⟩
      exact ha ▸ .intro ht hw hc (hop ▸ hr)
    case putAppend =>
      intro c args he
      have ⟨i, th, rep, ha, ht, hw, hop, hc⟩ := Step.of t |>.of_done he
      have ⟨p, hd⟩ := hb.reply_of_wait hs ht hw hc
      simp only [hop, Op.request, Reply.Backed] at hd
      by_contra hx
      refine h <| ha ▸ .intro ht hw hc (hop ▸ ?_)
      exact ⟨hd.imp_right fun hd => hd.resolve_left hx, hx⟩

-- Operations of clerks return after the work has been done, unless a clerk takes a refusal for
-- success.
theorem workDone_iff (r : cluster.Run ts s) :
    (∀ ts₁ t ts₂, ts = ts₁ ++ t :: ts₂ → WorkDone (Machine.events ts₁) t.events) ↔
    ∀ ts₁ t ts₂, ts = ts₁ ++ t :: ts₂ → ¬t.act.ReturnsEarly (Machine.events ts₁) t.pre := by
  have hs ts₁ t ts₂ (h : ts = ts₁ ++ t :: ts₂) := workDone_step (h ▸ r).split_cons.left
  exact ⟨fun h _ _ _ he => hs _ _ _ he |>.mp <| h _ _ _ he,
    fun h _ _ _ he => hs _ _ _ he |>.mpr <| h _ _ _ he⟩

-- A put and a get at the primary of the first view.
theorem workDone_primary :
    let ts := (cluster.trace .init
      [.startServer "a", .tick "a", .handle 0, .receive "a", .tick "a", .handle 1, .receive "a",
        .makeClerk "" 7, .putAppend 0 "k" "v" "Put" 1, .handle 2, .clerkReceive 0, .handle 3,
        .clerkReceive 0, .get 0 "k", .handle 4, .clerkReceive 1]).1
    .gotten 4 ⟨"k"⟩ "v" ∈ Machine.events ts ∧
      ∀ ts₁ t ts₂, ts = ts₁ ++ t :: ts₂ → WorkDone (Machine.events ts₁) t.events := by
  refine ⟨by decide, workDone_iff (cluster.path_trace ..) |>.mpr ?_⟩
  exact List.forall_split_iff.mpr (by decide)

-- A server that is started again after a crash does not know that it is primary, and refuses the
-- `Get` of a clerk, which returns the empty string.
theorem not_workDone_restart :
    ∃ (ts : List Transition) (s : _), cluster.Run ts s ∧ .gotten 2 ⟨"k"⟩ "" ∈ Machine.events ts ∧
      ¬∀ ts₁ t ts₂, ts = ts₁ ++ t :: ts₂ → WorkDone (Machine.events ts₁) t.events := by
  let as : List Action :=
    [.startServer "a", .tick "a", .handle 0, .receive "a", .makeClerk "" 7, .get 0 "k", .handle 1,
      .clerkReceive 0, .crash "a", .startServer "a", .handle 2, .clerkReceive 0]
  refine ⟨_, _, cluster.path_trace .init as, by decide, fun h => ?_⟩
  have hd := List.forall_split_iff.mp h 11 (by decide)
  exact absurd (hd.get 2 ⟨"k"⟩ "" (by decide)) (by decide)

end PBService
