import LabSystems.PBService.Theorems.Invariant
import LabSystems.Replica.Basic

namespace PBService

instance : Update String PutAppendArgs String where
  Touches := PutAppendArgs.Touches
  initial := ""
  update  := PutAppendArgs.update

instance (args : PutAppendArgs) : DecidablePred (Update.Touches args : String → Prop) :=
  inferInstanceAs (DecidablePred args.Touches)

-- What an event does to the databases of the servers.
def Event.replicas : Event → Option (Replicas.Action String PutAppendArgs)
  | start p          => some (.start p)
  | execute p _ args => some (.execute p args)
  | forward c p      => some (.send c p)
  | merge c p _      => some (.merge c p)
  | _                => none

-- Where the data of all servers and in all messages comes from.
def replicas (es : List Event) : Replicas String String PutAppendArgs :=
  es.filterMap Event.replicas |>.foldl .step .init

@[simp]
theorem replicas_nil : replicas [] = .init :=
  rfl

theorem replicas_append {es es' : List Event} :
    replicas (es ++ es') = (es'.filterMap Event.replicas).foldl .step (replicas es) := by
  simp [replicas]

-- A database holds the values that result from histories.
def Db.Reflects (db : Db) (h : Histories String PutAppendArgs) : Prop :=
  ∀ k, db.read k = h.value k ∧ (k ∈ db ↔ h k ≠ [])

namespace Db.Reflects

variable {pb : PBServer} {h h' : Histories String PutAppendArgs} {args : PutAppendArgs}

theorem empty : Reflects ∅ .empty :=
  fun _ => by simp [read, Histories.value, Update.initial]

theorem execute (hr : pb.db.Reflects h) : (pb.execute args).1.db.Reflects (h.execute args) := by
  intro k
  have ⟨hv, hm⟩ := hr k
  refine ⟨?value, ?mem⟩
  case value =>
    rw [PBServer.execute_read, Histories.value_execute, hv]
    split
    case isTrue      => rfl
    case isFalse hnt => exact PutAppendArgs.update_of_not_touches hnt
  case mem =>
    rw [PBServer.mem_execute, hm, ne_eq, ne_eq, Histories.execute_eq_nil, not_and_or, not_not]
    rfl

theorem merge {content : ForwardArgs} (hr : pb.db.Reflects h) (hc : content.content.Reflects h') :
    (pb.processForward content).db.Reflects (h.merge h') := by
  intro k
  have ⟨hv, hm⟩ := hr k
  have ⟨hv', hm'⟩ := hc k
  refine ⟨?value, ?mem⟩
  case value =>
    rw [PBServer.processForward_read, Histories.value_merge, hv, hv']
    by_cases hn : h' k = []
    case pos => rw [if_pos hn, if_neg <| by simp [hm', hn]]
    case neg => rw [if_neg hn, if_pos <| hm'.mpr hn]
  case mem => rw [PBServer.mem_processForward, hm, hm', ne_eq, ne_eq, ne_eq, Histories.merge_eq_nil,
    not_and_or, or_comm]

end Db.Reflects

-- The call by which a server forwards its database, for whose reply it waits.
def Lock.forward : Lock → Option Nat
  | free | ping _ => none
  | tick c | putAppend c _ _ _ => some c

structure Server.Mirrored (r : Replicas String String PutAppendArgs) (p : String) (sv : Server) :
    Prop where
  db   : sv.pb.db.Reflects (r.held p)
  -- As long as a server waits, its database does not change.
  sent : ∀ c, sv.lock.forward = some c → r.sent c = r.held p
  own  : ∀ c client args reply, sv.lock = .putAppend c client args reply → args ∈ r.own p

def State.Mirrored (r : Replicas String String PutAppendArgs) (s : State) : Prop :=
  s.All (fun p sv => sv.Mirrored r p) (fun _ => True) (fun _ => True)
    (fun c call => ∀ p args, call.request = .forward p args → args.content.Reflects (r.sent c))

section

variable {s s' : State} {r r' : Replicas String String PutAppendArgs} {p : String} {pb : PBServer}
  {lock : Lock} {req : Request} {rep : Option Reply}

theorem State.setServer_forward {sv : Option Server} {lock : Nat → Lock} :
    (s.setServer p sv).forward p pb lock = s.forward p pb lock := by
  simp [State.forward, State.setServer, State.send]

theorem Lock.Sound.forward (h : lock.Sound cs p pb) (hf : lock.forward = some c) :
    cs.Carries c (.forward pb.view.backup ⟨pb.db⟩) := by
  cases lock <;> simp only [Lock.forward, Option.some.injEq, reduceCtorEq] at hf <;> subst hf
  case tick      => exact h
  case putAppend => exact h.left

theorem Server.Mirrored.of_db (h : pb.db.Reflects (r.held p)) (hl : lock.forward = none) :
    Server.Mirrored r p ⟨pb, lock⟩ where
  db             := h
  sent _ hc      := by simp [hl] at hc
  own _ _ _ _ he := by
    cases he
    cases hl

namespace State.Mirrored

theorem answer (h : s.Mirrored r) : (s.answer c rep).Mirrored r :=
  All.answer h fun q old hc => h.call c ⟨q, old⟩ hc

theorem send (h : s.Mirrored r) (hr : ∀ p args, req ≠ .forward p args) : (s.send req).Mirrored r :=
  All.send h fun p args he => absurd he <| hr p args

theorem setServer (lock : Lock) (h : s.Mirrored r) (hd : pb.db.Reflects (r.held p))
    (hl : lock.forward = none) : (s.setServer p (some ⟨pb, lock⟩)).Mirrored r :=
  All.setServer h <| .of_db hd hl

-- A server starts, executes an update or merges a copy.
theorem become (h : s.Mirrored r) (hs : r'.sent = r.sent)
    (hq : ∀ q, q ≠ p → r'.held q = r.held q ∧ r'.own q = r.own q)
    (hd : pb.db.Reflects (r'.held p)) : (s.setServer p (some ⟨pb, .free⟩)).Mirrored r' := by
  have hu := All.update p (some ⟨pb, .free⟩) (Q := fun q sv => sv.Mirrored r' q) h ?other ?self
  case other =>
    intro q sv _ hn hm
    have ⟨hh, ho⟩ := hq q hn
    exact ⟨hh ▸ hm.db, hs ▸ hh ▸ hm.sent, ho ▸ hm.own⟩
  case self =>
    intro sv he
    exact Option.some.inj he ▸ Server.Mirrored.of_db hd rfl
  exact ⟨hu.clerk, hu.server, hu.thread, hs ▸ hu.call⟩

theorem start (h : s.Mirrored r) :
    (s.setServer p (some ⟨.startServer p, .free⟩)).Mirrored (r.step (.start p)) := by
  refine h.become rfl (fun q hn => by simp [Replicas.step, hn]) ?_
  simp only [Replicas.step, Function.update_self]
  exact .empty

theorem execute (h : s.Mirrored r) (hi : s.servers p = some ⟨pb, lock⟩) :
    (s.setServer p (some ⟨(pb.execute args).1, .free⟩)).Mirrored (r.step (.execute p args)) := by
  refine h.become rfl (fun q hn => by simp [Replicas.step, hn]) ?_
  simpa [Replicas.step] using (h.server _ _ hi).db.execute

theorem merge (h : s.Mirrored r) (hi : s.servers p = some ⟨pb, lock⟩)
    (hc : s.calls[c]? = some ⟨.forward p args, old⟩) :
    (s.setServer p (some ⟨pb.processForward args, .free⟩)).Mirrored (r.step (.merge c p)) := by
  refine h.become rfl (fun q hn => by simp [Replicas.step, hn]) ?_
  simpa [Replicas.step] using (h.server _ _ hi).db.merge <| h.call _ _ hc _ _ rfl

-- A server sends a copy of its database and waits.
theorem forward (lock : Nat → Lock) (h : s.Mirrored r) (hs : s.Sound)
    (hd : pb.db.Reflects (r.held p)) (hl : (lock s.calls.length).forward = some s.calls.length)
    (ho : ∀ c client args reply, lock s.calls.length = .putAppend c client args reply → args ∈ r.own p) :
    (s.forward p pb lock).Mirrored (r.step (.send s.calls.length p)) := by
  have sent {i : Nat} (hi : i < s.calls.length) :
      (r.step (.send s.calls.length p)).sent i = r.sent i := by
    simp [Replicas.step, Nat.ne_of_lt hi]
  have self : (r.step (.send s.calls.length p)).sent s.calls.length = r.held p := by
    simp [Replicas.step]
  refine All.mono (D := fun c call => ∀ q args, call.request = .forward q args →
      args.content.Reflects ((r.step (.send s.calls.length p)).sent c)) h
    (fun _ _ _ => id) (fun _ _ _ => id) ?call |>.update p _ ?other ?self |>.send ?new
  case call =>
    intro c call hc h
    rwa [sent (List.getElem?_eq_some_iff.mp hc).choose]
  case other =>
    intro q sv hq hn hm
    refine ⟨hm.db, fun c hc => ?_, hm.own⟩
    rw [sent ((hs.server _ _ hq).lock.forward hc).lt]
    exact hm.sent c hc
  case self =>
    intro sv he
    cases he
    refine ⟨hd, fun c hc => ?_, ho⟩
    cases hl.symm.trans hc
    exact self
  case new =>
    intro q args he
    cases he
    exact self ▸ hd

end State.Mirrored

theorem State.Mirrored.beginOp (h : s.Mirrored r) : (s.beginOp i ck op).Mirrored r := by
  simp only [State.beginOp]
  split
  case isTrue  => exact send (All.spawn h trivial) fun _ _ he => by cases he
  case isFalse => exact send (All.spawn h trivial) fun _ _ he => by cases op <;> cases he

theorem Step.mirrored (h : Step s a s' es') (hs : s.Sound) (hm : s.Mirrored (replicas es)) :
    s'.Mirrored (replicas (es ++ es')) := by
  rw [replicas_append]
  cases h
  case vsTick => exact hm.vs
  case start => exact hm.start
  case crash => exact State.All.crash hm
  case tick hi =>
    have hm := hm.setServer (.ping s.calls.length) (hm.server _ _ hi).db rfl
    exact hm.send fun _ _ he => by cases he
  case makeClerk => exact State.All.makeClerk hm trivial
  case get => exact hm.beginOp
  case putAppend => exact hm.beginOp
  case handlePing => exact State.Mirrored.answer (s := { s with vs := _ }) hm.vs
  case handleGet => exact hm.answer
  case refuse => exact hm.answer
  case execute hc hi _ _ => exact hm.execute hi |>.answer
  case replicate c p args pb hc hi _ _ =>
    have hs' : ((s.answer c none).setServer p (some ⟨(pb.execute args).1, .free⟩)).Sound :=
      hs.reply hc |>.free <| by simpa using (hs.server _ _ hi).me
    have hm' : ((s.answer c none).setServer p (some ⟨(pb.execute args).1, .free⟩)).Mirrored _ :=
      hm.answer.execute hi
    have hd : (pb.execute args).1.db.Reflects
        (((replicas es).step (.execute p args)).held p) := by
      simpa [Replicas.step] using (hm.server _ _ hi).db.execute
    have hf := hm'.forward (.putAppend · c args (pb.execute args).2) hs' hd rfl ?own
    case own =>
      intro _ _ _ _ he
      cases he
      simp [Replicas.step]
    have hn : ((s.answer c none).setServer p (some ⟨(pb.execute args).1, .free⟩)).calls.length =
        s.calls.length := by
      simp [State.setServer, State.answer, Calls.answer]
    rwa [State.setServer_forward, hn] at hf
  case merge hc hi => exact hm.merge hi (Calls.pending_eq_some.mp hc) |>.answer
  case view hi _ _ => exact hm.setServer .free (hm.server _ _ hi).db rfl
  case viewForward hi _ _ =>
    exact hm.forward .tick hs (hm.server _ _ hi).db rfl fun _ _ _ _ he => by cases he
  case forwarded hi _ => exact hm.setServer .free (hm.server _ _ hi).db rfl
  case replicated hi _ => exact hm.setServer .free (hm.server _ _ hi).db rfl |>.answer
  case updateView th _ _ _ _ _ _ _ =>
    exact State.All.setView hm (fun _ => id) |>.setThread (.server _) trivial |> State.Mirrored.send
      <| fun _ _ he => by cases hop : th.op <;> simp [hop, Op.request] at he
  case gotten => exact State.All.setThread .returned hm trivial
  case done => exact State.All.setThread .returned hm trivial
  case retry ck _ _ _ _ _ _ _ _ =>
    exact State.All.setThread (.updateView _) hm trivial |> State.Mirrored.send
      <| fun _ _ he => by cases he

theorem mirrored_of_run (r : cluster.Run ts s) : s.Mirrored (replicas (Machine.events ts)) := by
  induction r
  case nil            => exact .init
  case snoc ts t r hi =>
    have hs := Step.of t |>.mirrored (sound_of_run r) hi
    simpa using hs

-- A property of all histories is to be shown of what a step executes and merges.
theorem Step.forall_replicas {P : Histories String PutAppendArgs → Prop} (h : Step s a s' es')
    (hf : (replicas es).Forall P) (empty : P .empty)
    (execute : ∀ p v args, .execute p v args ∈ es' → P (((replicas es).held p).execute args))
    (merge : ∀ c p args, .merge c p args ∈ es' →
      P (((replicas es).held p).merge ((replicas es).sent c))) :
    (replicas (es ++ es')).Forall P := by
  rw [replicas_append]
  cases h
  case start => exact hf.start empty
  case execute p args pb _ _ _ _ => exact hf.execute <| execute p pb.view args (by simp)
  case replicate p args pb _ _ _ _ => exact hf.execute (execute p pb.view args (by simp)) |>.send
  case merge c p args _ _ _ => exact hf.merge <| merge c p args (by simp)
  case viewForward => exact hf.send
  all_goals exact hf

end

end PBService
