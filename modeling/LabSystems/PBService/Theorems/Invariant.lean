import LabSystems.PBService.Theorems.Server
import LabSystems.PBService.Theorems.Step

namespace PBService

open ViewService (View)

-- An invariant that speaks about each server, each clerk with its goroutines and each call on its own.
structure State.All (P : String → Server → Prop) (K : Clerk → Prop) (T : Thread → Prop)
    (C : Nat → Call Request (Option Reply) → Prop) (s : State) : Prop where
  clerk  : ∀ (i : Nat) ck, s.clerks[i]? = some ck → K ck
  server : ∀ p sv, s.servers p = some sv → P p sv
  thread : ∀ (t : Nat) th, s.threads[t]? = some th → T th
  call   : ∀ (c : Nat) call, s.calls[c]? = some call → C c call

namespace State.All

variable {s : State} {P Q : String → Server → Prop} {K : Clerk → Prop} {T U : Thread → Prop}
  {C D : Nat → Call Request (Option Reply) → Prop} {p : String} {c : Nat} {th : Thread}

theorem init : State.init.All P K T C where
  clerk _ _  := by simp [State.init]
  server _ _ := by simp [State.init]
  thread _ _ := by simp [State.init]
  call _ _   := by simp [State.init]

theorem mono (h : s.All P K T C) (hp : ∀ p sv, s.servers p = some sv → P p sv → Q p sv)
    (ht : ∀ (t : Nat) th, s.threads[t]? = some th → T th → U th)
    (hc : ∀ (c : Nat) call, s.calls[c]? = some call → C c call → D c call) : s.All Q K U D where
  clerk          := h.clerk
  server p sv hm := hp p sv hm <| h.server p sv hm
  thread t th hm := ht t th hm <| h.thread t th hm
  call c call hm := hc c call hm <| h.call c call hm

theorem vs (h : s.All P K T C) : State.All P K T C { s with vs := v } :=
  ⟨h.clerk, h.server, h.thread, h.call⟩

theorem makeClerk (h : s.All P K T C) (hk : K ck) :
    State.All P K T C { s with clerks := s.clerks ++ [ck] } :=
  ⟨List.forall_concat h.clerk hk, h.server, h.thread, h.call⟩

theorem setView (h : s.All P K T C) (hk : ∀ ck, K ck → K { ck with view := view }) :
    (s.setView i view).All P K T C :=
  { h with
    clerk := fun j ck hm => by
      simp only [State.setView, List.getElem?_modify] at hm
      have ⟨ck', hm, he⟩ := Option.map_eq_some_iff.mp hm
      split at he
      case isTrue  => exact he ▸ hk ck' (h.clerk j ck' hm)
      case isFalse => exact he ▸ h.clerk j ck' hm
  }

-- What is known about the other servers may change with the server.
theorem update (p : String) (sv : Option Server) (h : s.All P K T C)
    (hq : ∀ q sv, s.servers q = some sv → q ≠ p → P q sv → Q q sv)
    (hp : ∀ sv', sv = some sv' → Q p sv') : (s.setServer p sv).All Q K T C :=
  { h with
    server := fun q sv' hm => by
      by_cases he : q = p
      case pos =>
        subst he
        exact hp sv' <| by simpa [State.setServer] using hm
      case neg =>
        simp only [State.setServer, Function.update_of_ne he] at hm
        exact hq q sv' hm he <| h.server q sv' hm
  }

theorem setServer {sv : Server} (h : s.All P K T C) (hp : P p sv) :
    (s.setServer p (some sv)).All P K T C :=
  h.update p (some sv) (fun _ _ _ _ => id) fun _ he => Option.some.inj he ▸ hp

theorem crash (h : s.All P K T C) : (s.setServer p none).All P K T C :=
  h.update p none (fun _ _ _ _ => id) nofun

theorem spawn (h : s.All P K T C) (ht : T th) : (s.spawn th).All P K T C :=
  { h with thread := List.forall_concat h.thread ht }

theorem setThread (wait : Wait) (h : s.All P K T C) (ht : T { th with wait := wait }) :
    (s.setThread t th wait).All P K T C :=
  { h with thread := List.forall_set (fun i a _ => h.thread i a) ht }

theorem send {r : Request} (h : s.All P K T C) (hc : C s.calls.length ⟨r, none⟩) :
    (s.send r).All P K T C :=
  { h with call := Calls.forall_send h.call hc }

theorem answer {rep : Option Reply} (h : s.All P K T C)
    (hc : ∀ r old, s.calls[c]? = some ⟨r, old⟩ → C c ⟨r, some rep⟩) : (s.answer c rep).All P K T C :=
  { h with call := Calls.forall_answer h.call hc }

end State.All

-- The lock of a server tells which calls it has made and which call it handles.
def Lock.Sound (cs : Calls Request (Option Reply)) (p : String) (pb : PBServer) : Lock → Prop
  | free   => True
  | ping c => cs.Carries c (.ping pb.pingArgs)
  | tick c => cs.Carries c (.forward pb.view.backup ⟨pb.db⟩)
  | putAppend c client args _ => cs.Carries c (.forward pb.view.backup ⟨pb.db⟩) ∧
    cs[client]? = some ⟨.putAppend p args, some none⟩

structure Server.Sound (cs : Calls Request (Option Reply)) (p : String) (sv : Server) : Prop where
  me   : sv.pb.me = p
  lock : sv.lock.Sound cs p sv.pb

-- A goroutine of a clerk waits for the reply to its operation.
def Thread.Sound (cs : Calls Request (Option Reply)) (th : Thread) : Prop :=
  ∀ c, th.wait = .server c → ∃ p, cs.Carries c (th.op.request p)

def State.Sound (s : State) : Prop :=
  s.All (fun p sv => sv.Sound s.calls p) (fun ck => ∃ n : Nat, ck.me = toString n)
    (fun th => th.Sound s.calls) (fun _ _ => True)

section

variable {s s' : State} {cs : Calls Request (Option Reply)} {p : String} {pb : PBServer} {lock : Lock}

theorem Lock.Sound.send (h : lock.Sound cs p pb) : lock.Sound (cs.send r) p pb := by
  cases lock
  case free => trivial
  case ping => exact Calls.Carries.send h
  case tick => exact Calls.Carries.send h
  case putAppend => exact ⟨h.left.send, Calls.send_getElem? h.right⟩

-- No other server answers the call that a server handles.
theorem Lock.Sound.answer (h : lock.Sound cs p pb)
    (hc : ∀ args, cs[c]? ≠ some ⟨.putAppend p args, some none⟩) :
    lock.Sound (cs.answer c rep) p pb := by
  cases lock
  case free => trivial
  case ping => exact Calls.Carries.answer h
  case tick => exact Calls.Carries.answer h
  case putAppend client args _ =>
    refine ⟨h.left.answer, ?_⟩
    have hne : client ≠ c := by
      rintro rfl
      exact hc args h.right
    exact Calls.answer_getElem?_ne hne |>.trans h.right

theorem Thread.Sound.send {th : Thread} (h : th.Sound cs) : th.Sound (cs.send r) :=
  fun c hw => (h c hw).imp fun _ => .send

theorem Thread.Sound.answer {th : Thread} (h : th.Sound cs) : th.Sound (cs.answer c rep) :=
  fun c hw => (h c hw).imp fun _ => .answer

namespace State.Sound

theorem isPrimary_iff (h : s.Sound) (hi : s.servers p = some ⟨pb, lock⟩) :
    pb.IsPrimary ↔ pb.view.primary = p := by
  rw [PBServer.IsPrimary, (h.server _ _ hi).me]

theorem answer (h : s.Sound) (hc : ∀ p sv, s.servers p = some sv → sv.lock ≠ .free →
    ∀ args, s.calls[c]? ≠ some ⟨.putAppend p args, some none⟩) : (s.answer c rep).Sound := by
  refine All.mono h (fun p sv hm h => ⟨h.me, ?_⟩) (fun _ _ _ => .answer) (fun _ _ _ => id)
    |>.answer fun _ _ _ => trivial
  by_cases hl : sv.lock = .free
  case pos => simp [hl, Lock.Sound]
  case neg => exact h.lock.answer <| hc p sv hm hl

theorem reply (h : s.Sound) (hc : s.calls.pending c = some r) : (s.answer c rep).Sound :=
  h.answer fun _ _ _ _ _ he => by simp [Calls.pending_eq_some.mp hc] at he

-- All that held before a call is made holds after it.
theorem grow (h : s.Sound) (r : Request) :
    s.All (fun p sv => sv.Sound (s.calls.send r) p) (fun ck => ∃ n : Nat, ck.me = toString n)
      (fun th => th.Sound (s.calls.send r)) (fun _ _ => True) :=
  All.mono h (fun _ _ _ h => ⟨h.me, h.lock.send⟩) (fun _ _ _ => .send) (fun _ _ _ => id)

-- A server waits for a call that it has just made.
theorem wait (lock : Lock) {r : Request} (h : s.Sound) (hm : pb.me = p)
    (hl : lock.Sound (s.calls.send r) p pb) : ((s.setServer p (some ⟨pb, lock⟩)).send r).Sound :=
  h.grow r |>.setServer ⟨hm, hl⟩ |>.send trivial

theorem free (h : s.Sound) (hm : pb.me = p) : (s.setServer p (some ⟨pb, .free⟩)).Sound :=
  h.setServer ⟨hm, trivial⟩

-- A goroutine sends its operation to a server.
theorem serve : Thread.Sound (cs.send (op.request p)) ⟨i, op, .server cs.length⟩ := by
  intro c hc
  cases hc
  exact ⟨_, Calls.carries_self⟩

theorem beginOp {ck : Clerk} {op : Op} (h : s.Sound) : (s.beginOp i ck op).Sound := by
  simp only [State.beginOp]
  split
  case isTrue  => exact h.grow _ |>.spawn (fun _ hc => by cases hc) |>.send trivial
  case isFalse => exact h.grow _ |>.spawn serve |>.send trivial

end State.Sound

theorem Step.sound (h : Step s a s' es) (hs : s.Sound) : s'.Sound := by
  cases h
  case vsTick => exact hs.vs
  case start  => exact hs.free rfl
  case crash  => exact State.All.crash hs
  case tick hi =>
    exact hs.wait (.ping _) (hs.server _ _ hi).me Calls.carries_self
  case makeClerk => exact State.All.makeClerk hs ⟨_, rfl⟩
  case get => exact hs.beginOp
  case putAppend => exact hs.beginOp
  case handlePing hc => exact State.Sound.reply (s := { s with vs := _ }) hs.vs hc
  case handleGet hc _ => exact hs.reply hc
  case refuse hc _ _ => exact hs.reply hc
  case execute hc hi _ _ => exact State.Sound.reply (hs.free <| by simpa using (hs.server _ _ hi).me) hc
  case replicate hc hi _ _ =>
    refine hs.reply hc |>.wait (.putAppend _ _ _ _) (by simpa using (hs.server _ _ hi).me)
      ⟨by simpa using Calls.carries_self, ?_⟩
    exact Calls.send_getElem? <| Calls.answer_self <| Calls.pending_eq_some.mp hc
  case merge hc hi => exact State.Sound.reply (hs.free <| by simpa using (hs.server _ _ hi).me) hc
  case view hi _ _ => exact hs.free (hs.server _ _ hi).me
  case viewForward hi _ _ =>
    exact hs.wait (.tick _) (hs.server _ _ hi).me Calls.carries_self
  case forwarded hi _ => exact hs.free (hs.server _ _ hi).me
  case replicated p pb _ client _ _ _ hi _ =>
    have hs' := hs.server _ _ hi
    refine hs.free hs'.me |>.answer fun q sv hq hl args' hc => ?_
    cases hs'.lock.right.symm.trans hc
    simp only [State.setServer, Function.update_self, Option.some.injEq] at hq
    exact hl <| hq ▸ rfl
  case updateView th ck _ result _ _ _ _ =>
    exact hs.grow (th.op.request (Reply.view ck.view result).primary) |>.setView (fun _ => id)
      |>.setThread (.server _) State.Sound.serve |>.send trivial
  case gotten => exact hs.setThread .returned fun _ hc => by cases hc
  case done   => exact hs.setThread .returned fun _ hc => by cases hc
  case retry ck _ _ _ _ _ _ _ _ =>
    exact hs.grow (.ping ⟨ck.name, ck.view.viewnum⟩)
      |>.setThread (.updateView _) (fun _ hc => by cases hc) |>.send trivial

-- A reply that has been sent stays what it is.
theorem Step.reply (h : Step s a s' es) (hs : s.Sound) (hr : s.calls.reply c = some (some rep)) :
    s'.calls.reply c = some (some rep) := by
  have ⟨_, hc⟩ := Calls.reply_eq_some.mp hr
  have hp {i r} (hi : s.calls.pending i = some r) {rep'} :
      (s.calls.answer i rep').reply c = some (some rep) := by
    refine Calls.reply_answer_ne (fun he => ?_) hr
    cases (Calls.pending_eq_some.mp hi).symm.trans (he ▸ hc)
  cases h
  case vsTick | start | crash | makeClerk | view | forwarded | gotten | done => exact hr
  case tick | viewForward | updateView | retry => exact Calls.reply_send hr
  case handlePing hi | handleGet hi _ | refuse hi _ _ | execute hi _ _ _ | merge hi _ => exact hp hi
  case replicate hi _ _ _ => exact Calls.reply_send <| hp hi
  case replicated hi _ =>
    refine Calls.reply_answer_ne (fun he => ?_) hr
    cases (hs.server _ _ hi).lock.right.symm.trans (he ▸ hc)
  case get | putAppend =>
    simp only [State.beginOp]
    split <;> exact Calls.reply_send hr

theorem sound_of_run (r : cluster.Run ts s) : s.Sound :=
  r.invariant .init (Step.of · |>.sound ·)

-- The servers have names.
theorem Step.servers_empty (h : Step s a s' es) (hn : s.servers "" = none) :
    s'.servers "" = none := by
  have other {p sv sv'} (hp : s.servers p = some sv) : (s.setServer p sv').servers "" = none := by
    have hne : "" ≠ p := by
      rintro rfl
      cases hn.symm.trans hp
    exact Function.update_of_ne hne _ _ |>.trans hn
  cases h
  case start hp _ => exact Function.update_of_ne (Ne.symm hp) _ _ |>.trans hn
  case crash hp | tick hp | execute hp _ _ | replicate hp _ _ | merge hp | view hp _ _ |
    viewForward hp _ _ | forwarded hp _ | replicated hp _ => exact other hp
  case get | putAppend =>
    simp only [State.beginOp]
    split <;> exact hn
  all_goals exact hn

theorem servers_empty_of_run (r : cluster.Run ts s) : s.servers "" = none :=
  r.invariant (I := fun s => s.servers "" = none) rfl (Step.of · |>.servers_empty ·)

-- All updates that are under way have a property which they had when a clerk began them.
def State.Requests (G : PutAppendArgs → Prop) (s : State) : Prop :=
  s.All (fun _ _ => True) (fun _ => True) (fun th => ∀ args, th.op = .putAppend args → G args)
    (fun _ call => ∀ p args, call.request = .putAppend p args → G args)

namespace State.Requests

variable {G : PutAppendArgs → Prop} {r : Request}

theorem mono {G' : PutAppendArgs → Prop} (h : s.Requests G) (hg : ∀ args, G args → G' args) :
    s.Requests G' :=
  All.mono h (fun _ _ _ => id) (fun _ _ _ h args he => hg args <| h args he)
    (fun _ _ _ h p args he => hg args <| h p args he)

theorem pending (h : s.Requests G) (hc : s.calls.pending c = some (.putAppend p args)) : G args :=
  h.call _ _ (Calls.pending_eq_some.mp hc) p args rfl

theorem setServer {sv : Option Server} (h : s.Requests G) : (s.setServer p sv).Requests G :=
  All.update p sv h (fun _ _ _ _ _ => trivial) (fun _ _ => trivial)

theorem answer {rep : Option Reply} (h : s.Requests G) : (s.answer c rep).Requests G :=
  All.answer h fun r old hc => h.call c ⟨r, old⟩ hc

theorem send (h : s.Requests G) (hr : ∀ p args, r = .putAppend p args → G args) :
    (s.send r).Requests G :=
  All.send h hr

theorem request {op : Op} (hg : ∀ args, op = .putAppend args → G args) (p : String) :
    ∀ q args, op.request p = .putAppend q args → G args := by
  intro _ _ he
  cases op <;> cases he
  exact hg _ rfl

theorem beginOp {op : Op} (h : s.Requests G) (hg : ∀ args, op = .putAppend args → G args) :
    (s.beginOp i ck op).Requests G := by
  simp only [State.beginOp]
  split
  case isTrue  => exact send (All.spawn h hg) fun _ _ he => by cases he
  case isFalse => exact send (All.spawn h hg) <| request hg _

end State.Requests

theorem Step.requests {G : PutAppendArgs → Prop} (h : Step s a s' es)
    (hg : ∀ args, .begin args ∈ es → G args) (hr : s.Requests G) : s'.Requests G := by
  cases h
  case vsTick => exact hr.vs
  case makeClerk => exact State.All.makeClerk hr trivial
  case get => exact hr.beginOp fun _ he => by cases he
  case putAppend =>
    refine hr.beginOp fun args he => ?_
    cases he
    exact hg _ <| by simp
  case handlePing => exact State.Requests.answer (s := { s with vs := _ }) hr.vs
  case handleGet | refuse => exact hr.answer
  case start | crash | view | forwarded => exact hr.setServer
  case execute | merge | replicated => exact hr.setServer.answer
  case tick | viewForward => exact hr.setServer.send fun _ _ he => by cases he
  case replicate => exact hr.answer.setServer.send fun _ _ he => by cases he
  case updateView ht _ _ _ =>
    have ht := hr.thread _ _ ht
    exact State.All.setView hr (fun _ => id) |>.setThread (.server _) ht |> State.Requests.send
      <| State.Requests.request ht _
  case gotten ht _ _ _ | done ht _ _ _ =>
    have ht := hr.thread _ _ ht
    exact State.All.setThread .returned hr ht
  case retry ht _ _ _ _ _ =>
    have ht := hr.thread _ _ ht
    exact State.All.setThread (.updateView _) hr ht |> State.Requests.send <| fun _ _ he => by cases he

theorem begun_of_run (r : cluster.Run ts s) : s.Requests (.begin · ∈ Machine.events ts) := by
  induction r
  case nil => exact .init
  case snoc t r hi =>
    refine Step.of t |>.requests (fun args he => ?_) <| hi.mono fun args he => ?_
    all_goals simp [he]

theorem numbered_of_begin (r : cluster.Run ts s) (hm : .begin args ∈ Machine.events ts) :
    args.Numbered := by
  induction r
  case nil => contradiction
  case snoc t r hi =>
    rw [Machine.events_append, List.mem_append, Machine.events_singleton] at hm
    cases hm
    case inl hm => exact hi hm
    case inr hm =>
      have h := Step.of t
      generalize t.events = es, t.act = a, t.post = s' at h hm
      cases h <;> simp at hm
      case putAppend hk =>
        subst hm
        exact ⟨(sound_of_run r).clerk _ _ hk, _, rfl⟩

theorem numbered_of_run (r : cluster.Run ts s) : s.Requests PutAppendArgs.Numbered :=
  begun_of_run r |>.mono fun _ => numbered_of_begin r

end

end PBService
