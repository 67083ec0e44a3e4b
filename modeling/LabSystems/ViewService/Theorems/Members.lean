import LabSystems.ViewService.Theorems.Acknowledgement

namespace ViewService

variable {vs vs' : ViewServer} {a : Action} {args : PingArgs} {p : String} {n : Nat}

namespace ViewServer

-- No server is both the primary and the backup, not even with pings of clients among those handled.
abbrev Distinct (vs : ViewServer) : Prop :=
  vs.HasBackup → vs.view.primary ≠ vs.view.backup

-- The pings in reply to which the view server starts a new view.
def Admits (vs : ViewServer) (args : PingArgs) : Prop :=
  vs.view.viewnum = 0 ∨
  vs.IsPrimary args.me ∧ args.viewnum = 0 ∧ vs.HasBackup ∨
  ¬vs.IsPrimary args.me ∧ vs.Acked ∧ (¬vs.HasBackup ∨ vs.IsBackup args.me ∧ args.viewnum = 0)

instance (vs : ViewServer) (args : PingArgs) : Decidable (vs.Admits args) :=
  inferInstanceAs (Decidable (_ ∨ _ ∨ _))

-- The steps by which the view server replaces a primary that has been silent for `n` ticks.
def Deposes (vs : ViewServer) (p : String) (n : Nat) : Action → Prop
  | .ping args => args = ⟨p, 0⟩ ∧ vs.HasBackup
  | .get       => False
  | .tick      => deadPings ≤ n + 1 ∧ vs.Acked

instance (vs : ViewServer) : DecidablePred (vs.Deposes p n) :=
  fun a => by cases a <;> unfold Deposes <;> infer_instance

end ViewServer

-- For how many ticks a primary has been silent after a step.
def silence (p : String) (n : Nat) : Action → Nat
  | .ping args => if args.me = p ∧ args.viewnum ≠ 0 then 0 else n
  | .get       => n
  | .tick      => n + 1

-- The primary, which has been silent for `n` ticks.
structure ViewServer.Serves (vs : ViewServer) (p : String) (n : Nat) : Prop where
  primary : vs.IsPrimary p
  silent  : vs.currentTick = vs.primaryTick + n

namespace Step

theorem distinct (h : Step vs a vs') (hb : vs.Begun) (hd : vs.Distinct) : vs'.Distinct := by
  cases h
  case first hz _         => simp [ViewServer.Distinct, hb hz]
  case restart | timeout | drop => exact fun h => absurd rfl h
  case join ho _ _        => exact fun _ => ho
  case ack | rejoin | refresh | lone | ignore | get | idle => exact hd

-- A backup has been the backup of the same primary, or joins it after its view has been acknowledged.
theorem backup (h : Step vs a vs') (hb : vs.Begun) (hk : vs'.HasBackup) : vs'.view.primary = vs.view.primary ∧
    (vs'.view.backup = vs.view.backup ∨ ∃ args, a = .ping args ∧ vs'.view.backup = args.me ∧
      ¬vs.IsPrimary args.me ∧ ¬vs.HasBackup ∧ vs.Acked) := by
  cases h
  case first hz _ => exact absurd (by simp [hb hz]) hk
  case restart | timeout | drop => exact absurd rfl hk
  case join ho hn ha => exact ⟨rfl, .inr ⟨_, rfl, rfl, ho, hn, ha⟩⟩
  case ack | rejoin | refresh | lone | ignore | get | idle => exact ⟨rfl, .inl rfl⟩

end Step

theorem distinct_of_run (r : server.Run ts vs) : vs.Distinct :=
  r.invariant (I := fun vs => vs.Begun ∧ vs.Distinct) ⟨fun _ => rfl, absurd rfl⟩
    (fun t h => ⟨Step.of t |>.begun h.left, Step.of t |>.distinct h.left h.right⟩) |>.right

namespace ViewServer

-- The backup, which is another server, or no server takes the place of the primary.
theorem promote_primary_ne (hn : p ≠ "") (hd : vs.Distinct) (hp : vs.IsPrimary p) : ¬vs.promote.IsPrimary p := by
  intro hb
  by_cases hk : vs.HasBackup
  case pos => exact hd hk <| hp.trans hb.symm
  case neg => exact hn <| hb.symm.trans <| not_not.mp hk

theorem serves_of_ack (hn : p ≠ "") (hp : vs.IsPrimary p) (hz : n ≠ 0) : (vs.pinged ⟨p, n⟩).Serves p 0 := by
  have hb : ¬(vs.view.viewnum = 0 ∧ ¬vs.HasPrimary) := fun h => h.right fun he => hn <| hp.symm.trans he
  rw [pinged, if_neg hb, if_pos hp, if_neg hz]
  exact ⟨hp, rfl⟩

-- A ping leaves the primary in its place exactly if it does not depose it.
theorem Serves.pinged (hs : vs.Serves p n) (hn : p ≠ "") (hd : vs.Distinct) (args : PingArgs) :
    ((vs.pinged args).IsPrimary p ↔ ¬vs.Deposes p n (.ping args)) ∧
    ((vs.pinged args).IsPrimary p → (vs.pinged args).Serves p (silence p n (.ping args))) := by
  have ⟨hp, hc⟩ := hs
  have other (ho : ¬vs.IsPrimary args.me) : args.me ≠ p := fun h => ho <| hp.trans h.symm
  have h := vs.ping_step args
  generalize vs.pinged args = vs' at h
  cases h
  case first hq => exact absurd (hp.symm.trans <| not_not.mp hq) hn
  case restart hk hq hz =>
    have he : args = ⟨p, 0⟩ := PingArgs.ext (hq.symm.trans hp) hz
    have hb := promote_primary_ne hn hd hp
    exact ⟨iff_of_false hb <| not_not.mpr ⟨he, hk⟩, (absurd · hb)⟩
  case ack _ hq hz =>
    have hs : silence p n (.ping args) = 0 := if_pos ⟨hq.symm.trans hp, hz⟩
    exact ⟨iff_of_true hp fun h => hz <| congrArg PingArgs.viewnum h.left, fun _ => ⟨hp, by simp [hs]⟩⟩
  case lone hk hq hz =>
    have hs : silence p n (.ping args) = n := if_neg fun h => h.right hz
    exact ⟨iff_of_true hp fun h => hk h.right, fun _ => ⟨hp, by simp [hs, hc]⟩⟩
  case join ho | rejoin ho _ _ | refresh ho _ | ignore ho _ =>
    have hs : silence p n (.ping args) = n := if_neg fun h => other ho h.left
    exact ⟨iff_of_true hp fun h => other ho <| congrArg PingArgs.me h.left, fun _ => ⟨hp, by simp [hs, hc]⟩⟩

-- So does a tick, which never drops the primary unless it promotes the backup.
theorem Serves.tick (hs : vs.Serves p n) (hn : p ≠ "") (hd : vs.Distinct) :
    (vs.tick.IsPrimary p ↔ ¬vs.Deposes p n .tick) ∧ (vs.tick.IsPrimary p → vs.tick.Serves p (silence p n .tick)) := by
  have ⟨hp, hc⟩ := hs
  have hsub : uintSub (vs.currentTick + 1) vs.primaryTick = n + 1 := by
    rw [uintSub_of_le (by omega)]
    omega
  simp only [ViewServer.tick, checkPrimary, hsub]
  split
  case isTrue h =>
    have hb : ¬{ vs with currentTick := vs.currentTick + 1 }.promote.IsPrimary p := promote_primary_ne hn hd hp
    exact promote_checkBackup ▸ ⟨iff_of_false hb <| not_not.mpr h, (absurd · hb)⟩
  case isFalse h =>
    have hs : { vs with currentTick := vs.currentTick + 1 }.Serves p (n + 1) := ⟨hp, by simp [hc, Nat.add_assoc]⟩
    simp only [checkBackup]
    split
    case isTrue  => exact ⟨iff_of_true hp h, fun _ => ⟨hs.primary, hs.silent⟩⟩
    case isFalse => exact ⟨iff_of_true hp h, fun _ => hs⟩

-- A ping leaves the view alone exactly if it is none of those which the view server admits.
theorem pinged_view_eq_iff (hb : vs.Begun) : (vs.pinged args).view = vs.view ↔ ¬vs.Admits args := by
  have next {v : View} {q r} : ¬(⟨v.viewnum + 1, q, r⟩ : View) = v := fun h => by
    simpa using congrArg View.viewnum h
  simp only [pinged, Admits]
  split
  case isTrue h => exact iff_of_false next <| not_not.mpr <| .inl h.left
  case isFalse hbeg =>
    have hz : vs.view.viewnum ≠ 0 := fun hz => hbeg ⟨hz, by simp [hb hz]⟩
    split
    case isTrue hp =>
      split
      case isFalse hn => simp [hz, hp, hn]
      case isTrue hn =>
        split
        case isTrue hk  => exact iff_of_false next <| not_not.mpr <| .inr <| .inl ⟨hp, hn, hk⟩
        case isFalse hk => simp [hz, hp, hk]
    case isFalse hp =>
      split
      case isTrue h => exact iff_of_false next <| not_not.mpr <| .inr <| .inr ⟨hp, h.right, .inl h.left⟩
      case isFalse h =>
        have hk (ha : vs.Acked) : vs.HasBackup := not_not.mp fun hk => h ⟨hk, ha⟩
        split
        case isFalse hi =>
          refine iff_of_true rfl ?_
          rintro (h' | h' | ⟨_, ha, h' | h'⟩)
          · exact hz h'
          · exact hp h'.left
          · exact h' <| hk ha
          · exact hi h'.left
        case isTrue hi =>
          split
          case isTrue h  => exact iff_of_false next <| not_not.mpr <| .inr <| .inr ⟨hp, h.right, .inr ⟨hi, h.left⟩⟩
          case isFalse h =>
            refine iff_of_true rfl ?_
            rintro (h' | h' | ⟨_, ha, h' | h'⟩)
            · exact hz h'
            · exact hp h'.left
            · exact h' <| hk ha
            · exact h ⟨h'.right, ha⟩

end ViewServer

end ViewService
