import Mathlib.Data.Finset.Card
import Mathlib.Data.Prod.Lex
import LabSystems.Ssdb.Theorems.Converges

namespace Ssdb

open Ordered (Map)

namespace Client

def Position.rank : Position → Nat
  | iterate count => if 1000 < count + 1 then 3 else 0
  | copy          => 1
  | sync          => 2
  | rawGet _      => 3

-- The entries that are left to copy.
def remaining (c : Client) (s : SSDBImpl) : Nat :=
  (c.iter.elim s.ldb (·.cursor.map)).keys.filter (c.copyStart < ·) |>.card

-- How much a thread has to do: there are logs to find, a copy to end, and entries to copy.
def work (c : Client) (s : SSDBImpl) : Nat ×ₗ Nat ×ₗ Nat ×ₗ Nat :=
  toLex (s.binlogs.lastSeq.toNat - c.lastSeq.toNat, toLex (if c.status = .copy then 1 else 0,
    toLex (c.remaining s, c.position.rank)))

variable {c c' : Client} {s : SSDBImpl}

theorem work_lt_of_find {log : Binlog} (h : c'.lastSeq = log.seq) (hf : c.Finds s log) (hw : s.Written) :
    c'.work s < c.work s := by
  refine Prod.Lex.toLex_lt_toLex.mpr <| .inl ?_
  have hlt := UInt64.lt_iff_toNat_lt.mp hf.lt
  have hle := UInt64.le_iff_toNat_le.mp <| hf.le hw
  simp only [h]
  omega

theorem work_lt_of_rank (hl : c'.lastSeq = c.lastSeq) (hs : c'.status = c.status)
    (hr : c'.remaining s = c.remaining s) (hp : c'.position.rank < c.position.rank) : c'.work s < c.work s := by
  simp only [work, hl, hs, hr, Prod.Lex.toLex_lt_toLex, true_and]
  exact .inr <| .inr <| .inr hp

theorem rank_returned : c.returned.position.rank ≤ 2 := by
  simp only [returned]
  split <;> simp [Position.rank]

theorem Step.work_lt (h : Step c s c' ms) (hw : s.Written) (hc : c.Sound s) :
    c' = c ∧ ms = [] ∨ c'.work s < c.work s := by
  cases h
  case missing hp hl =>
    by_cases hst : c.status = .copy
    case pos => exact .inr <| work_lt_of_rank rfl rfl rfl <| by simp [returned, hst, hp, Position.rank]
    case neg =>
      refine .inl ⟨?_, rfl⟩
      rw [returned, if_neg hst, ← hp]
  case drop hf _ _        => exact .inr <| work_lt_of_find rfl hf hw
  case set hf _ _         => exact .inr <| work_lt_of_find rfl hf hw
  case del hf _ _         => exact .inr <| work_lt_of_find rfl hf hw
  case send hp _ | skip hp _ =>
    exact .inr <| work_lt_of_rank rfl rfl rfl <| rank_returned.trans_lt <| by simp [hp, Position.rank]
  case enter hp =>
    refine .inr <| work_lt_of_rank rfl rfl ?_ <| by simp [hp, Position.rank]
    cases hi : c.iter
    case none   => simp [remaining, hi, SSDBImpl.at_iterator.right, copyStart]
    case some _ => simp [remaining, hi, copyStart]
  case pause hp hf => exact .inr <| work_lt_of_rank rfl rfl rfl <| by simp [hp, Position.rank, hf]
  case copy it key val hp hi hk he =>
    obtain ⟨hg, hlt, _⟩ := Map.first_eq_some.mp <| (hc.iter it hi).left.symm.trans he
    have hst : copyStart { c with lastKey := encodeKvKey key } = encodeKvKey key :=
      if_neg <| by simp [encodeKvKey]
    simp only [work, Prod.Lex.toLex_lt_toLex, true_and]
    refine .inr <| .inr <| .inr <| .inl <| Finset.card_lt_card <| Finset.ssubset_iff_of_subset ?_ |>.mpr
      ⟨encodeKvKey key, ?_, ?_⟩
    case refine_1 =>
      intro k hm
      simp only [hi, Option.elim_some, Iterator.map_next, Finset.mem_filter] at hm ⊢
      exact ⟨hm.left, hlt.trans <| hst ▸ hm.right⟩
    case refine_2 =>
      simp only [hi, Option.elim_some, Finset.mem_filter, Map.mem_keys, hg, Option.isSome_some, true_and]
      exact hlt
    case refine_3 =>
      rw [Finset.mem_filter]
      exact fun hm => lt_irrefl _ <| hst ▸ hm.right
  case copyEnd hp hi he =>
    have hst := hc.copy <| .inr ⟨_, hp⟩
    simp only [work, hst, Prod.Lex.toLex_lt_toLex, true_and]
    exact .inr <| .inr <| .inl <| by simp

end Client

namespace Replication

variable {id : Bytes} {h : id.length < 128} {s : Replication} {c c' : Client}

theorem path_work (hc : s.client = some c) (hs : c.step s.master = some (c', ms)) :
    ∃ t : Transition id h, t.pre = s ∧ t.act = .work ∧
      t.post = { s with client := c', channel := s.channel ++ ms } := by
  refine ⟨⟨s, .work, [], _, ?_⟩, rfl, rfl, rfl⟩
  simp [replication, Replication.step, hc, hs]

theorem path_receive (hc : s.channel = m :: ms) :
    ∃ t : Transition id h, t.pre = s ∧ t.act = .receive ∧
      t.post = { s with slave := s.slave.proc true m |>.1, channel := ms } := by
  refine ⟨⟨s, .receive, [], _, ?_⟩, rfl, rfl, rfl⟩
  simp [replication, Replication.step, hc]

-- The steps by which everything is sent and received.
def Settling (ts : List (Transition id h)) : Prop :=
  ∀ t ∈ ts, t.act = .work ∨ t.act = .receive

theorem exists_received (hc : s.client = some c) (hs : c.step s.master = some (c, [])) :
    ∃ (ts : List (Transition id h)) (s' : Replication), (replication id h).Path s ts s' ∧ Settling ts ∧
      s'.Idle ∧ s'.master = s.master := by
  generalize hm : s.channel = ms
  induction ms generalizing s
  case nil => exact ⟨[], s, .nil, by simp [Settling], ⟨hm, c, hc, hs⟩, rfl⟩
  case cons m ms hi =>
    have ⟨t, hp, ha, he⟩ : ∃ t : Transition id h, _ := path_receive hm
    have ⟨ts, s', p, hs, hi, hm⟩ := hi (s := t.post) (by rw [he]; exact hc) (by rw [he]; exact hs) (by rw [he])
    refine ⟨[t] ++ ts, s', hp ▸ (Machine.Path.single t).trans p, ?_, hi, by rw [hm, he]⟩
    simpa [Settling, ha] using hs

-- When the master does not write any more, everything is sent and received in the end.
theorem exists_idle (hw : s.master.Written) (hc : s.client = some c) (hs : c.Sound s.master) :
    ∃ (ts : List (Transition id h)) (s' : Replication), (replication id h).Path s ts s' ∧ Settling ts ∧
      s'.Idle ∧ s'.master = s.master := by
  generalize hk : c.work s.master = k
  induction k using WellFoundedLT.induction generalizing s c
  case ind k hi =>
    have ⟨c', ms, hstep⟩ := hs.exists_step hw
    have hstep' := Client.Step.of hw hs hstep
    cases hstep'.work_lt hw hs
    case inl he => exact exists_received hc <| by rw [hstep, he.left, he.right]
    case inr hlt =>
      have ⟨t, hp, ha, he⟩ : ∃ t : Transition id h, _ := path_work hc hstep
      have ⟨ts, s', p, hset, hidle, hm⟩ := hi _ (hk ▸ hlt) (s := t.post) (c := c') (by rw [he]; exact hw)
        (by rw [he]) (by rw [he]; exact hstep'.sound hw hs) (by rw [he])
      refine ⟨[t] ++ ts, s', hp ▸ (Machine.Path.single t).trans p, ?_, hidle, by rw [hm, he]⟩
      simpa [Settling, ha] using hset

end Replication

end Ssdb
