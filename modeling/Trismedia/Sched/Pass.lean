import Trismedia.Hashtab.Runs
import Trismedia.Sched.Runs
/-!
# One pass of `tris_sched_runq`

`RunqPass limit con turns con'` is a pass whose callbacks touch the queue
through their return value only: each turn calls the callback of one
entry and takes up what it returned. `PassGood` is what a pass is for.
Its parts hold of every pass from every reachable state, save one: the
delay goes through an `unsigned int` on its way into a `timeval`, so a
negative one puts the entry off by 49 days. `ReschedExact` is when that
makes no difference.
-/


namespace Trismedia

namespace Sched

open Heap Hashtab

/-- One turn of the loop: the entry called and what it held then, what
the callback returned and when, and the context after it. -/
structure Turn where
  ptr : Ptr
  entry : Entry
  res : ℤ
  now : Clock
  after : SchedContext

/-- When the entry of a turn was due, in microseconds. -/
def Turn.due (t : Turn) : ℤ := t.entry.when.micros

/-- The loop of `tris_sched_runq`, turn by turn. -/
inductive RunqPass (limit : Timeval) : SchedContext → List Turn → SchedContext → Prop
  | done {con con'} : runqNext con limit = some (con', none) → RunqPass limit con [] con'
  | turn {con con₁ con₂ con' p e res env turns} : runqNext con limit = some (con₁, some p) →
      con₁.mem p = some e → IsInt res → con₁.schedqHt.object env.addr = none →
      runqReturn con₁ p res env = some con₂ → RunqPass limit con₂ turns con' →
      RunqPass limit con (⟨p, e, res, env.now, con₂⟩ :: turns) con'

/-- **What a pass begun at `now₀` is for.** -/
structure PassGood (now₀ : Clock) (con : SchedContext) (turns : List Turn) (con' : SchedContext) :
    Prop where
  /-- The callbacks run in the order of their due times. -/
  order : turns.Pairwise fun t u => t.due ≤ u.due
  /-- What is due within the millisecond is run, -/
  due_runs : ∀ q ∈ queued con, (whenOf con.mem q).micros < now₀.tv.micros + 1000 →
    ∃ t ∈ turns, t.ptr = q ∧ t.entry.id = idOf con.mem q
  /-- and nothing else. -/
  only_due : ∀ t ∈ turns, t.due < now₀.tv.micros + 1000
  not_due : ∀ q ∈ queued con, now₀.tv.micros + 1000 ≤ (whenOf con.mem q).micros →
    ∀ t ∈ turns, t.ptr ≠ q
  /-- An entry that returned `0` is gone. -/
  gone : ∀ before t after, turns = before ++ t :: after → t.res = 0 →
    t.ptr ∉ queued con' ∧ ∀ u ∈ after, u.ptr ≠ t.ptr
  /-- An entry that returned something else is queued again, with its id,
  as many milliseconds later as was chosen but not before now. -/
  resched : ∀ t ∈ turns, t.res ≠ 0 → t.ptr ∈ queued t.after ∧ ∃ e, t.after.mem t.ptr = some e ∧
    e.id = t.entry.id ∧
    e.when.micros = max t.now.tv.micros (t.due + 1000 * chosenDelay t.entry t.res)

/-- **When the detour through `unsigned int` makes no difference** to an
entry due at `due`: the delay is not negative, or the entry is so late
that `2 ^ 32` milliseconds more are over as well. A due time of zero is
taken for none and replaced by the current time. -/
def ReschedExact (due delay now : ℤ) : Prop :=
  (due ≠ 0 ∧ (0 ≤ delay ∨ due + 1000 * (delay + 2 ^ 32) ≤ now)) ∨
  (due = 0 ∧ (delay = 0 ∨ (now = 0 ∧ 0 ≤ delay)))

instance (due delay now : ℤ) : Decidable (ReschedExact due delay now) :=
  inferInstanceAs (Decidable (_ ∨ _))

variable {con con' con₁ con₂ : SchedContext} {out : Multiset Ptr} {p : Ptr} {e : Entry} {res : ℤ}
variable {env : Env} {limit : Timeval} {turns : List Turn} {now₀ : Clock}

/-! ## The new due time -/

theorem schedSettime_micros {t : Timeval} (ht : t.Normal) (when : ℤ) (now : Clock) :
    (schedSettime t when now.tv).micros = max now.tv.micros
      ((if t.micros = 0 then now.tv.micros else t.micros) + 1000 * (toUnsigned when : ℤ)) := by
  have hbase : (if trisTvzero t then now.tv else t).Normal ∧
      (if trisTvzero t then now.tv else t).micros =
        if t.micros = 0 then now.tv.micros else t.micros := by
    rcases eq_or_ne t.micros 0 with hz | hne
    · rw [if_pos ((trisTvzero_iff ht).2 hz), if_pos hz]
      exact ⟨now.normal, rfl⟩
    · rw [if_neg fun hz => hne ((trisTvzero_iff ht).1 hz), if_neg hne]
      exact ⟨ht, rfl⟩
  obtain ⟨hnormal, hmicros⟩ := hbase
  have hsamp := trisSamp2tv_normal (toUnsigned when)
  have hadd := trisTvadd_micros hnormal hsamp
  rw [hmicros, trisSamp2tv_micros] at hadd
  have hcmp := trisTvcmp_neg_iff (trisTvadd_normal hnormal hsamp) now.normal
  rw [hadd] at hcmp
  unfold schedSettime
  generalize (if trisTvzero t then now.tv else t) = base at *
  dsimp only
  split
  · rename_i hlt
    exact (max_eq_left (hcmp.1 hlt).le).symm
  · rename_i hge
    rw [hadd]
    exact (max_eq_right (not_lt.1 fun h => hge (hcmp.2 h))).symm

/-- The new time is never before the old one. -/
theorem le_schedSettime_micros (he : EntryOk e) (when : ℤ) (now : Clock) :
    e.when.micros ≤ (schedSettime e.when when now.tv).micros := by
  have hnow := now.micros_nonneg
  rw [schedSettime_micros he.normal]
  split_ifs <;> omega

theorem le_schedSettime_now (he : EntryOk e) (when : ℤ) (now : Clock) :
    now.tv.micros ≤ (schedSettime e.when when now.tv).micros := by
  rw [schedSettime_micros he.normal]
  exact le_max_left _ _

/-- **The new time is the one wanted exactly under the condition.** -/
theorem schedSettime_exact_iff {t : Timeval} (ht : t.Normal) {when : ℤ} (hwhen : IsInt when)
    (now : Clock) :
    (schedSettime t when now.tv).micros = max now.tv.micros (t.micros + 1000 * when) ↔
      ReschedExact t.micros when now.tv.micros := by
  have hnow := now.micros_nonneg
  obtain ⟨hlo, hhi⟩ := hwhen
  rw [schedSettime_micros ht]
  unfold ReschedExact
  rcases lt_or_ge when 0 with hneg | hpos
  · rw [toUnsigned_of_neg hneg hlo]
    split_ifs <;> omega
  · rw [toUnsigned_of_nonneg hpos hhi]
    split_ifs <;> omega

/-! ## One turn -/

/-- What one turn does to the queue: the entry called is the first one
due; it leaves the queue for good, or is back with its new time. -/
structure TurnDoes (limit : Timeval) (con : SchedContext) (p : Ptr) (e : Entry) (res : ℤ)
    (now : Clock) (con₂ : SchedContext) : Prop where
  mem : p ∈ queued con
  entry : con.mem p = some e
  due : trisTvcmp e.when limit < 0
  first : ∀ q ∈ queued con, trisTvcmp e.when (whenOf con.mem q) ≤ 0
  frame : ∀ q ∈ queued con, q ≠ p → q ∈ queued con₂ ∧ con₂.mem q = con.mem q
  only : ∀ q ∈ queued con₂, q ∈ queued con
  zero : res = 0 → p ∉ queued con₂
  again : res ≠ 0 → p ∈ queued con₂ ∧
    con₂.mem p = some { e with when := schedSettime e.when (chosenDelay e res) now.tv }

theorem turn_spec (hL : Ledger con out) (hE : EntriesOk con out)
    (hnext : runqNext con limit = some (con₁, some p)) (he : con₁.mem p = some e)
    (hfresh : con₁.schedqHt.object env.addr = none) (hret : runqReturn con₁ p res env = some con₂) :
    Ledger con₂ out ∧ EntriesOk con₂ out ∧ TurnDoes limit con p e res env.now con₂ := by
  obtain ⟨s, hq⟩ := hL.queue
  rcases runqNext_spec hq limit with ⟨heq, -⟩ | ⟨p', con', heq, hq', hsame, hqueued, hdue, hfirst⟩
  · rw [hnext] at heq
    simp at heq
  rw [hnext, Option.some.injEq, Prod.mk.injEq, Option.some.injEq] at heq
  obtain ⟨rfl, rfl⟩ := heq
  have htaken : Taken con s p con₁ := ⟨hq', hsame, hqueued⟩
  have hL₁ := htaken.ledger hL
  have hE₁ := htaken.entries hE
  obtain ⟨con₂', hret', hL₂, -, -, hE₂⟩ := runqReturn_ledger hL₁ res hfresh
  rw [hret, Option.some.injEq] at hret'
  subst hret'
  have hmem : con.mem p = some e := hsame.mem ▸ he
  have hwhen : whenOf con.mem p = e.when := by
    rw [whenOf, hmem]
    rfl
  rw [hwhen] at hdue hfirst
  have hp : p ∉ queued con₁ := hL₁.out_notMem.1
  refine ⟨hL₂, hE₂ hE₁, ?_⟩
  rcases eq_or_ne res 0 with rfl | hres
  · obtain ⟨-, hq₂, -, hmem₂, -⟩ := schedRelease_spec hq' hp
    have hcon₂ : con₂ = schedRelease con₁ p := by
      rw [runqReturn, if_neg (by simp)] at hret
      exact (Option.some.inj hret).symm
    rw [← hcon₂] at hq₂ hmem₂
    refine ⟨hqueued ▸ Multiset.mem_cons_self _ _, hmem, hdue, hfirst, fun q hqq hqp => ?_,
      fun q hqq => ?_, fun _ => hq₂ ▸ hp, fun h => absurd rfl h⟩
    · rw [hqueued] at hqq
      rw [hq₂, hmem₂ q hqp, hsame.mem]
      exact ⟨(Multiset.mem_cons.1 hqq).resolve_left hqp, rfl⟩
    · rw [hq₂] at hqq
      exact hqueued ▸ Multiset.mem_cons_of_mem hqq
  · have hset := setWhen_sameQueue con₁ p res env.now
    have hmem₁ : ∀ q, q ≠ p → (setWhen con₁ p res env.now).mem q = con₁.mem q :=
      fun q hqp => Function.update_of_ne hqp _ _
    have hL' : Ledger (setWhen con₁ p res env.now) (p ::ₘ out) :=
      hL₁.write hset rfl (by simp [setWhen]) hmem₁
    obtain ⟨con₂', heq, -, hrest, hqueued₂, -⟩ := hL'.schedule (hset.ht ▸ hfresh)
    rw [runqReturn, if_pos hres, heq, Option.some.injEq] at hret
    subst hret
    rw [hset.queued, ← hqueued] at hqueued₂
    refine ⟨hqueued ▸ Multiset.mem_cons_self _ _, hmem, hdue, hfirst, fun q hqq hqp => ?_,
      fun q hqq => hqueued₂ ▸ hqq, fun h => absurd h hres, fun _ => ?_⟩
    · rw [hqueued₂, hrest.mem, hmem₁ q hqp, hsame.mem]
      exact ⟨hqq, rfl⟩
    · rw [hqueued₂, hrest.mem, setWhen_mem he, hqueued]
      exact ⟨Multiset.mem_cons_self _ _, rfl⟩

/-! ## The whole pass -/

/-- An entry that is not queued stays out of the pass. -/
theorem RunqPass.notMem (hpass : RunqPass limit con turns con') (hL : Ledger con out)
    (hE : EntriesOk con out) (hp : p ∉ queued con) :
    p ∉ queued con' ∧ ∀ u ∈ turns, u.ptr ≠ p := by
  induction hpass with
  | done hnext =>
    rcases runqNext_ledger hL limit with heq | ⟨q, con'', heq, -⟩
    · rw [hnext, Option.some.injEq, Prod.mk.injEq] at heq
      exact ⟨heq.1 ▸ hp, fun u hu => by cases hu⟩
    · rw [hnext] at heq
      simp at heq
  | turn hnext he hres hfresh hret hrest ih =>
    obtain ⟨hL₂, hE₂, ht⟩ := turn_spec hL hE hnext he hfresh hret
    obtain ⟨hp', hne⟩ := ih hL₂ hE₂ fun h => hp (ht.only p h)
    refine ⟨hp', fun u hu => ?_⟩
    rcases List.mem_cons.1 hu with rfl | hu
    · exact fun h => hp (h ▸ ht.mem)
    · exact hne u hu

theorem EntriesOk.normal (hE : EntriesOk con out) {q : Ptr} (hq : q ∈ queued con) :
    (whenOf con.mem q).Normal := by
  obtain ⟨e, he, hok⟩ := hE q (mem_live_of_mem_queued hq)
  rw [whenOf, he]
  exact hok.normal

theorem TurnDoes.entryOk {now : Clock} (ht : TurnDoes limit con p e res now con₂)
    (hE : EntriesOk con out) : EntryOk e := by
  obtain ⟨e', he', hok⟩ := hE p (mem_live_of_mem_queued ht.mem)
  rw [ht.entry, Option.some.injEq] at he'
  exact he' ▸ hok

/-- No turn makes a queued entry due before all were. -/
theorem TurnDoes.lower {now : Clock} (ht : TurnDoes limit con p e res now con₂)
    (hE : EntriesOk con out) {d : ℤ} (hd : ∀ q ∈ queued con, d ≤ (whenOf con.mem q).micros) :
    ∀ q ∈ queued con₂, d ≤ (whenOf con₂.mem q).micros := by
  intro q hq
  rcases eq_or_ne q p with rfl | hqp
  · have hne : res ≠ 0 := fun h => ht.zero h hq
    have hle := hd q ht.mem
    have hmono := le_schedSettime_micros (ht.entryOk hE) (chosenDelay e res) now
    rw [whenOf, ht.entry] at hle
    rw [whenOf, (ht.again hne).2]
    exact hle.trans hmono
  · rw [whenOf, (ht.frame q (ht.only q hq) hqp).2]
    exact hd q (ht.only q hq)

theorem RunqPass.lower (hpass : RunqPass limit con turns con') (hL : Ledger con out)
    (hE : EntriesOk con out) {d : ℤ} (hd : ∀ q ∈ queued con, d ≤ (whenOf con.mem q).micros) :
    ∀ u ∈ turns, d ≤ u.due := by
  induction hpass with
  | done hnext => exact fun u hu => by cases hu
  | turn hnext he hres hfresh hret hrest ih =>
    obtain ⟨hL₂, hE₂, ht⟩ := turn_spec hL hE hnext he hfresh hret
    intro u hu
    rcases List.mem_cons.1 hu with rfl | hu
    · have hle := hd _ ht.mem
      rw [whenOf, ht.entry] at hle
      exact hle
    · exact ih hL₂ hE₂ (ht.lower hE hd) u hu

/-- The first entry is due no later than any in the queue. -/
theorem TurnDoes.first_micros {now : Clock} (ht : TurnDoes limit con p e res now con₂)
    (hE : EntriesOk con out) :
    ∀ q ∈ queued con, e.when.micros ≤ (whenOf con.mem q).micros := fun q hq =>
  (trisTvcmp_nonpos_iff (ht.entryOk hE).normal (hE.normal hq)).1 (ht.first q hq)

theorem RunqPass.order (hpass : RunqPass limit con turns con') (hL : Ledger con out)
    (hE : EntriesOk con out) : turns.Pairwise fun t u => t.due ≤ u.due := by
  induction hpass with
  | done hnext => exact .nil
  | turn hnext he hres hfresh hret hrest ih =>
    obtain ⟨hL₂, hE₂, ht⟩ := turn_spec hL hE hnext he hfresh hret
    exact .cons (hrest.lower hL₂ hE₂ (ht.lower hE (ht.first_micros hE))) (ih hL₂ hE₂)

/-- Where the pass ends nothing due is left, and what was due and is no
longer queued as it was has been called. -/
theorem RunqPass.due_runs (hpass : RunqPass limit con turns con') (hL : Ledger con out)
    (hE : EntriesOk con out) {q : Ptr} (hq : q ∈ queued con)
    (hdue : trisTvcmp (whenOf con.mem q) limit < 0) :
    ∃ t ∈ turns, t.ptr = q ∧ t.entry.id = idOf con.mem q := by
  induction hpass with
  | done hnext =>
    obtain ⟨s, hqueue⟩ := hL.queue
    rcases runqNext_spec hqueue limit with ⟨-, hnone⟩ | ⟨p, con'', heq, -⟩
    · exact absurd hdue (hnone q hq)
    · rw [hnext] at heq
      simp at heq
  | @turn con con₁ con₂ con' p e res env turns hnext he hres hfresh hret hrest ih =>
    obtain ⟨hL₂, hE₂, ht⟩ := turn_spec hL hE hnext he hfresh hret
    rcases eq_or_ne q p with rfl | hqp
    · refine ⟨_, List.mem_cons_self, rfl, ?_⟩
      rw [idOf, ht.entry]
      rfl
    · obtain ⟨hq₂, hmem⟩ := ht.frame q hq hqp
      obtain ⟨t, htm, hptr, hid⟩ := ih hL₂ hE₂ hq₂ (by rwa [whenOf, hmem])
      exact ⟨t, List.mem_cons_of_mem _ htm, hptr, by rw [hid, idOf, hmem, idOf]⟩

/-- What is not due stays in the queue as it is. -/
theorem RunqPass.not_due (hpass : RunqPass limit con turns con') (hL : Ledger con out)
    (hE : EntriesOk con out) {q : Ptr} (hq : q ∈ queued con)
    (hdue : ¬ trisTvcmp (whenOf con.mem q) limit < 0) : ∀ t ∈ turns, t.ptr ≠ q := by
  induction hpass with
  | done hnext => exact fun t ht => by cases ht
  | @turn con con₁ con₂ con' p e res env turns hnext he hres hfresh hret hrest ih =>
    obtain ⟨hL₂, hE₂, ht⟩ := turn_spec hL hE hnext he hfresh hret
    have hqp : q ≠ p := fun h => hdue <| by
      rw [h, whenOf, ht.entry]
      exact ht.due
    obtain ⟨hq₂, hmem⟩ := ht.frame q hq hqp
    intro t htm
    rcases List.mem_cons.1 htm with rfl | htm
    · exact hqp.symm
    · exact ih hL₂ hE₂ hq₂ (by rwa [whenOf, hmem]) t htm

/-- Each turn, from a sound queue. -/
theorem RunqPass.turns_spec (hpass : RunqPass limit con turns con') (hL : Ledger con out)
    (hE : EntriesOk con out) : ∀ before t after, turns = before ++ t :: after →
    IsInt t.res ∧ ∃ c, Ledger c out ∧ EntriesOk c out ∧
      TurnDoes limit c t.ptr t.entry t.res t.now t.after ∧ Ledger t.after out ∧
      EntriesOk t.after out ∧ RunqPass limit t.after after con' := by
  induction hpass with
  | done hnext => exact fun before t after h => by simp at h
  | turn hnext he hres hfresh hret hrest ih =>
    obtain ⟨hL₂, hE₂, ht⟩ := turn_spec hL hE hnext he hfresh hret
    intro before t after h
    cases before with
    | nil =>
      obtain ⟨rfl, rfl⟩ := List.cons.inj h
      exact ⟨hres, _, hL, hE, ht, hL₂, hE₂, hrest⟩
    | cons u before =>
      obtain ⟨-, htail⟩ := List.cons.inj h
      exact ih hL₂ hE₂ before t after htail

theorem runqLimit_normal (now₀ : Clock) : (runqLimit now₀).Normal :=
  trisTvadd_normal now₀.normal ⟨by decide, by decide⟩

theorem runqLimit_micros (now₀ : Clock) : (runqLimit now₀).micros = now₀.tv.micros + 1000 :=
  trisTvadd_micros now₀.normal ⟨by decide, by decide⟩

/-- The delay chosen is an `int`. -/
theorem chosenDelay_isInt (he : EntryOk e) (hres : IsInt res) : IsInt (chosenDelay e res) := by
  unfold chosenDelay
  split
  · exact hres
  · exact he.resched

/-- **All of `PassGood` but the new times holds of every pass.** The new
times are right exactly where each one is. -/
theorem RunqPass.good_iff (hpass : RunqPass (runqLimit now₀) con turns con') (hL : Ledger con out)
    (hE : EntriesOk con out) :
    PassGood now₀ con turns con' ↔ ∀ t ∈ turns, t.res ≠ 0 →
      ReschedExact t.due (chosenDelay t.entry t.res) t.now.tv.micros := by
  have hlimit : ∀ t : Timeval, t.Normal →
      (trisTvcmp t (runqLimit now₀) < 0 ↔ t.micros < now₀.tv.micros + 1000) := fun t ht => by
    rw [trisTvcmp_neg_iff ht (runqLimit_normal now₀), runqLimit_micros]
  have hturns := hpass.turns_spec hL hE
  -- the new time of a turn, against the one wanted
  have hresched : ∀ t ∈ turns, t.res ≠ 0 → t.ptr ∈ queued t.after ∧
      ∃ e, t.after.mem t.ptr = some e ∧ e.id = t.entry.id ∧
        (e.when.micros = max t.now.tv.micros (t.due + 1000 * chosenDelay t.entry t.res) ↔
          ReschedExact t.due (chosenDelay t.entry t.res) t.now.tv.micros) := by
    intro t htm hres
    obtain ⟨before, after, rfl⟩ := List.append_of_mem htm
    obtain ⟨hint, c, -, hEc, ht, -⟩ := hturns before t after rfl
    have hok := ht.entryOk hEc
    obtain ⟨hqueued, hmem⟩ := ht.again hres
    exact ⟨hqueued, _, hmem, rfl,
      schedSettime_exact_iff hok.normal (chosenDelay_isInt hok hint) t.now⟩
  constructor
  · intro hgood t htm hres
    obtain ⟨-, e, he, -, hiff⟩ := hresched t htm hres
    obtain ⟨-, e', he', -, hmicros⟩ := hgood.resched t htm hres
    rw [he, Option.some.injEq] at he'
    exact hiff.1 (he' ▸ hmicros)
  · intro hexact
    refine ⟨hpass.order hL hE, fun q hq hdue => ?_, fun t htm => ?_, fun q hq hdue => ?_,
      fun before t after hsplit hres => ?_, fun t htm hres => ?_⟩
    · exact hpass.due_runs hL hE hq ((hlimit _ (hE.normal hq)).2 hdue)
    · obtain ⟨before, after, rfl⟩ := List.append_of_mem htm
      obtain ⟨-, c, -, hEc, ht, -⟩ := hturns before t after rfl
      exact (hlimit _ (ht.entryOk hEc).normal).1 ht.due
    · exact hpass.not_due hL hE hq fun h => not_lt.2 hdue ((hlimit _ (hE.normal hq)).1 h)
    · obtain ⟨-, c, -, -, ht, hL', hE', hrest⟩ := hturns before t after hsplit
      exact hrest.notMem hL' hE' (ht.zero hres)
    · obtain ⟨hqueued, e, he, hid, hiff⟩ := hresched t htm hres
      exact ⟨hqueued, e, he, hid, hiff.2 (hexact t htm hres)⟩

/-! ## A pass is a run, and ends -/

/-- A pass is a run of the scheduler in which nothing comes between. -/
theorem RunqPass.trace (hpass : RunqPass (runqLimit now₀) con turns con')
    (passes : Multiset Pass) : ∃ evs, Trace SchedStep ⟨con, passes⟩ evs ⟨con', passes⟩ := by
  have hturns : ∀ limit con turns con', RunqPass limit con turns con' →
      ∃ evs, Trace SchedStep ⟨con, ⟨limit, none⟩ ::ₘ passes⟩ evs ⟨con', passes⟩ := by
    intro limit con turns con' h
    induction h with
    | done hnext => exact ⟨_, .single (.runqEnd hnext)⟩
    | turn hnext he hres hfresh hret _ ih =>
      obtain ⟨evs, hevs⟩ := ih
      exact ⟨_, .cons (.runqCall hnext he) (.cons (.runqReturn hres hfresh hret) hevs)⟩
  obtain ⟨evs, hevs⟩ := hturns _ _ _ _ hpass
  exact ⟨_, .cons (.runqBegin now₀) hevs⟩

/-- The entries due before the limit. -/
def dueBefore (limit : Timeval) (con : SchedContext) : Finset Ptr :=
  (queued con).toFinset.filter fun q => trisTvcmp (whenOf con.mem q) limit < 0

theorem mem_dueBefore {q : Ptr} :
    q ∈ dueBefore limit con ↔ q ∈ queued con ∧ trisTvcmp (whenOf con.mem q) limit < 0 := by
  rw [dueBefore, Finset.mem_filter, Multiset.mem_toFinset]

/-- Once the clock is past the limit, each turn leaves one entry fewer
due. -/
theorem TurnDoes.card_dueBefore_lt {now : Clock} (ht : TurnDoes limit con p e res now con₂)
    (hE : EntriesOk con out) (hlimit : limit.Normal) (hnow : limit.micros ≤ now.tv.micros) :
    (dueBefore limit con₂).card < (dueBefore limit con).card := by
  have hp : p ∉ dueBefore limit con₂ := fun h => by
    obtain ⟨hq, hdue⟩ := mem_dueBefore.1 h
    have hres : res ≠ 0 := fun hz => ht.zero hz hq
    have hok := ht.entryOk hE
    rw [whenOf, (ht.again hres).2] at hdue
    have hle := le_schedSettime_now hok (chosenDelay e res) now
    have hlt := (trisTvcmp_neg_iff
      (schedSettime_ok hok.normal hok.sec_nonneg (chosenDelay e res) now).1 hlimit).1 hdue
    omega
  refine Finset.card_lt_card ⟨fun q hq => ?_, fun hsub => hp (hsub (mem_dueBefore.2 ⟨ht.mem, ?_⟩))⟩
  · have hqp : q ≠ p := fun h => hp (h ▸ hq)
    obtain ⟨hq₂, hdue⟩ := mem_dueBefore.1 hq
    have hqc := ht.only q hq₂
    rw [whenOf, (ht.frame q hqc hqp).2] at hdue
    exact mem_dueBefore.2 ⟨hqc, hdue⟩
  · rw [whenOf, ht.entry]
    exact ht.due

/-- The turns got the given results at the given times. -/
def Answered (res : ℕ → ℤ) (now : ℕ → Clock) (turns : List Turn) : Prop :=
  ∀ i t, turns[i]? = some t → t.res = res i ∧ t.now = now i

theorem Answered.cons {t : Turn} {res : ℕ → ℤ} {now : ℕ → Clock} (hres : t.res = res 0)
    (hnow : t.now = now 0)
    (h : Answered (fun n => res (n + 1)) (fun n => now (n + 1)) turns) :
    Answered res now (t :: turns) := by
  intro i u hu
  cases i with
  | zero =>
    obtain rfl : t = u := by simpa using hu
    exact ⟨hres, hnow⟩
  | succ i => exact h i u (by simpa using hu)

/-- The loop ends here, or takes a turn whatever the callback returns. -/
theorem turn_or_done (hL : Ledger con out) (hE : EntriesOk con out) (limit : Timeval) (now : Clock) :
    (∃ con', runqNext con limit = some (con', none)) ∨ ∀ res, IsInt res →
      ∃ p e con₂, Ledger con₂ out ∧ EntriesOk con₂ out ∧ TurnDoes limit con p e res now con₂ ∧
        ∀ turns con', RunqPass limit con₂ turns con' →
          RunqPass limit con (⟨p, e, res, now, con₂⟩ :: turns) con' := by
  rcases runqNext_ledger hL limit with heq | ⟨p, con₁, heq, hL₁, -, hmem, hpq, -, -⟩
  · exact .inl ⟨con, heq⟩
  · refine .inr fun res hres => ?_
    obtain ⟨s, hq₁⟩ := hL₁.queue
    obtain ⟨addr, haddr⟩ := hq₁.table.exists_fresh
    obtain ⟨e, he, -⟩ := hE p (mem_live_of_mem_queued hpq)
    rw [← hmem] at he
    have hfresh : con₁.schedqHt.object (Env.mk now 0 addr).addr = none := haddr
    obtain ⟨con₂, hret, -⟩ := runqReturn_ledger hL₁ res hfresh
    obtain ⟨hL₂, hE₂, ht⟩ := turn_spec hL hE heq he hfresh hret
    exact ⟨p, e, con₂, hL₂, hE₂, ht, fun turns con' hrest =>
      .turn heq he hres hfresh hret hrest⟩

/-- **A pass ends** once the clock is past its limit for good, whatever
the callbacks return. -/
theorem runqPass_ends (hlimit : limit.Normal) (N : ℕ) (hL : Ledger con out)
    (hE : EntriesOk con out) (res : ℕ → ℤ) (hres : ∀ n, IsInt (res n)) (now : ℕ → Clock)
    (hlate : ∀ n, N ≤ n → limit.micros ≤ (now n).tv.micros) :
    ∃ turns con', RunqPass limit con turns con' ∧ Answered res now turns := by
  have hdone : ∀ con con' res now, runqNext con limit = some (con', none) →
      ∃ turns con', RunqPass limit con turns con' ∧ Answered res now turns :=
    fun con con' res now h => ⟨[], con', .done h, fun i t ht => by simp at ht⟩
  induction N generalizing con res now with
  | zero =>
    -- from here on the entries due run out
    induction hcard : (dueBefore limit con).card using Nat.strong_induction_on
      generalizing con res now with
    | _ k ih =>
      rcases turn_or_done hL hE limit (now 0) with ⟨con', hend⟩ | hturn
      · exact hdone con con' res now hend
      · obtain ⟨p, e, con₂, hL₂, hE₂, ht, hcons⟩ := hturn (res 0) (hres 0)
        have hlt := ht.card_dueBefore_lt hE hlimit (hlate 0 le_rfl)
        obtain ⟨turns, con', hrest, hans⟩ := ih _ (hcard ▸ hlt) hL₂ hE₂ (fun n => res (n + 1))
          (fun n => hres (n + 1)) (fun n => now (n + 1)) (fun n _ => hlate (n + 1) (Nat.zero_le _))
          rfl
        exact ⟨_, con', hcons turns con' hrest, hans.cons rfl rfl⟩
  | succ N ih =>
    rcases turn_or_done hL hE limit (now 0) with ⟨con', hend⟩ | hturn
    · exact hdone con con' res now hend
    · obtain ⟨p, e, con₂, hL₂, hE₂, ht, hcons⟩ := hturn (res 0) (hres 0)
      obtain ⟨turns, con', hrest, hans⟩ := ih hL₂ hE₂ (fun n => res (n + 1))
        (fun n => hres (n + 1)) (fun n => now (n + 1)) fun n hn => hlate (n + 1) (by omega)
      exact ⟨_, con', hcons turns con' hrest, hans.cons rfl rfl⟩

/-- **A pass ends in every state a run reaches**, whatever the callbacks
return, once the clock stays past the millisecond it began in. -/
theorem pass_ends {con₀ : SchedContext} (hcreate : schedContextCreate = some con₀)
    {evs : List SchedEvent} {passes : Multiset Pass}
    (hrun : Trace SchedStep ⟨con₀, 0⟩ evs ⟨con, passes⟩) (res : ℕ → ℤ) (hres : ∀ n, IsInt (res n))
    (now : ℕ → Clock) (N : ℕ) (hlate : ∀ n, N ≤ n → now₀.tv.micros + 1000 ≤ (now n).tv.micros) :
    ∃ turns con' evs', RunqPass (runqLimit now₀) con turns con' ∧ Answered res now turns ∧
      Trace SchedStep ⟨con, passes⟩ evs' ⟨con', passes⟩ := by
  have hok : RunOk evs ⟨con, passes⟩ :=
    hrun.inv (runOk_create hcreate) fun _ _ _ _ hI hstep => hI.step hstep
  obtain ⟨turns, con', hpass, hans⟩ := runqPass_ends (runqLimit_normal now₀) N hok.ledger
    hok.entries res hres now fun n hn => (runqLimit_micros now₀).trans_le (hlate n hn)
  obtain ⟨evs', hevs⟩ := hpass.trace passes
  exact ⟨turns, con', evs', hpass, hans, hevs⟩

/-- A pass calls something exactly if the root of the heap is due. -/
theorem runqNext_calls_iff {s : Multiset Ptr} (hq : QueueOk con s)
    (hpeek : trisHeapPeek con.schedHeap 1 = some p) : p ∈ queued con ∧
      ((∃ p' con', runqNext con limit = some (con', some p')) ↔
        trisTvcmp (whenOf con.mem p) limit < 0) := by
  obtain ⟨hne, hroot⟩ := Option.ite_none_left_eq_some.1 hpeek
  have hmem : p ∈ queued con := mem_elements.2 ⟨1, le_rfl, by omega, Option.some.inj hroot⟩
  refine ⟨hmem, ?_, fun hdue => ?_⟩
  · rintro ⟨p', con', h⟩
    by_contra hdue
    simp only [runqNext, hpeek, if_pos (mt trisTvcmp_eq_neg_one.1 hdue)] at h
    cases h
  · rcases runqNext_spec hq limit with ⟨-, hnone⟩ | ⟨p', con', h, -⟩
    · exact absurd hdue (hnone p hmem)
    · exact ⟨p', con', h⟩

/-- **`tris_sched_wait` is exact** where all is due within what an `int` of
milliseconds holds: a pass begun `k` milliseconds later calls something if and
only if `k` is at least the answer, which is `-1` where nothing is queued. -/
theorem sched_wait_iff {con₀ : SchedContext} (hcreate : schedContextCreate = some con₀)
    {evs : List SchedEvent} {passes : Multiset Pass}
    (hrun : Trace SchedStep ⟨con₀, 0⟩ evs ⟨con, passes⟩) (now later : Clock) (k : ℕ)
    (hlater : later.tv.micros = now.tv.micros + 1000 * k)
    (hint : ∀ q ∈ queued con, IsInt (((whenOf con.mem q).micros - now.tv.micros) / 1000)) :
    (∃ p con', runqNext con (runqLimit later) = some (con', some p)) ↔
      0 ≤ trisSchedWait con now ∧ trisSchedWait con now ≤ k := by
  have hok : RunOk evs ⟨con, passes⟩ :=
    hrun.inv (runOk_create hcreate) fun _ _ _ _ hI hstep => hI.step hstep
  obtain ⟨s, hq⟩ := hok.ledger.queue
  unfold trisSchedWait
  cases hpeek : trisHeapPeek con.schedHeap 1 with
  | none => simp [runqNext, hpeek]
  | some p =>
    obtain ⟨hmem, hcalls⟩ := runqNext_calls_iff hq hpeek
    obtain ⟨e, he, heok⟩ := hok.entries p (mem_live_of_mem_queued hmem)
    have hnormal : (whenOf con.mem p).Normal := by
      rw [whenOf, he]
      exact heok.normal
    obtain ⟨hlo, hhi⟩ := hint p hmem
    dsimp only
    rw [hcalls, trisTvcmp_neg_iff hnormal (runqLimit_normal later), runqLimit_micros, hlater,
      trisTvdiffMs_eq hnormal now.normal]
    unfold CInt.wrapInt
    split_ifs <;> omega

/-- **A pass is good exactly where its delays survive.** From every state
a run reaches, a pass calls what is due and only that, in order, drops
what returned zero, and queues the rest again at the times wanted if and
only if each new time meets `ReschedExact`. -/
theorem pass_good_iff {con₀ : SchedContext} (hcreate : schedContextCreate = some con₀)
    {evs : List SchedEvent} {passes : Multiset Pass}
    (hrun : Trace SchedStep ⟨con₀, 0⟩ evs ⟨con, passes⟩)
    (hpass : RunqPass (runqLimit now₀) con turns con') :
    PassGood now₀ con turns con' ↔ ∀ t ∈ turns, t.res ≠ 0 →
      ReschedExact t.due (chosenDelay t.entry t.res) t.now.tv.micros := by
  have hok : RunOk evs ⟨con, passes⟩ :=
    hrun.inv (runOk_create hcreate) fun _ _ _ _ hI hstep => hI.step hstep
  exact hpass.good_iff hok.ledger hok.entries

/-! ## One entry, called once -/

/-- An entry whose callback chooses its delay is added and called, and
returns `res`: the entries that run, what the entry held, and whether the
addresses were free. -/
def passScript (res : ℤ) : Option (Option Ptr × Option Ptr × Option Entry × Bool) := do
  let con₀ ← schedContextCreate
  let r₁ ← trisSchedAddVariable con₀ (envAt 0) 0 7 1 1
  let r₂ ← runqNext r₁.1 (runqLimit (envAt 0).now)
  let con₃ ← runqReturn r₂.1 (.cell 0) res (envAt 1)
  let r₄ ← runqNext con₃ (runqLimit (envAt 0).now)
  some (r₂.2, r₄.2, r₂.1.mem (.cell 0),
    decide ((envAt 0).Fresh con₀ ∧ r₂.1.schedqHt.object 1 = none))

theorem pass_of_script (hres : IsInt res)
    (hscript : passScript res = some (some (.cell 0), none, some ⟨1, ⟨1, 0⟩, 0, 1, 1, 7⟩, true)) :
    ∃ con₀ evs con con' after, schedContextCreate = some con₀ ∧
      Trace SchedStep ⟨con₀, 0⟩ evs ⟨con, 0⟩ ∧
      RunqPass (runqLimit (envAt 0).now) con
        [⟨.cell 0, ⟨1, ⟨1, 0⟩, 0, 1, 1, 7⟩, res, (envAt 1).now, after⟩] con' := by
  simp only [passScript, Option.bind_eq_bind, Option.bind_eq_some_iff, Option.some.injEq,
    Prod.mk.injEq, Prod.exists, decide_eq_true_eq] at hscript
  obtain ⟨con₀, h₀, con₁, id₁, h₁, con₂, c₂, h₂, con₃, h₃, con₄, c₄, h₄, rfl, rfl, hmem, hf₁, hf₂⟩ :=
    hscript
  exact ⟨con₀, _, con₁, con₄, con₃, h₀, .single (.add (by decide) hf₁ h₁),
    .turn h₂ hmem hres hf₂ h₃ (.done h₄)⟩

/-- Called back in five milliseconds, the entry is. -/
theorem pass_good_five :
    ∃ con turns con', RunqPass (runqLimit (envAt 0).now) con turns con' ∧
      turns.map Turn.res = [5] ∧ PassGood (envAt 0).now con turns con' := by
  obtain ⟨con₀, evs, con, con', after, h₀, hrun, hpass⟩ :=
    @pass_of_script 5 (by decide) (by decide +kernel)
  refine ⟨con, _, con', hpass, rfl, (pass_good_iff h₀ hrun hpass).2 fun t ht _ => ?_⟩
  obtain rfl := List.mem_singleton.1 ht
  show ReschedExact (Timeval.micros ⟨1, 0⟩) (chosenDelay ⟨1, ⟨1, 0⟩, 0, 1, 1, 7⟩ 5)
    (envAt 1).now.tv.micros
  decide

/-- Five milliseconds later. -/
def fiveLater : Clock := ⟨⟨1, 5000⟩, ⟨by decide, by decide⟩, by decide⟩

/-- Called back in five milliseconds each time, and each time at the same. -/
theorem pass_ends_five :
    ∃ con turns con', RunqPass (runqLimit (envAt 0).now) con turns con' ∧
      ∀ (i : ℕ) (t : Turn), turns[i]? = some t → t.res = 5 := by
  obtain ⟨con₀, evs, con, _, _, h₀, hrun, -⟩ := @pass_of_script 5 (by decide) (by decide +kernel)
  obtain ⟨turns, con', evs', hpass, hans, -⟩ := @pass_ends con (envAt 0).now con₀ h₀ evs 0 hrun
    (fun _ => 5) (fun _ => by decide) (fun _ => fiveLater) 0 fun _ _ => by decide
  exact ⟨con, turns, con', hpass, fun i t ht => (hans i t ht).1⟩

/-- An entry that is due in five milliseconds is waited for as long. -/
theorem sched_wait_five : ∃ con p con', trisSchedWait con (envAt 0).now = 5 ∧
    runqNext con (runqLimit fiveLater) = some (con', some p) := by
  have hscript : (do
      let con₀ ← schedContextCreate
      let r ← trisSchedAddVariable con₀ (envAt 0) 5 7 1 1
      some (r.2, trisSchedWait r.1 (envAt 0).now, decide ((envAt 0).Fresh con₀ ∧
        ∀ q ∈ queued r.1, IsInt (((whenOf r.1.mem q).micros - 1000000) / 1000)))) =
      some (1, 5, true) := by decide +kernel
  simp only [Option.bind_eq_bind, Option.bind_eq_some_iff, Option.some.injEq, Prod.mk.injEq,
    Prod.exists, decide_eq_true_eq] at hscript
  obtain ⟨con₀, h₀, con, _, h, rfl, hwait, hfresh, hint⟩ := hscript
  obtain ⟨p, con', hcall⟩ := (sched_wait_iff h₀ (.single (.add (by decide) hfresh h)) (envAt 0).now
    fiveLater 5 (by decide) hint).2 (by rw [hwait]; decide)
  exact ⟨con, p, con', hwait, hcall⟩

/-- **A callback that returns `-1` is put off by 49 days.** -/
theorem not_pass_good_of_negative :
    ¬ ∀ con₀ evs con passes now₀ turns con', schedContextCreate = some con₀ →
      Trace SchedStep ⟨con₀, 0⟩ evs ⟨con, passes⟩ →
      RunqPass (runqLimit now₀) con turns con' → PassGood now₀ con turns con' := by
  intro hall
  obtain ⟨con₀, evs, con, con', after, h₀, hrun, hpass⟩ :=
    @pass_of_script (-1) (by decide) (by decide +kernel)
  have hgood := hall _ _ _ _ _ _ _ h₀ hrun hpass
  have hok : RunOk evs ⟨con, 0⟩ :=
    hrun.inv (runOk_create h₀) fun _ _ _ _ hI hstep => hI.step hstep
  have hexact : ReschedExact (Timeval.micros ⟨1, 0⟩) (chosenDelay ⟨1, ⟨1, 0⟩, 0, 1, 1, 7⟩ (-1))
      (envAt 1).now.tv.micros :=
    (hpass.good_iff hok.ledger hok.entries).1 hgood _ (List.mem_singleton.2 rfl)
      (show (-1 : ℤ) ≠ 0 by decide)
  revert hexact
  decide

end Sched

end Trismedia
