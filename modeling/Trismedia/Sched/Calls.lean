import Trismedia.Sched.Ledger
/-!
# The calls of the scheduler

What each call of a scheduler's users, and each half of a turn of
`tris_sched_runq`, does to the places of the entries and to the ids. The
calls return whatever the state of the queue.
-/


namespace Trismedia

namespace Sched

open Heap Hashtab

variable {con con' con₁ : SchedContext} {out : Multiset Ptr} {p : Ptr} {D : List ℤ}

theorem toInt_of_lt {n : ℕ} (h : n < 2 ^ 31) : toInt n = n := by rw [toInt, if_pos h]

theorem uint_of_lt {n : ℕ} (h : n < 2 ^ 32) : uint n = n := Nat.mod_eq_of_lt h

/-- What `sched_settime` stores is a proper time. -/
theorem schedSettime_ok {t : Timeval} (ht : t.Normal) (h0 : 0 ≤ t.tvSec) (when : ℤ) (now : Clock) :
    (schedSettime t when now.tv).Normal ∧ 0 ≤ (schedSettime t when now.tv).tvSec := by
  have hbase : (if trisTvzero t then now.tv else t).Normal ∧
      0 ≤ (if trisTvzero t then now.tv else t).tvSec := by
    split
    · exact ⟨now.normal, now.sec_nonneg⟩
    · exact ⟨ht, h0⟩
  unfold schedSettime
  generalize (if trisTvzero t then now.tv else t) = base at *
  dsimp only
  split
  · exact ⟨now.normal, now.sec_nonneg⟩
  · exact ⟨trisTvadd_normal hbase.1 (trisSamp2tv_normal _),
      trisTvadd_sec_nonneg hbase.1 hbase.2 (trisSamp2tv_normal _) (trisSamp2tv_sec_nonneg _)⟩

theorem trisSchedAddVariable_spec (hL : Ledger con out) {env : Env} (hfresh : env.Fresh con)
    (when : ℤ) (callback data : ℕ) (variableRes : ℤ) :
    ∃ con' id, trisSchedAddVariable con env when callback data variableRes = some (con', id) ∧
      Ledger con' out ∧ con'.eventcnt = uint (con.eventcnt + 1) ∧
      (1 ≤ con.eventcnt → con.eventcnt < 2 ^ 31 → ∀ D, Ids con out D → Ids con' out D) ∧
      (IsInt when → EntriesOk con out → EntriesOk con' out) := by
  obtain ⟨con₁, p, halloc, hL₁, hsame₁, hcnt₁, hmem₁⟩ := schedAlloc_spec hL hfresh
  obtain ⟨e, he⟩ : ∃ e : Entry, e = ⟨toInt con₁.eventcnt, schedSettime (trisTv 0 0) when env.now.tv,
    when, variableRes, data, callback⟩ := ⟨_, rfl⟩
  obtain ⟨con₂, hcon₂⟩ : ∃ con₂ : SchedContext, con₂ = { con₁ with
    eventcnt := uint (con₁.eventcnt + 1)
    mem := Function.update con₁.mem p (some e) } := ⟨_, rfl⟩
  have hsame₂ : SameQueue con₁ con₂ := by
    rw [hcon₂]
    exact ⟨rfl, rfl, rfl⟩
  have hp₂ : con₂.mem p = some e := by
    rw [hcon₂]
    exact Function.update_self ..
  have hmem₂ : ∀ q, q ≠ p → con₂.mem q = con₁.mem q := fun q hqp => by
    rw [hcon₂]
    exact Function.update_of_ne hqp _ _
  have hcnt₂ : con₂.eventcnt = uint (con₁.eventcnt + 1) := by rw [hcon₂]
  have hcache₂ : con₂.schedc = con₁.schedc := by rw [hcon₂]
  have hL₂ := hL₁.write hsame₂ hcache₂ (by rw [hp₂]; simp) hmem₂
  have hfresh₂ : con₂.schedqHt.object env.addr = none := by
    rw [hsame₂.ht, hsame₁.ht]
    exact hfresh.2
  obtain ⟨con₃, hsched, hL₃, hsame₃, hqueued₃, hids₃, hentries₃⟩ := hL₂.schedule hfresh₂
  have hsame : SameQueue con con₂ := ⟨hsame₂.heap.trans hsame₁.heap, hsame₂.ht.trans hsame₁.ht,
    hsame₂.cnt.trans hsame₁.cnt⟩
  have hmem : ∀ q, q ≠ p → con₂.mem q = con.mem q :=
    fun q hqp => (hmem₂ q hqp).trans (hmem₁ q hqp)
  refine ⟨con₃, toInt con₁.eventcnt, ?_, hL₃, ?_, fun hpos hlt D hI => hids₃ D ?_,
    fun hwhen hE => hentries₃ (hE.write hsame hp₂ ?_ hmem)⟩
  · rw [hcon₂, he] at hsched
    simp only [trisSchedAddVariable, halloc, hsched, Option.bind_eq_bind, Option.bind_some]
  · rw [hsame₃.eventcnt, hcnt₂, hcnt₁]
  · have hout := hL₁.out_notMem
    refine hI.new hsame ?_ ?_ hpos ?_ hmem
    · rw [live, Multiset.mem_add, not_or, ← hsame₁.queued]
      exact ⟨hout.1, hout.2.1⟩
    · rw [hcnt₂, hcnt₁, uint_of_lt (by omega)]
    · rw [idOf, hp₂, he, hcnt₁]
      exact toInt_of_lt hlt
  · have hzero : (trisTv 0 0).Normal := ⟨le_rfl, by decide⟩
    obtain ⟨hnormal, hsec⟩ := schedSettime_ok hzero le_rfl when env.now
    rw [he]
    exact ⟨hnormal, hsec, hwhen⟩

/-- A deletion that finds the id makes it dead. -/
theorem trisSchedDel_ledger (hL : Ledger con out) (id : ℤ) :
    ∃ con' ret, trisSchedDel con id = some (con', ret) ∧ Ledger con' out ∧
      con'.eventcnt = con.eventcnt ∧ (ret ≠ 0 → con' = con) ∧
      (∀ D, Ids con out D → Ids con' out (if ret = 0 then id :: D else D)) ∧
      (EntriesOk con out → EntriesOk con' out) := by
  obtain ⟨s, hq⟩ := hL.queue
  have hback : ∀ con₁ p, SameRest con con₁ → QueueOk con₁ (s.erase p) →
      queued con = p ::ₘ queued con₁ → Ledger con₁ (p ::ₘ out) := fun con₁ p hsame hq₁ hqueued =>
    Taken.ledger ⟨hq₁, hsame, hqueued⟩ hL
  rcases trisSchedDel_spec hq id with ⟨p, con₁, heq, hps, hid, hq₁, hsame, hqueued⟩ | ⟨heq, hno⟩
  · have hL₁ := hback con₁ p hsame hq₁ hqueued
    obtain ⟨-, -, hcnt, -, -⟩ := schedRelease_spec hq₁ hL₁.out_notMem.1
    refine ⟨_, 0, heq, hL₁.release, hcnt.trans hsame.eventcnt, fun h => absurd rfl h,
      fun D hI => ?_, fun hE => (Taken.entries ⟨hq₁, hsame, hqueued⟩ hE).release hL₁⟩
    -- with the ids in order, the table holds all of the queue
    rcases trisSchedDel_spec hI.full id with
      ⟨p', con₂, heq', hps', hid', hq₂, hsame', hqueued'⟩ | ⟨heq', -⟩
    · have hpp : p = p' := hI.inj (Multiset.mem_add.2 (.inl (Multiset.mem_of_le hq.le hps)))
        (Multiset.mem_add.2 (.inl hps')) (hid.trans hid'.symm)
      subst hpp
      have ht : Taken con (queued con) p con₂ := ⟨hq₂, hsame', hqueued'⟩
      have hI₂ := (ht.ids hI).release (ht.ledger hL)
      have hrel : schedRelease con₁ p = schedRelease con₂ p := by
        have h := heq.symm.trans heq'
        simpa using h
      rw [if_pos rfl, hrel, ← hid', ← hsame'.mem]
      exact hI₂
    · have h := heq.symm.trans heq'
      simp at h
  · refine ⟨con, -1, heq, hL, rfl, fun _ => rfl, fun D hI => ?_, fun hE => hE⟩
    rw [if_neg (by decide)]
    exact hI

/-- Of the attempts to delete, at most the last one changes anything. -/
theorem trisSchedDelLoop_ledger (id : ℤ) (n : ℕ) {ret₀ : ℤ} (hL : Ledger con out) (h0 : ret₀ ≠ 0) :
    ∃ con' ret, trisSchedDelLoop id n con ret₀ = some (con', ret) ∧ Ledger con' out ∧
      con'.eventcnt = con.eventcnt ∧
      (∀ D, Ids con out D → Ids con' out (if ret = 0 then id :: D else D)) ∧
      (EntriesOk con out → EntriesOk con' out) := by
  induction n generalizing ret₀ with
  | zero => exact ⟨con, ret₀, rfl, hL, rfl, fun D hI => by rwa [if_neg h0], fun hE => hE⟩
  | succ n ih =>
    unfold trisSchedDelLoop
    split
    · obtain ⟨con₁, ret, hdel, hL₁, hcnt, hsame, hkeeps⟩ := trisSchedDel_ledger hL id
      simp only [hdel, Option.bind_eq_bind, Option.bind_some]
      split
      · rename_i hret
        obtain rfl := hsame hret
        exact ih hret
      · exact ⟨con₁, ret, rfl, hL₁, hcnt, hkeeps⟩
    · exact ⟨con, ret₀, rfl, hL, rfl, fun D hI => by rwa [if_neg h0], fun hE => hE⟩

theorem replaceVariableDel_ledger (oldId : ℤ) (hL : Ledger con out) :
    ∃ con' ret, replaceVariableDel con oldId = some (con', ret) ∧ Ledger con' out ∧
      con'.eventcnt = con.eventcnt ∧
      (∀ D, Ids con out D → Ids con' out (if ret = 0 then oldId :: D else D)) ∧
      (EntriesOk con out → EntriesOk con' out) := by
  unfold replaceVariableDel
  split
  · exact trisSchedDelLoop_ledger oldId 10 hL (by decide)
  · exact ⟨con, -1, rfl, hL, rfl, fun D hI => by rwa [if_neg (by decide)], fun hE => hE⟩

theorem replaceDel_ledger (oldId : ℤ) (hL : Ledger con out) :
    ∃ con' ret, replaceDel con oldId = some (con', ret) ∧ Ledger con' out ∧
      con'.eventcnt = con.eventcnt ∧
      (∀ D, Ids con out D → Ids con' out (if ret = 0 then oldId :: D else D)) ∧
      (EntriesOk con out → EntriesOk con' out) := by
  unfold replaceDel
  split
  · exact trisSchedDelLoop_ledger oldId 10 hL (by decide)
  · exact ⟨con, -1, rfl, hL, rfl, fun D hI => by rwa [if_neg (by decide)], fun hE => hE⟩

/-- A pass takes the entry it calls out of the queue. -/
theorem runqNext_ledger (hL : Ledger con out) (limit : Timeval) :
    runqNext con limit = some (con, none) ∨
    ∃ p con', runqNext con limit = some (con', some p) ∧ Ledger con' (p ::ₘ out) ∧
      con'.eventcnt = con.eventcnt ∧ con'.mem = con.mem ∧ p ∈ queued con ∧
      (∀ D, Ids con out D → Ids con' (p ::ₘ out) D) ∧
      (EntriesOk con out → EntriesOk con' (p ::ₘ out)) := by
  obtain ⟨s, hq⟩ := hL.queue
  rcases runqNext_spec hq limit with ⟨heq, -⟩ | ⟨p, con', heq, hq', hsame, hqueued, -, -⟩
  · exact .inl heq
  · have ht : Taken con s p con' := ⟨hq', hsame, hqueued⟩
    refine .inr ⟨p, con', heq, ht.ledger hL, hsame.eventcnt, hsame.mem,
      hqueued ▸ Multiset.mem_cons_self _ _, fun D hI => ?_, ht.entries⟩
    rcases runqNext_spec hI.full limit with ⟨heq', -⟩ | ⟨p', con'', heq', hq'', hsame', hqueued', -, -⟩
    · rw [heq] at heq'
      simp at heq'
    · have h := heq.symm.trans heq'
      simp only [Option.some.injEq, Prod.mk.injEq] at h
      obtain ⟨rfl, rfl⟩ := h
      exact Taken.ids ⟨hq'', hsame', hqueued'⟩ hI

theorem setWhen_sameQueue (con : SchedContext) (p : Ptr) (res : ℤ) (now : Clock) :
    SameQueue con (setWhen con p res now) := ⟨rfl, rfl, rfl⟩

theorem idOf_setWhen (con : SchedContext) (p : Ptr) (res : ℤ) (now : Clock) :
    idOf (setWhen con p res now).mem p = idOf con.mem p := by
  simp [idOf, setWhen]

/-- The entry with its new time. -/
theorem setWhen_mem {e : Entry} (he : con.mem p = some e) (res : ℤ) (now : Clock) :
    (setWhen con p res now).mem p =
      some { e with when := schedSettime e.when (chosenDelay e res) now.tv } := by
  simp [setWhen, he]

/-- The callback's result taken up. -/
theorem runqReturn_ledger (hL : Ledger con (p ::ₘ out)) (res : ℤ) {env : Env}
    (hfresh : con.schedqHt.object env.addr = none) :
    ∃ con', runqReturn con p res env = some con' ∧ Ledger con' out ∧
      con'.eventcnt = con.eventcnt ∧ (∀ D, Ids con (p ::ₘ out) D →
        Ids con' out (if res = 0 then idOf con.mem p :: D else D)) ∧
      (EntriesOk con (p ::ₘ out) → EntriesOk con' out) := by
  unfold runqReturn
  split
  · rename_i hres
    have hsame := setWhen_sameQueue con p res env.now
    have hmem : ∀ q, q ≠ p → (setWhen con p res env.now).mem q = con.mem q :=
      fun q hqp => Function.update_of_ne hqp _ _
    have hL₁ : Ledger (setWhen con p res env.now) (p ::ₘ out) :=
      hL.write hsame rfl (by simp [setWhen]) hmem
    obtain ⟨con', heq, hL', hrest, hqueued, hids, hentries⟩ := hL₁.schedule (hsame.ht ▸ hfresh)
    refine ⟨con', heq, hL', hrest.eventcnt, fun D hI =>
      hids D (hI.write hsame rfl hL.out_notMem.1 (idOf_setWhen ..) hmem), fun hE => hentries ?_⟩
    obtain ⟨e, he, hok⟩ := hE p (Multiset.mem_add.2 (.inr (Multiset.mem_cons_self _ _)))
    have hrest : EntriesOk con out := fun q hq => hE q <| by
      rw [live, Multiset.add_cons]
      exact Multiset.mem_cons_of_mem hq
    obtain ⟨hnormal, hsec⟩ :=
      schedSettime_ok hok.normal hok.sec_nonneg (chosenDelay e res) env.now
    exact hrest.write hsame (setWhen_mem he res env.now) ⟨hnormal, hsec, hok.resched⟩ hmem
  · rename_i hres
    obtain ⟨s, hq⟩ := hL.queue
    obtain ⟨-, -, hcnt, -, -⟩ := schedRelease_spec hq hL.out_notMem.1
    refine ⟨_, rfl, hL.release, hcnt, fun D hI => ?_, fun hE => hE.release hL⟩
    rw [if_pos (not_not.1 hres)]
    exact hI.release hL

end Sched

end Trismedia
