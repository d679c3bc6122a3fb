import Trismedia.Sched.Queue
/-!
# Who holds which entry

Every entry in use is in exactly one place: the queue, the cache, or in
the hands of a pass whose callback runs (`out`). `Ledger` keeps the
places apart; the calls move an entry from one place to another, so the
sum of the places changes only where an entry is allocated or freed.
`Ids` adds what holds while the ids do not wrap around.
-/


namespace Trismedia

namespace Sched

open Heap Hashtab

variable {con con' con₁ : SchedContext} {s out : Multiset Ptr} {p : Ptr} {D : List ℤ}

/-- The entries that will run: queued, or running now. -/
def live (con : SchedContext) (out : Multiset Ptr) : Multiset Ptr := queued con + out

/-- All entries in use. -/
def places (con : SchedContext) (out : Multiset Ptr) : Multiset Ptr :=
  live con out + (con.schedc : Multiset Ptr)

/-- **No entry is in two places, and all are allocated.** -/
structure Ledger (con : SchedContext) (out : Multiset Ptr) : Prop where
  queue : ∃ s, QueueOk con s
  nodup : (places con out).Nodup
  alloc : ∀ q ∈ places con out, con.mem q ≠ none ∧ q ≠ .tmp

/-- **The ids.** While `eventcnt` has not wrapped around, the table holds
the whole queue, ids are given once, and deleted ids are not live. -/
structure Ids (con : SchedContext) (out : Multiset Ptr) (D : List ℤ) : Prop where
  full : QueueOk con (queued con)
  range : ∀ q ∈ live con out, 1 ≤ idOf con.mem q ∧ idOf con.mem q < con.eventcnt
  nodup : ((live con out).map (idOf con.mem)).Nodup
  dead : ∀ id ∈ D, id < con.eventcnt ∧ ∀ q ∈ live con out, idOf con.mem q ≠ id

/-- A value of the type `int`. -/
def IsInt (n : ℤ) : Prop := -2 ^ 31 ≤ n ∧ n < 2 ^ 31

/-- An entry whose times and delays are proper values. -/
structure EntryOk (e : Entry) : Prop where
  normal : e.when.Normal
  sec_nonneg : 0 ≤ e.when.tvSec
  resched : IsInt e.resched

/-- The entries that will run are proper. -/
def EntriesOk (con : SchedContext) (out : Multiset Ptr) : Prop :=
  ∀ q ∈ live con out, ∃ e, con.mem q = some e ∧ EntryOk e

theorem mem_places_of_live {q : Ptr} (hq : q ∈ live con out) : q ∈ places con out :=
  Multiset.mem_add.2 (.inl hq)

theorem Ids.inj (hI : Ids con out D) {q q' : Ptr} (hq : q ∈ live con out) (hq' : q' ∈ live con out)
    (h : idOf con.mem q = idOf con.mem q') : q = q' :=
  Multiset.inj_on_of_nodup_map hI.nodup _ hq _ hq' h

/-! ## An entry leaves the queue -/

/-- What `dequeue` and the cut of a pass at its callback do. -/
structure Taken (con : SchedContext) (s : Multiset Ptr) (p : Ptr) (con' : SchedContext) : Prop where
  queue : QueueOk con' (s.erase p)
  same : SameRest con con'
  queued : queued con = p ::ₘ queued con'

theorem Taken.live_eq (ht : Taken con s p con') : live con' (p ::ₘ out) = live con out := by
  rw [live, live, ht.queued, Multiset.add_cons, Multiset.cons_add]

theorem Taken.ledger (ht : Taken con s p con') (hL : Ledger con out) :
    Ledger con' (p ::ₘ out) := by
  have hplaces : places con' (p ::ₘ out) = places con out := by
    rw [places, places, ht.live_eq, ht.same.schedc]
  refine ⟨⟨_, ht.queue⟩, hplaces ▸ hL.nodup, fun q hq => ?_⟩
  rw [ht.same.mem]
  exact hL.alloc q (hplaces ▸ hq)

theorem Taken.ids (ht : Taken con (Sched.queued con) p con') (hI : Ids con out D) :
    Ids con' (p ::ₘ out) D := by
  have hqueue := ht.queue
  rw [ht.queued, Multiset.erase_cons_head] at hqueue
  refine ⟨hqueue, fun q hq => ?_, ?_, fun id hid => ?_⟩
  · rw [ht.live_eq] at hq
    rw [ht.same.mem, ht.same.eventcnt]
    exact hI.range q hq
  · rw [ht.live_eq, ht.same.mem]
    exact hI.nodup
  · rw [ht.live_eq, ht.same.mem, ht.same.eventcnt]
    exact hI.dead id hid

theorem Taken.entries (ht : Taken con s p con') (hE : EntriesOk con out) :
    EntriesOk con' (p ::ₘ out) := by
  intro q hq
  rw [ht.live_eq] at hq
  rw [ht.same.mem]
  exact hE q hq

/-! ## An entry is given up -/

theorem Ledger.out_notMem (hL : Ledger con (p ::ₘ out)) :
    p ∉ queued con ∧ p ∉ out ∧ p ∉ con.schedc := by
  have hnd := hL.nodup
  rw [places, live, Multiset.add_cons, Multiset.cons_add, Multiset.nodup_cons] at hnd
  simpa only [Multiset.mem_add, Multiset.mem_coe, not_or, and_assoc] using hnd.1

theorem Ledger.release (hL : Ledger con (p ::ₘ out)) : Ledger (schedRelease con p) out := by
  obtain ⟨s, hq⟩ := hL.queue
  obtain ⟨hpq, hpo, hpc⟩ := hL.out_notMem
  obtain ⟨hq', hqueued, -, hmem, hcase⟩ := schedRelease_spec hq hpq
  have hold : places con (p ::ₘ out) = p ::ₘ places con out := by
    rw [places, places, live, live, Multiset.add_cons, Multiset.cons_add]
  rcases hcase with ⟨hsame, hcache⟩ | ⟨hfree, hcache⟩
  · have hnew : places (schedRelease con p) out = places con (p ::ₘ out) := by
      rw [hold, places, places, live, live, hqueued, hcache, ← Multiset.cons_coe,
        Multiset.add_cons]
    refine ⟨⟨s, hq'⟩, hnew ▸ hL.nodup, fun q hq => ?_⟩
    rw [hsame]
    exact hL.alloc q (hnew ▸ hq)
  · have hnew : places (schedRelease con p) out = places con out := by
      rw [places, places, live, live, hqueued, hcache]
    have hnd := hL.nodup
    rw [hold, Multiset.nodup_cons] at hnd
    refine ⟨⟨s, hq'⟩, hnew ▸ hnd.2, fun q hq => ?_⟩
    rw [hnew] at hq
    have hqp : q ≠ p := fun he => hnd.1 (he ▸ hq)
    rw [hmem q hqp]
    exact hL.alloc q (hold ▸ Multiset.mem_cons_of_mem hq)

theorem Ledger.release_live (hL : Ledger con (p ::ₘ out)) :
    live con (p ::ₘ out) = p ::ₘ live con out ∧ p ∉ live con out ∧
      live (schedRelease con p) out = live con out ∧
      ∀ q ∈ live con out, (schedRelease con p).mem q = con.mem q := by
  obtain ⟨s, hq⟩ := hL.queue
  obtain ⟨hpq, hpo, -⟩ := hL.out_notMem
  obtain ⟨-, hqueued, -, hmem, -⟩ := schedRelease_spec hq hpq
  have hp : p ∉ live con out := fun h => (Multiset.mem_add.1 h).elim hpq hpo
  refine ⟨by rw [live, live, Multiset.add_cons], hp, by rw [live, live, hqueued], fun q hq => ?_⟩
  exact hmem q fun he => hp (he ▸ hq)

theorem EntriesOk.release (hE : EntriesOk con (p ::ₘ out)) (hL : Ledger con (p ::ₘ out)) :
    EntriesOk (schedRelease con p) out := by
  obtain ⟨hold, -, hlive, hmem⟩ := hL.release_live
  intro q hq
  rw [hlive] at hq
  rw [hmem q hq]
  exact hE q (hold ▸ Multiset.mem_cons_of_mem hq)

/-- An id that goes with its entry is dead from then on. -/
theorem Ids.release (hI : Ids con (p ::ₘ out) D) (hL : Ledger con (p ::ₘ out)) :
    Ids (schedRelease con p) out (idOf con.mem p :: D) := by
  obtain ⟨hq', hqueued, hcnt, -, -⟩ := schedRelease_spec hI.full hL.out_notMem.1
  obtain ⟨hold, -, hlive, hmem⟩ := hL.release_live
  have hid : ∀ q ∈ live con out, idOf (schedRelease con p).mem q = idOf con.mem q := fun q hq => by
    rw [idOf, idOf, hmem q hq]
  have hnd := hI.nodup
  rw [hold, Multiset.map_cons, Multiset.nodup_cons] at hnd
  refine ⟨hqueued ▸ hq', fun q hq => ?_, ?_, fun id hid' => ?_⟩
  · rw [hlive] at hq
    rw [hid q hq, hcnt]
    exact hI.range q (hold ▸ Multiset.mem_cons_of_mem hq)
  · rw [hlive, Multiset.map_congr rfl hid]
    exact hnd.2
  · rw [hcnt, hlive]
    rcases List.mem_cons.1 hid' with rfl | hD
    · refine ⟨(hI.range p (hold ▸ Multiset.mem_cons_self _ _)).2, fun q hq he => ?_⟩
      rw [hid q hq] at he
      exact hnd.1 (Multiset.mem_map.2 ⟨q, hq, he⟩)
    · refine ⟨(hI.dead id hD).1, fun q hq => ?_⟩
      rw [hid q hq]
      exact (hI.dead id hD).2 q (hold ▸ Multiset.mem_cons_of_mem hq)

/-! ## An entry is taken from the cache, or allocated, and written -/

/-- Heap, table and count are left alone. -/
structure SameQueue (con con' : SchedContext) : Prop where
  heap : con'.schedHeap = con.schedHeap
  ht : con'.schedqHt = con.schedqHt
  cnt : con'.schedcnt = con.schedcnt

theorem SameQueue.queued (h : SameQueue con con') : queued con' = queued con := by
  rw [Sched.queued, Sched.queued, h.heap]

theorem places_cons (con : SchedContext) (p : Ptr) (out : Multiset Ptr) :
    places con (p ::ₘ out) = p ::ₘ places con out := by
  rw [places, places, live, live, Multiset.add_cons, Multiset.cons_add]

theorem schedAlloc_spec (hL : Ledger con out) {env : Env} (hfresh : env.Fresh con) :
    ∃ con' p, schedAlloc con env = (con', p) ∧ Ledger con' (p ::ₘ out) ∧ SameQueue con con' ∧
      con'.eventcnt = con.eventcnt ∧ ∀ q, q ≠ p → con'.mem q = con.mem q := by
  obtain ⟨s, hq⟩ := hL.queue
  unfold schedAlloc
  split
  · rename_i p rest hcache
    have hplaces : places { con with schedc := rest, schedccnt := con.schedccnt - 1 } (p ::ₘ out) =
        places con out := by
      rw [places_cons, places, places, hcache, ← Multiset.cons_coe, Multiset.add_cons]
      rfl
    exact ⟨_, p, rfl, ⟨⟨s, hq.congr rfl rfl rfl fun _ _ => rfl⟩, hplaces ▸ hL.nodup,
      fun q hq => hL.alloc q (hplaces ▸ hq)⟩, ⟨rfl, rfl, rfl⟩, rfl, fun _ _ => rfl⟩
  · have hnew : Ptr.cell env.fresh ∉ places con out := fun h => (hL.alloc _ h).1 hfresh.1
    have hne : ∀ q ∈ places con out, q ≠ .cell env.fresh := fun q hq he => hnew (he ▸ hq)
    refine ⟨_, _, rfl, ⟨⟨s, hq.congr rfl rfl rfl fun q hqq => ?_⟩, ?_, fun q hq => ?_⟩,
      ⟨rfl, rfl, rfl⟩, rfl, fun q hqp => Function.update_of_ne hqp _ _⟩
    · exact Function.update_of_ne
        (hne q (mem_places_of_live (Multiset.mem_add.2 (.inl hqq)))) _ _
    · rw [places_cons]
      exact Multiset.nodup_cons.2 ⟨hnew, hL.nodup⟩
    · rw [places_cons] at hq
      rcases Multiset.mem_cons.1 hq with rfl | hq
      · refine ⟨?_, by simp⟩
        show Function.update con.mem _ _ _ ≠ none
        rw [Function.update_self]
        simp
      · refine ⟨?_, (hL.alloc q hq).2⟩
        show Function.update con.mem _ _ q ≠ none
        rw [Function.update_of_ne (hne q hq)]
        exact (hL.alloc q hq).1

/-- The holder of an entry writes it. -/
theorem Ledger.write (hL : Ledger con (p ::ₘ out)) (hsame : SameQueue con con')
    (hcache : con'.schedc = con.schedc) (hp : con'.mem p ≠ none)
    (hmem : ∀ q, q ≠ p → con'.mem q = con.mem q) : Ledger con' (p ::ₘ out) := by
  obtain ⟨s, hq⟩ := hL.queue
  have hplaces : places con' (p ::ₘ out) = places con (p ::ₘ out) := by
    rw [places, places, live, live, hsame.queued, hcache]
  refine ⟨⟨s, hq.congr hsame.heap hsame.ht hsame.cnt fun q hqq => hmem q fun he => ?_⟩,
    hplaces ▸ hL.nodup, fun q hq => ?_⟩
  · exact hL.out_notMem.1 (he ▸ hqq)
  · rw [hplaces] at hq
    rcases eq_or_ne q p with rfl | hqp
    · exact ⟨hp, (hL.alloc q hq).2⟩
    · rw [hmem q hqp]
      exact hL.alloc q hq

/-- The entry written is proper, whatever it was. -/
theorem EntriesOk.write {e : Entry} (hE : EntriesOk con out) (hsame : SameQueue con con')
    (hp : con'.mem p = some e) (he : EntryOk e) (hmem : ∀ q, q ≠ p → con'.mem q = con.mem q) :
    EntriesOk con' (p ::ₘ out) := by
  intro q hq
  rcases eq_or_ne q p with rfl | hqp
  · exact ⟨e, hp, he⟩
  · rw [live, hsame.queued, Multiset.add_cons, Multiset.mem_cons] at hq
    rw [hmem q hqp]
    exact hE q (hq.resolve_left hqp)

/-- A write that keeps the id keeps the ids. -/
theorem Ids.write (hI : Ids con (p ::ₘ out) D) (hsame : SameQueue con con')
    (hcnt : con'.eventcnt = con.eventcnt) (hp : p ∉ queued con)
    (hid : idOf con'.mem p = idOf con.mem p)
    (hmem : ∀ q, q ≠ p → con'.mem q = con.mem q) : Ids con' (p ::ₘ out) D := by
  have hlive : live con' (p ::ₘ out) = live con (p ::ₘ out) := by rw [live, live, hsame.queued]
  have hids : ∀ q, idOf con'.mem q = idOf con.mem q := fun q => by
    rcases eq_or_ne q p with rfl | hqp
    · exact hid
    · rw [idOf, idOf, hmem q hqp]
  refine ⟨?_, fun q hq => ?_, ?_, fun id hD => ?_⟩
  · rw [hsame.queued]
    exact hI.full.congr hsame.heap hsame.ht hsame.cnt fun q hqq => hmem q fun he => hp (he ▸ hqq)
  · rw [hids, hcnt]
    exact hI.range q (hlive ▸ hq)
  · rw [hlive, Multiset.map_congr rfl fun q _ => hids q]
    exact hI.nodup
  · rw [hcnt, hlive]
    exact ⟨(hI.dead id hD).1, fun q hq => (hids q).trans_ne ((hI.dead id hD).2 q hq)⟩

/-- A new entry takes the next id. -/
theorem Ids.new (hI : Ids con out D) (hsame : SameQueue con con') (hp : p ∉ live con out)
    (hcnt : con'.eventcnt = con.eventcnt + 1) (hpos : 1 ≤ con.eventcnt)
    (hid : idOf con'.mem p = con.eventcnt) (hmem : ∀ q, q ≠ p → con'.mem q = con.mem q) :
    Ids con' (p ::ₘ out) D := by
  have hlive : live con' (p ::ₘ out) = p ::ₘ live con out := by
    rw [live, live, hsame.queued, Multiset.add_cons]
  have hids : ∀ q ∈ live con out, idOf con'.mem q = idOf con.mem q := fun q hq => by
    rw [idOf, idOf, hmem q fun he => hp (he ▸ hq)]
  refine ⟨?_, fun q hq => ?_, ?_, fun id hD => ?_⟩
  · rw [hsame.queued]
    exact hI.full.congr hsame.heap hsame.ht hsame.cnt fun q hqq =>
      hmem q fun he => hp (he ▸ Multiset.mem_add.2 (.inl hqq))
  · rw [hlive] at hq
    rw [hcnt]
    rcases Multiset.mem_cons.1 hq with rfl | hq
    · rw [hid]
      omega
    · have hrange := hI.range q hq
      rw [hids q hq]
      omega
  · rw [hlive, Multiset.map_cons, Multiset.map_congr rfl hids, Multiset.nodup_cons, hid]
    refine ⟨fun h => ?_, hI.nodup⟩
    obtain ⟨q, hq, he⟩ := Multiset.mem_map.1 h
    have hlt := (hI.range q hq).2
    omega
  · have hdead := hI.dead id hD
    rw [hcnt, hlive]
    refine ⟨by omega, fun q hq => ?_⟩
    rcases Multiset.mem_cons.1 hq with rfl | hq
    · rw [hid]
      omega
    · rw [hids q hq]
      exact hdead.2 q hq

/-! ## An entry enters the queue -/

/-- **`schedule` by the holder of the entry.** Where the ids are in order
the table takes it. -/
theorem Ledger.schedule (hL : Ledger con (p ::ₘ out)) {addr : Addr}
    (hfresh : con.schedqHt.object addr = none) :
    ∃ con', schedule con p addr = some con' ∧ Ledger con' out ∧ SameRest con con' ∧
      queued con' = p ::ₘ queued con ∧ (∀ D, Ids con (p ::ₘ out) D → Ids con' out D) ∧
      (EntriesOk con (p ::ₘ out) → EntriesOk con' out) := by
  obtain ⟨s, hq⟩ := hL.queue
  obtain ⟨hpq, -, -⟩ := hL.out_notMem
  have hlive' : ∀ con', queued con' = p ::ₘ queued con → live con' out = live con (p ::ₘ out) :=
    fun con' h => by rw [live, live, h, Multiset.add_cons, Multiset.cons_add]
  have htmp : p ≠ .tmp := (hL.alloc p (by rw [places_cons]; exact Multiset.mem_cons_self _ _)).2
  obtain ⟨con', s', heq, hq', hsame, hqueued, -⟩ := schedule_spec hq hpq htmp hfresh
  have hlive := hlive' con' hqueued
  have hplaces : places con' out = places con (p ::ₘ out) := by
    rw [places, places, hlive, hsame.schedc]
  refine ⟨con', heq, ⟨⟨s', hq'⟩, hplaces ▸ hL.nodup, fun q hq => ?_⟩, hsame, hqueued,
    fun D hI => ?_, fun hE q hq => ?_⟩
  · rw [hsame.mem]
    exact hL.alloc q (hplaces ▸ hq)
  · obtain ⟨con'', s'', heq', hq'', -, hqueued', hcase⟩ := schedule_spec hI.full hpq htmp hfresh
    obtain rfl : con' = con'' := Option.some.inj (heq.symm.trans heq')
    have hfull : s'' = queued con' := by
      rcases hcase with ⟨h, -⟩ | ⟨-, q, hqq, he⟩
      · rw [h, hqueued]
      · -- nothing in the queue has the id of `p`
        have hqp : q = p := hI.inj (Multiset.mem_add.2 (.inl hqq))
          (Multiset.mem_add.2 (.inr (Multiset.mem_cons_self _ _))) he
        exact absurd (hqp ▸ hqq) hpq
    refine ⟨hfull ▸ hq'', ?_, ?_, ?_⟩
    · rw [hlive, hsame.mem, hsame.eventcnt]
      exact hI.range
    · rw [hlive, hsame.mem]
      exact hI.nodup
    · rw [hlive, hsame.mem, hsame.eventcnt]
      exact hI.dead
  · rw [hsame.mem]
    exact hE q (hlive ▸ hq)

end Sched

end Trismedia
