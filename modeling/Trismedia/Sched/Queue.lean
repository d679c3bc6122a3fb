import Trismedia.Sched.Model
/-!
# The queue under its operations

`QueueOk con s` is what every operation keeps of the heap, the table (`s`
is what it holds) and the count, whatever the ids are. Each operation has
one specification that says what it does to the queue and that it leaves
the rest alone (`SameRest`).
-/


namespace Trismedia

namespace Sched

open Heap Hashtab

variable {con con' : SchedContext} {s : Multiset Ptr} {p : Ptr} {mem mem' : Ptr → Option Entry}

/-- The entries in the heap. -/
def queued (con : SchedContext) : Multiset Ptr := elements con.schedHeap

/-- **The queue is sound.** The table holds part of what the heap holds. -/
structure QueueOk (con : SchedContext) (s : Multiset Ptr) : Prop where
  ordered : HeapOrdered (schedTimeCmp con.mem) con.schedHeap
  offset : 0 ≤ con.schedHeap.indexOffset
  indexed : Indexed con.schedHeap
  nodup : (queued con).Nodup
  table : Holds (schedHash con.mem) con.schedqHt s
  le : s ≤ queued con
  cnt : con.schedcnt = uint (Multiset.card (queued con))
  noTmp : .tmp ∉ queued con

/-- Memory, cache and the number of events are left alone. -/
structure SameRest (con con' : SchedContext) : Prop where
  mem : con'.mem = con.mem
  schedc : con'.schedc = con.schedc
  schedccnt : con'.schedccnt = con.schedccnt
  eventcnt : con'.eventcnt = con.eventcnt

/-! ## The functions the heap and the table are used with -/

theorem schedTimeCmp_totalPreorder (mem : Ptr → Option Entry) : TotalPreorder (schedTimeCmp mem) where
  flip _ _ := trisTvcmp_flip _ _
  trans _ _ _ hab hbc := trisTvcmp_trans _ _ _ hbc hab

theorem schedCmp_eq_zero {a b : Ptr} : schedCmp mem a b = 0 ↔ idOf mem a = idOf mem b := by
  unfold schedCmp
  split_ifs with h
  · exact ⟨fun h1 => by omega, fun h1 => absurd h1 h⟩
  · exact ⟨fun _ => not_not.1 h, fun _ => rfl⟩

theorem schedHash_respects (mem : Ptr → Option Entry) :
    HashRespects (schedCmp mem) (schedHash mem) := by
  intro a b hab
  rw [schedHash, schedHash, schedCmp_eq_zero.1 hab]

/-- The order of the heap only depends on the entries in it. -/
theorem heapOrdered_congr {h : TrisHeap Ptr} (hord : HeapOrdered (schedTimeCmp mem) h)
    (hag : ∀ q ∈ elements h, mem' q = mem q) : HeapOrdered (schedTimeCmp mem') h := by
  intro k h2 hk
  have hmem : ∀ i, 1 ≤ i → i ≤ h.curLen → whenOf mem' (heapGet h i) = whenOf mem (heapGet h i) := by
    intro i hi hin
    rw [whenOf, whenOf, hag _ (mem_elements.2 ⟨i, hi, hin, rfl⟩)]
  have hle := hord k h2 hk
  unfold AtMost schedTimeCmp at *
  rw [hmem k (by omega) hk, hmem (k / 2) (by omega) (by omega)]
  exact hle

/-- A change of memory outside the queue is no concern of the queue. -/
theorem QueueOk.congr (hq : QueueOk con s) (hheap : con'.schedHeap = con.schedHeap)
    (hht : con'.schedqHt = con.schedqHt) (hcnt : con'.schedcnt = con.schedcnt)
    (hag : ∀ q ∈ queued con, con'.mem q = con.mem q) : QueueOk con' s := by
  have hqueued : queued con' = queued con := by rw [queued, queued, hheap]
  refine ⟨?_, hheap ▸ hq.offset, hheap ▸ hq.indexed, hqueued ▸ hq.nodup, ?_, hqueued ▸ hq.le, ?_,
    hqueued ▸ hq.noTmp⟩
  · rw [hheap]
    exact heapOrdered_congr hq.ordered hag
  · rw [hht]
    refine hq.table.congr_hash fun q hqs => ?_
    rw [schedHash, schedHash, idOf, idOf, hag q (Multiset.mem_of_le hq.le hqs)]
  · rw [hcnt, hqueued, hq.cnt]

theorem uint_succ (n : ℕ) : uint (uint n + 1) = uint (n + 1) := by
  unfold uint
  omega

theorem uint_pred (n : ℕ) : uint (uint (n + 1) + (2 ^ 32 - 1)) = uint n := by
  unfold uint
  omega

/-! ## Into the queue -/

/-- **`schedule`** puts the entry in the heap, and in the table unless an
entry there has its id. -/
theorem schedule_spec (hq : QueueOk con s) (hp : p ∉ queued con) (htmp : p ≠ .tmp) {addr : Addr}
    (hfresh : con.schedqHt.object addr = none) :
    ∃ con' s', schedule con p addr = some con' ∧ QueueOk con' s' ∧ SameRest con con' ∧
      queued con' = p ::ₘ queued con ∧
      ((s' = p ::ₘ s ∧ ∀ q ∈ s, idOf con.mem q ≠ idOf con.mem p) ∨
        (s' = s ∧ ∃ q ∈ s, idOf con.mem q = idOf con.mem p)) := by
  obtain ⟨hord, hels, hoff, hidx⟩ :=
    trisHeapPush_spec (schedTimeCmp_totalPreorder con.mem) hq.ordered p
  have hnodup : (p ::ₘ queued con).Nodup := Multiset.nodup_cons.2 ⟨hp, hq.nodup⟩
  have hcnt : uint (con.schedcnt + 1) = uint (Multiset.card (p ::ₘ queued con)) := by
    rw [hq.cnt, uint_succ, Multiset.card_cons]
  have htmp' : Ptr.tmp ∉ p ::ₘ queued con := by
    rw [Multiset.mem_cons, not_or]
    exact ⟨htmp.symm, hq.noTmp⟩
  obtain ⟨ht, r, s', heq, htable, hle, hs'⟩ : ∃ ht r s', trisHashtabInsertSafe (schedCmp con.mem)
      (schedHash con.mem) con.schedqHt (some p) addr = some (ht, r) ∧
      Holds (schedHash con.mem) ht s' ∧ s' ≤ p ::ₘ queued con ∧
      ((s' = p ::ₘ s ∧ ∀ q ∈ s, idOf con.mem q ≠ idOf con.mem p) ∨
        (s' = s ∧ ∃ q ∈ s, idOf con.mem q = idOf con.mem p)) := by
    rcases trisHashtabInsertSafe_spec (o := p) (schedHash_respects con.mem) hq.table hfresh with
      ⟨⟨q, hqs, hcmp⟩, heq⟩ | ⟨hnew, ht, heq, htable⟩
    · exact ⟨_, _, s, heq, hq.table, hq.le.trans (Multiset.le_cons_self _ _),
        .inr ⟨rfl, q, hqs, (schedCmp_eq_zero.1 hcmp).symm⟩⟩
    · exact ⟨ht, _, p ::ₘ s, heq, htable, Multiset.cons_le_cons p hq.le,
        .inl ⟨rfl, fun q hqs he => hnew q hqs (schedCmp_eq_zero.2 he.symm)⟩⟩
  have hcon : schedule con p addr = some { con with
      schedHeap := trisHeapPush (schedTimeCmp con.mem) con.schedHeap p
      schedqHt := ht
      schedcnt := uint (con.schedcnt + 1)
      highwater := if uint (con.schedcnt + 1) > con.highwater then uint (con.schedcnt + 1)
        else con.highwater } := by
    simp only [schedule, heq, Option.bind_eq_bind, Option.bind_some]
  refine ⟨_, s', hcon, ⟨hord, ?_, hidx hq.offset hq.indexed hp, ?_, htable, ?_, ?_, ?_⟩,
    ⟨rfl, rfl, rfl, rfl⟩, hels, hs'⟩
  · exact hoff ▸ hq.offset
  · show (elements (trisHeapPush _ con.schedHeap p)).Nodup
    rwa [hels]
  · show s' ≤ elements (trisHeapPush _ con.schedHeap p)
    rwa [hels]
  · show uint (con.schedcnt + 1) = uint (elements (trisHeapPush _ con.schedHeap p)).card
    rwa [hels]
  · show Ptr.tmp ∉ elements (trisHeapPush _ con.schedHeap p)
    rwa [hels]

/-! ## Out of the queue -/

/-- What follows the removal of `p` from the heap. -/
theorem dequeue_spec (hq : QueueOk con s) {heap : TrisHeap Ptr}
    (hord : HeapOrdered (schedTimeCmp con.mem) heap) (hoff : 0 ≤ heap.indexOffset)
    (hidx : Indexed heap) (hels : queued con = p ::ₘ elements heap) :
    ∃ con', dequeue con heap p = some con' ∧ QueueOk con' (s.erase p) ∧ SameRest con con' ∧
      queued con = p ::ₘ queued con' := by
  have hnodup : (p ::ₘ elements heap).Nodup := hels ▸ hq.nodup
  have hle : s.erase p ≤ elements heap := by
    have herase := Multiset.erase_le_erase p hq.le
    rwa [hels, Multiset.erase_cons_head] at herase
  have hcnt : uint (con.schedcnt + (2 ^ 32 - 1)) = uint (Multiset.card (elements heap)) := by
    rw [hq.cnt, hels, Multiset.card_cons, uint_pred]
  have htmp : Ptr.tmp ∉ elements heap := fun h => hq.noTmp (hels ▸ Multiset.mem_cons_of_mem h)
  obtain ⟨ht, r, heq, htable⟩ : ∃ ht r, trisHashtabRemoveThisObject (schedHash con.mem)
      con.schedqHt (some p) = some (ht, r) ∧ Holds (schedHash con.mem) ht (s.erase p) := by
    rcases removeThisObject_spec hq.table p with ⟨ht, heq, t, hst, htable⟩ | ⟨hps, heq⟩
    · exact ⟨ht, _, heq, by rwa [hst, Multiset.erase_cons_head]⟩
    · exact ⟨_, _, heq, by rw [Multiset.erase_of_notMem hps]; exact hq.table⟩
  have hcon : dequeue con heap p = some { con with
      schedHeap := heap
      schedqHt := ht
      schedcnt := uint (con.schedcnt + (2 ^ 32 - 1)) } := by
    simp only [dequeue, heq, Option.bind_eq_bind, Option.bind_some]
  exact ⟨_, hcon, ⟨hord, hoff, hidx, (Multiset.nodup_cons.1 hnodup).2, htable, hle, hcnt, htmp⟩,
    ⟨rfl, rfl, rfl, rfl⟩, hels⟩

/-- The lookup by id finds an entry of the table with that id. -/
theorem findId_of_holds (hs : Holds (schedHash con.mem) con.schedqHt s) (hnt : .tmp ∉ s) (id : ℤ) :
    ∃ r, findId con id = some r ∧
      match r with
      | some q => q ∈ s ∧ idOf con.mem q = id
      | none => ∀ q ∈ s, idOf con.mem q ≠ id := by
  have hmem : ∀ q ∈ s, Function.update con.mem .tmp (some { zeroEntry with id := id }) q =
      con.mem q := fun q hqs => by
    have hne : q ≠ .tmp := fun he => hnt (he ▸ hqs)
    exact Function.update_of_ne hne _ _
  have htmp : idOf (Function.update con.mem .tmp (some { zeroEntry with id := id })) .tmp = id := by
    rw [idOf, Function.update_self]
    rfl
  have htable : Holds (schedHash (Function.update con.mem .tmp (some { zeroEntry with id := id })))
      con.schedqHt s := hs.congr_hash fun q hqs => by
    rw [schedHash, schedHash, idOf, idOf, hmem q hqs]
  obtain ⟨r, hr, hspec⟩ := trisHashtabLookup_spec (schedHash_respects _) htable .tmp
  refine ⟨r, hr, ?_⟩
  cases r with
  | none =>
    intro q hqs hid
    refine hspec q hqs (schedCmp_eq_zero.2 ?_)
    rw [htmp, idOf, hmem q hqs, ← hid]
    rfl
  | some q =>
    have hid := schedCmp_eq_zero.1 hspec.2
    rw [htmp, idOf, hmem q hspec.1] at hid
    exact ⟨hspec.1, hid.symm⟩

/-- And so it does in a queue. -/
theorem findId_spec (hq : QueueOk con s) (id : ℤ) :
    ∃ r, findId con id = some r ∧
      match r with
      | some q => q ∈ s ∧ idOf con.mem q = id
      | none => ∀ q ∈ s, idOf con.mem q ≠ id :=
  findId_of_holds hq.table (fun hs => hq.noTmp (Multiset.mem_of_le hq.le hs)) id

/-- The entry goes to the cache or is freed; the queue does not have it. -/
theorem schedRelease_spec (hq : QueueOk con s) (hp : p ∉ queued con) :
    QueueOk (schedRelease con p) s ∧ queued (schedRelease con p) = queued con ∧
      (schedRelease con p).eventcnt = con.eventcnt ∧
      (∀ q, q ≠ p → (schedRelease con p).mem q = con.mem q) ∧
      (((schedRelease con p).mem = con.mem ∧ (schedRelease con p).schedc = p :: con.schedc) ∨
        ((schedRelease con p).mem p = none ∧ (schedRelease con p).schedc = con.schedc)) := by
  unfold schedRelease
  split
  · exact ⟨hq.congr rfl rfl rfl fun _ _ => rfl, rfl, rfl, fun _ _ => rfl, .inl ⟨rfl, rfl⟩⟩
  · refine ⟨hq.congr rfl rfl rfl fun q hqq => ?_, rfl, rfl, fun q hqp => ?_, .inr ⟨?_, rfl⟩⟩
    · exact Function.update_of_ne (fun he : q = p => hp (he ▸ hqq)) _ _
    · exact Function.update_of_ne hqp _ _
    · exact Function.update_self ..

/-- **`tris_sched_del`** takes the entry with the id out of the queue, or
finds none in the table. -/
theorem trisSchedDel_spec (hq : QueueOk con s) (id : ℤ) :
    (∃ p con₁, trisSchedDel con id = some (schedRelease con₁ p, 0) ∧ p ∈ s ∧ idOf con.mem p = id ∧
      QueueOk con₁ (s.erase p) ∧ SameRest con con₁ ∧ queued con = p ::ₘ queued con₁) ∨
    (trisSchedDel con id = some (con, -1) ∧ ∀ q ∈ s, idOf con.mem q ≠ id) := by
  obtain ⟨r, hr, hspec⟩ := findId_spec hq id
  unfold trisSchedDel
  cases r with
  | none =>
    refine .inr ⟨?_, hspec⟩
    simp only [hr, Option.bind_eq_bind, Option.bind_some]
  | some p =>
    obtain ⟨hps, hid⟩ := hspec
    obtain ⟨g, hg, hord, hels, hoff, hidx⟩ :=
      trisHeapRemove_spec (schedTimeCmp_totalPreorder con.mem) hq.ordered hq.offset hq.indexed
        (Multiset.mem_of_le hq.le hps)
    obtain ⟨con₁, hcon, hq₁, hsame, hqueued⟩ := dequeue_spec hq hord (hoff ▸ hq.offset) hidx hels
    refine .inl ⟨p, con₁, ?_, hps, hid, hq₁, hsame, hqueued⟩
    simp only [hr, hg, hcon, Option.bind_eq_bind, Option.bind_some]

/-- **One turn of `tris_sched_runq`, up to the callback.** The loop ends
where nothing is due before the limit; otherwise an entry that is due
first leaves the queue. -/
theorem runqNext_spec (hq : QueueOk con s) (limit : Timeval) :
    (runqNext con limit = some (con, none) ∧
      ∀ q ∈ queued con, ¬ trisTvcmp (whenOf con.mem q) limit < 0) ∨
    (∃ p con', runqNext con limit = some (con', some p) ∧ QueueOk con' (s.erase p) ∧
      SameRest con con' ∧ queued con = p ::ₘ queued con' ∧
      trisTvcmp (whenOf con.mem p) limit < 0 ∧
      ∀ q ∈ queued con, trisTvcmp (whenOf con.mem p) (whenOf con.mem q) ≤ 0) := by
  rcases eq_or_ne con.schedHeap.curLen 0 with hz | hne
  · have hempty : queued con = 0 := elements_eq_zero.2 hz
    refine .inl ⟨?_, by simp [hempty]⟩
    simp only [runqNext, trisHeapPeek, hz, true_or, if_true]
  · have hcmp := schedTimeCmp_totalPreorder con.mem
    have hpeek : trisHeapPeek con.schedHeap 1 = some (heapGet con.schedHeap 1) := by
      rw [trisHeapPeek, if_neg (by omega)]
    obtain ⟨p, g, hpop, hord, hels, hmax, hoff, hidx⟩ := trisHeapPop_spec hcmp hq.ordered hne
    have hroot : heapGet con.schedHeap 1 = p := by
      have hsome := congrArg Prod.fst hpop
      rw [trisHeapPop, heapRemove, if_neg (by omega)] at hsome
      exact Option.some.inj hsome
    unfold runqNext
    simp only [hpeek, hroot]
    by_cases hdue : trisTvcmp (whenOf con.mem p) limit = -1
    · obtain ⟨con', hcon, hq', hsame, hqueued⟩ :=
        dequeue_spec hq hord (hoff ▸ hq.offset) (hidx hq.offset hq.indexed) hels
      refine .inr ⟨p, con', ?_, hq', hsame, hqueued, trisTvcmp_eq_neg_one.1 hdue, hmax⟩
      simp only [hdue, hpop, hcon, ne_eq, not_true_eq_false, if_false, Option.bind_eq_bind,
        Option.bind_some]
    · refine .inl ⟨by rw [if_pos hdue], fun q hqq hlt => hdue (trisTvcmp_eq_neg_one.2 ?_)⟩
      -- what is due no later than `q` would be due as well
      exact trisTvcmp_lt_of_le_of_lt (hmax q hqq) hlt

end Sched

end Trismedia
