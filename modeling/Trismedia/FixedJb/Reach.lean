import Trismedia.FixedJb.Runs
/-!
# Every state of the fixed jitter buffer

The calls may come in any order, and `fixed_jb_put_first` more than once.
The deliveries need not be in order then; the queue is still linked and
the limits positive, which is all that `fixed_jb_put` needs to return.
-/


namespace Trismedia

namespace Fixedjitterbuf

variable {jb jb' jb₁ : FixedJb} {l l' l₁ : List Item} {ev : FixedJbEvent}
variable {newframe data : ℕ} {ms ts now interpl : ℤ} {ret : FixedJbCode}
variable {frame : Option FixedJbFrame}

/-- **The states a buffer can be in**: new, and after any calls. -/
inductive Reached : FixedJb → Prop
  | new (jbsize resyncThreshold : ℤ) : Reached (fixedJbNew jbsize resyncThreshold)
  | putFirst {jb jb' : FixedJb} {newframe data : ℕ} {ms ts now : ℤ} {ret : FixedJbCode} :
    Reached jb → FirstStep jb newframe data ms ts now ret jb' → Reached jb'
  | call {jb jb' : FixedJb} {ev : FixedJbEvent} :
    Reached jb → FixedJbStep jb ev jb' → Reached jb'

/-- The queue is linked, and the limits are positive. -/
structure Queued (jb : FixedJb) (l : List Item) : Prop where
  list : ListOk jb l
  delay : 1 ≤ jb.delay
  threshold : 1 ≤ jb.resyncThreshold

/-- What stays of a queued frame when the timestamps are shifted. -/
def Item.entry (x : Item) : ℕ × ℕ × ℤ × ℤ := (x.1, x.2.data, x.2.ms, x.2.delivery)

/-- **The frame is added, or nothing is.** A resynchronisation may have
shifted the timestamps of the others. -/
def PutResult (l : List Item) (newframe data : ℕ) (ms ts : ℤ) (jb' : FixedJb) (ret : FixedJbCode)
    (l' : List Item) : Prop :=
  (ret = .ok ∧ ∃ k₁ k₂ d, l' = k₁ ++ (newframe, d) :: k₂ ∧
    (k₁ ++ k₂).map Item.entry = l.map Item.entry ∧
    d = ⟨data, ts, ms, jb'.rxcore + jb'.delay + ts⟩) ∨
  (ret = .drop ∧ l'.map Item.entry = l.map Item.entry)

theorem map_shift_entry (offset : ℤ) (l : List Item) :
    (l.map (Item.shift offset)).map Item.entry = l.map Item.entry := by
  rw [List.map_map]
  rfl

/-- A resynchronisation keeps the frames and their delivery times. -/
theorem Resynched.queued (hres : Resynched jb l ts now jb₁ l₁) (hq : Queued jb l) :
    Queued jb₁ l₁ ∧ l₁.map Item.entry = l.map Item.entry := by
  cases hres with
  | kept => exact ⟨hq, rfl⟩
  | restarted hnil =>
    subst hnil
    exact ⟨⟨⟨hq.list.frames, hq.list.tail, trivial, by simp, by simp⟩, hq.delay, hq.threshold⟩, rfl⟩
  | @shifted l₀ x offset mem heq hoffset hlist =>
    exact ⟨⟨hlist, hq.delay, hq.threshold⟩, map_shift_entry offset l⟩

/-- **Putting a frame**, in a queue that is linked. -/
theorem Queued.put (hq : Queued jb l) (hdata : data ≠ 0) (hms : 2 ≤ ms) (hts : 0 ≤ ts)
    (hnow : 0 ≤ now) (hnew : newframe ≠ 0) (hfree : jb.mem newframe = none) :
    ∃ jb' ret l', Returns (fun fuel => fixedJbPut newframe data ms ts now fuel jb) (jb', ret) ∧
      Queued jb' l' ∧ PutResult l newframe data ms ts jb' ret l' := by
  obtain ⟨jb₁, l₁, jb', ret, hres, hinto, hret⟩ :=
    put_returns hq.list hq.delay hq.threshold hdata hms hts hnow hnew hfree
  obtain ⟨hq₁, hentry⟩ := hres.queued hq
  rcases hinto with ⟨hok, k₁, k₂, d, rfl, rfl, rfl, rfl, hins⟩ | ⟨hdrop, rfl⟩
  · obtain ⟨hrx, hdl, hthr⟩ := hins.kept
    have hq' : Queued jb' (k₁ ++ (newframe, d) :: k₂) :=
      ⟨hins.list, by rw [hdl]; exact hq₁.delay, by rw [hthr]; exact hq₁.threshold⟩
    refine ⟨jb', ret, _, hret, hq', .inl ⟨hok, k₁, k₂, d, rfl, hentry, ?_⟩⟩
    rw [hrx, hdl, ← hins.delivery]
  · exact ⟨jb', ret, l₁, hret, hq₁, .inr ⟨hdrop, hentry⟩⟩

/-- The same queue, where only the times of the receiver or the
resynchronisation flag differ. -/
theorem Queued.congr (hq : Queued jb l) (rxcore next : ℤ) (force : Bool) :
    Queued { jb with rxcore := rxcore, nextDelivery := next, forceResynch := force } l :=
  ⟨⟨hq.list.frames, hq.list.tail, hq.list.arc, hq.list.nonnull, hq.list.nodup⟩, hq.delay,
    hq.threshold⟩

/-- Taking the head leaves the rest of the queue. -/
theorem Queued.getJbHead (hq : Queued jb l) (hne : jb.frames ≠ 0) {f : FixedJbFrame}
    (hget : getJbHead jb = some (jb', f)) : ∃ l', Queued jb' l' := by
  obtain ⟨h, l', rfl, hl', -, hdl, hthr⟩ := hq.list.taken hne hget
  refine ⟨l', hl', ?_, ?_⟩
  · rw [hdl]
    exact hq.delay
  · rw [hthr]
    exact hq.threshold

/-- The first frame is put as any other, once the receiver's time is
set. -/
theorem Queued.putFirst (hq : Queued jb l) (hdata : data ≠ 0) (hms : 2 ≤ ms) (hts : 0 ≤ ts)
    (hnow : 0 ≤ now) (hnew : newframe ≠ 0) (hfree : jb.mem newframe = none) :
    ∃ jb' ret l', Returns (fun fuel => fixedJbPutFirst newframe data ms ts now fuel jb)
      (jb', ret) ∧ Queued jb' l' ∧ PutResult l newframe data ms ts jb' ret l' :=
  (hq.congr (now - ts) (now + jb.delay) jb.forceResynch).put hdata hms hts hnow hnew hfree

/-- One call leaves a linked queue. -/
theorem Queued.step (hq : Queued jb l) (hs : FixedJbStep jb ev jb') : ∃ l', Queued jb' l' := by
  cases ev with
  | put newframe data ms ts now ret =>
    obtain ⟨hnew, hfree, hret⟩ := hs
    obtain ⟨hdata, hms, hts, hnow⟩ := hret.asserts
    obtain ⟨jb₁, r, l', hspec, hq', -⟩ := hq.put hdata hms hts hnow hnew hfree
    obtain ⟨rfl, rfl⟩ := Prod.mk.inj (hret.eq hspec)
    exact ⟨l', hq'⟩
  | get now interpl ret frame =>
    rcases fixedJbGet_cases hs with ⟨next, rfl⟩ | ⟨hne, f, hhead⟩
    · exact ⟨l, hq.congr jb.rxcore next jb.forceResynch⟩
    · exact hq.getJbHead hne hhead
  | remove ret frame =>
    rcases fixedJbRemove_cases hs with rfl | ⟨hne, f, hhead⟩
    · exact ⟨l, hq⟩
    · exact hq.getJbHead hne hhead
  | setForceResynch =>
    rw [show jb' = fixedJbSetForceResynch jb from hs]
    exact ⟨l, hq.congr jb.rxcore jb.nextDelivery true⟩

/-- **Every state has a linked queue.** -/
theorem Reached.queued (hreach : Reached jb) : ∃ l, Queued jb l := by
  induction hreach with
  | new jbsize resyncThreshold =>
    have hi := new_inv jbsize resyncThreshold
    exact ⟨[], hi.list, hi.delay, hi.threshold⟩
  | @putFirst jb jb' newframe data ms ts now ret _ hs ih =>
    obtain ⟨l, hq⟩ := ih
    obtain ⟨hnew, hfree, hret⟩ := hs
    have hput : Returns (fun fuel => fixedJbPut newframe data ms ts now fuel
      { jb with rxcore := now - ts, nextDelivery := now + jb.delay }) (jb', ret) := hret
    obtain ⟨hdata, hms, hts, hnow⟩ := hput.asserts
    obtain ⟨jb₁, r, l', hspec, hq', -⟩ := hq.putFirst hdata hms hts hnow hnew hfree
    obtain ⟨rfl, rfl⟩ := Prod.mk.inj (hret.eq hspec)
    exact ⟨l', hq'⟩
  | call _ hs ih =>
    obtain ⟨l, hq⟩ := ih
    exact hq.step hs

/-- **Whatever the state and the frame, `fixed_jb_put` and
`fixed_jb_put_first` return**: the frame is added and the others are as
they were, or it is dropped and none has changed. -/
theorem put_terminates (hreach : Reached jb) (hdata : data ≠ 0) (hms : 2 ≤ ms) (hts : 0 ≤ ts)
    (hnow : 0 ≤ now) (hnew : newframe ≠ 0) (hfree : jb.mem newframe = none) :
    ∃ l, ListOk jb l ∧
      (∃ jb' ret l', Returns (fun fuel => fixedJbPut newframe data ms ts now fuel jb) (jb', ret) ∧
        ListOk jb' l' ∧ PutResult l newframe data ms ts jb' ret l') ∧
      ∃ jb' ret l',
        Returns (fun fuel => fixedJbPutFirst newframe data ms ts now fuel jb) (jb', ret) ∧
        ListOk jb' l' ∧ PutResult l newframe data ms ts jb' ret l' := by
  obtain ⟨l, hq⟩ := hreach.queued
  refine ⟨l, hq.list, ?_, ?_⟩
  · obtain ⟨jb', ret, l', hret, hq', hres⟩ := hq.put hdata hms hts hnow hnew hfree
    exact ⟨jb', ret, l', hret, hq'.list, hres⟩
  · obtain ⟨jb', ret, l', hret, hq', hres⟩ := hq.putFirst hdata hms hts hnow hnew hfree
    exact ⟨jb', ret, l', hret, hq'.list, hres⟩

/-- A second frame, after the first one of a new buffer. -/
theorem put_terminates_two : ∃ l, ListOk oneFrame l ∧
    (∃ jb' ret l', Returns (fun fuel => fixedJbPut 2 8 20 20 20 fuel oneFrame) (jb', ret) ∧
      ListOk jb' l' ∧ PutResult l 2 8 20 20 jb' ret l') ∧
    ∃ jb' ret l', Returns (fun fuel => fixedJbPutFirst 2 8 20 20 20 fuel oneFrame) (jb', ret) ∧
      ListOk jb' l' ∧ PutResult l 2 8 20 20 jb' ret l' :=
  put_terminates (.putFirst (.new 200 1000) firstStep_oneFrame) (by decide) (by decide)
    (by decide) (by decide) (by decide) rfl

end Fixedjitterbuf

end Trismedia
