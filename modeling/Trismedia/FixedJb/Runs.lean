import Mathlib
import Trismedia.FixedJb.Put
/-!
# Runs of the fixed jitter buffer

`FixedGood` is what the queue is to be: linked from `frames` to `tail`,
every delivery the timestamp's, the deliveries increasing and the frames
apart. `fixed_jb_put` looks for a frame after the new one only where there
is one before it. A frame that goes to the head of the queue may reach
into the old head; where none does, the queue stays good.
-/


namespace Trismedia

namespace Fixedjitterbuf

open Ring

variable {jb jb' jb₁ : FixedJb} {l l' l₁ l₂ : List Item} {h x : Item} {evs : List FixedJbEvent}
variable {newframe data fuel n : ℕ} {ms ts now interpl offset delivery : ℤ} {ret : FixedJbCode}
variable {frame : Option FixedJbFrame} {ev : FixedJbEvent} {d : FrameData}

/-- The time a frame is played. -/
def FrameData.interval (d : FrameData) : Set ℤ := Set.Ico d.delivery (d.delivery + d.ms)

/-- **What the queue is to be.** -/
def FixedGood (jb : FixedJb) : Prop :=
  ∃ l, ListOk jb l ∧ (∀ x ∈ l, x.2.delivery = jb.rxcore + jb.delay + x.2.ts) ∧
    (l.Pairwise fun x y => x.2.delivery < y.2.delivery) ∧
    l.Pairwise fun x y => Disjoint x.2.interval y.2.interval

/-- One frame ends before the other begins. -/
def Before (x y : Item) : Prop := x.2.delivery + x.2.ms ≤ y.2.delivery

/-- **The invariant.** -/
structure FixedInv (jb : FixedJb) (l : List Item) : Prop where
  list : ListOk jb l
  delivery : ∀ x ∈ l, x.2.delivery = jb.rxcore + jb.delay + x.2.ts
  ms : ∀ x ∈ l, 2 ≤ x.2.ms
  apart : l.Pairwise Before
  delay : 1 ≤ jb.delay
  threshold : 1 ≤ jb.resyncThreshold

theorem FixedInv.good (hi : FixedInv jb l) : FixedGood jb := by
  refine ⟨l, hi.list, hi.delivery, ?_, ?_⟩
  · refine hi.apart.imp_of_mem fun {x y} hx _ hxy => ?_
    have hms := hi.ms x hx
    unfold Before at hxy
    omega
  · refine hi.apart.imp fun {x y} hxy => ?_
    unfold Before at hxy
    exact Set.disjoint_left.2 fun t htx hty => absurd (lt_of_lt_of_le htx.2 hxy) (not_lt.2 hty.1)

theorem FixedInv.nil (hl : ListOk jb []) (hdelay : 1 ≤ jb.delay)
    (hthreshold : 1 ≤ jb.resyncThreshold) : FixedInv jb [] :=
  ⟨hl, by simp, by simp, List.Pairwise.nil, hdelay, hthreshold⟩

/-- The head of the queue. -/
theorem FixedInv.head (hi : FixedInv jb (h :: l)) :
    jb.mem jb.frames = some (itemNode h (first Prod.fst l 0) 0) := by
  have hf : jb.frames = h.1 := hi.list.frames
  rw [hf]
  exact hi.list.arc.1

/-- The head is played no later than the last frame. -/
theorem FixedInv.head_le (hi : FixedInv jb (l ++ [x])) {head : FixedJbFrame}
    (hhead : jb.mem jb.frames = some head) : head.delivery ≤ x.2.delivery := by
  cases l with
  | nil =>
    rw [hi.head] at hhead
    cases hhead
    exact le_rfl
  | cons h l =>
    rw [hi.head] at hhead
    cases hhead
    have hap := (List.pairwise_cons.1 hi.apart).1 x (by simp)
    have hms := hi.ms h (by simp)
    unfold Before at hap
    simp only [itemNode]
    omega

/-- What is later than the last frame that is not later is later. -/
theorem FixedInv.later (hi : FixedInv jb (l₁ ++ l₂))
    (hl₁ : ∀ x ∈ l₁.getLast?, x.2.delivery + x.2.ms ≤ delivery) :
    ∀ x ∈ l₁, x.2.delivery + x.2.ms ≤ delivery := by
  rcases List.eq_nil_or_concat' l₁ with rfl | ⟨l₁, z, rfl⟩
  · simp
  intro x hx
  have hz := hl₁ z (by simp)
  rcases List.mem_append.1 hx with hx | hx
  · have hap := (List.pairwise_append.1 (List.pairwise_append.1 hi.apart).1).2.2 x hx z (by simp)
    have hms := hi.ms z (by simp)
    unfold Before at hap
    omega
  · rw [List.mem_singleton.1 hx]
    exact hz

/-- The first of the later frames is the first to be reached. -/
theorem FixedInv.sooner (hi : FixedInv jb (l₁ ++ l₂))
    (hl₂ : ∀ y ∈ l₂.head?, delivery + ms ≤ y.2.delivery) :
    ∀ y ∈ l₂, delivery + ms ≤ y.2.delivery := by
  cases l₂ with
  | nil => simp
  | cons z l₂ =>
    intro y hy
    have hz := hl₂ z (by simp)
    rcases List.mem_cons.1 hy with rfl | hy
    · exact hz
    · have hap := (List.pairwise_cons.1 (List.pairwise_append.1 hi.apart).2.1).1 y hy
      have hms := hi.ms z (by simp)
      unfold Before at hap
      omega

/-! ## Putting a frame -/

/-- **The new frame goes before the head of the queue and reaches into
it.** -/
def OverlapsHead (jb : FixedJb) (ms ts : ℤ) : Prop :=
  InWindow jb ts ∧ jb.frames ≠ 0 ∧ ∃ head, jb.mem jb.frames = some head ∧
    jb.rxcore + jb.delay + ts < head.delivery ∧
    head.delivery < jb.rxcore + jb.delay + ts + ms

/-- **A frame that is put in keeps the queue**, unless it overlaps the
head. -/
theorem Inserted.inv (hins : Inserted jb l₁ l₂ newframe d jb') (hi : FixedInv jb (l₁ ++ l₂))
    (hms : 2 ≤ d.ms) (hno : ¬ OverlapsHead jb d.ms d.ts) :
    FixedInv jb' (l₁ ++ (newframe, d) :: l₂) := by
  obtain ⟨hrx, hdl, hthr⟩ := hins.kept
  have hbefore := hi.later hins.fits.1
  -- the new frame does not reach the one after it
  have hafter : ∀ y ∈ l₂, d.delivery + d.ms ≤ y.2.delivery := by
    refine hi.sooner ?_
    by_cases hnil : l₁ = []
    · subst hnil
      cases l₂ with
      | nil => simp
      | cons z l₂ =>
        intro y hy
        obtain rfl : z = y := by simpa using hy
        have hz := hins.later z (by simp)
        by_contra hlt
        have hf : jb.frames = z.1 := hi.list.frames
        refine hno ⟨hins.window, ?_, _, hi.head, ?_, ?_⟩
        · rw [hf]
          exact hi.list.nonnull z (by simp)
        · rw [← hins.delivery]
          exact hz
        · rw [← hins.delivery]
          exact not_le.1 hlt
    · exact hins.fits.2 hnil
  have hmem : ∀ x ∈ l₁ ++ (newframe, d) :: l₂, x ∈ l₁ ++ l₂ ∨ x = (newframe, d) := by
    intro x hx
    simp only [List.mem_append, List.mem_cons] at hx ⊢
    tauto
  refine ⟨hins.list, fun x hx => ?_, fun x hx => ?_, ?_, ?_, ?_⟩
  · rw [hrx, hdl]
    rcases hmem x hx with hx | rfl
    · exact hi.delivery x hx
    · exact hins.delivery
  · rcases hmem x hx with hx | rfl
    · exact hi.ms x hx
    · exact hms
  · obtain ⟨hap₁, hap₂, hap₁₂⟩ := List.pairwise_append.1 hi.apart
    rw [List.pairwise_append, List.pairwise_cons]
    refine ⟨hap₁, ⟨hafter, hap₂⟩, fun x hx y hy => ?_⟩
    rcases List.mem_cons.1 hy with rfl | hy
    · exact hbefore x hx
    · exact hap₁₂ x hx y hy
  · rw [hdl]
    exact hi.delay
  · rw [hthr]
    exact hi.threshold

/-- **A resynchronisation keeps the queue**, and leaves no head for the
frame to overlap. -/
theorem Resynched.inv (hres : Resynched jb l ts now jb₁ l') (hi : FixedInv jb l)
    (hno : ¬ OverlapsHead jb ms ts) : FixedInv jb₁ l' ∧ ¬ OverlapsHead jb₁ ms ts := by
  cases hres with
  | kept => exact ⟨hi, hno⟩
  | restarted hnil =>
    subst hnil
    have hf : jb.frames = 0 := hi.list.frames
    exact ⟨FixedInv.nil ⟨hf, hi.list.tail, trivial, by simp, by simp⟩ hi.delay hi.threshold,
      fun ho => ho.2.1 hf⟩
  | @shifted l₀ z offset mem' heq hoffset hlist =>
    subst heq
    have hi₁ : FixedInv { jb with forceResynch := false, rxcore := jb.rxcore - offset, mem := mem' }
        ((l₀ ++ [z]).map (Item.shift offset)) := by
      refine ⟨hlist, fun x hx => ?_, fun x hx => ?_, List.pairwise_map.2 hi.apart, hi.delay,
        hi.threshold⟩
      · obtain ⟨y, hy, rfl⟩ := List.mem_map.1 hx
        have hdel := hi.delivery y hy
        simp only [Item.shift]
        omega
      · obtain ⟨y, hy, rfl⟩ := List.mem_map.1 hx
        exact hi.ms y hy
    refine ⟨hi₁, ?_⟩
    -- the frame is to be played when the last one ends
    rintro ⟨-, -, head, hhead, hlt, -⟩
    rw [List.map_append, List.map_singleton] at hi₁
    have hz := hi.delivery z (by simp)
    have hzms := hi.ms z (by simp)
    have hfirst : head.delivery ≤ z.2.delivery := hi₁.head_le hhead
    have hlt' : jb.rxcore - offset + jb.delay + ts < head.delivery := hlt
    omega

/-- **`fixed_jb_put` returns and keeps the queue**, unless the frame
overlaps the head. -/
theorem put_spec (hi : FixedInv jb l) (hdata : data ≠ 0) (hms : 2 ≤ ms) (hts : 0 ≤ ts)
    (hnow : 0 ≤ now) (hnew : newframe ≠ 0) (hfree : jb.mem newframe = none)
    (hno : ¬ OverlapsHead jb ms ts) :
    ∃ jb' l' r, Returns (fun fuel => fixedJbPut newframe data ms ts now fuel jb) (jb', r) ∧
      FixedInv jb' l' := by
  obtain ⟨jb₁, l₁, jb', r, hres, hinto, hret⟩ :=
    put_returns hi.list hi.delay hi.threshold hdata hms hts hnow hnew hfree
  obtain ⟨hi₁, hno₁⟩ := hres.inv hi hno
  rcases hinto with ⟨-, k₁, k₂, d, rfl, -, rfl, rfl, hins⟩ | ⟨-, rfl⟩
  · exact ⟨jb', _, r, hret, hins.inv hi₁ hms hno₁⟩
  · exact ⟨jb', l₁, r, hret, hi₁⟩

/-! ## Runs -/

/-- The call puts a frame before the head of the queue that reaches into
it. -/
def PutsOverHead (jb : FixedJb) : FixedJbEvent → Prop
  | .put _ _ ms ts _ _ => OverlapsHead jb ms ts
  | _ => False

/-- Taking the head keeps the queue. -/
theorem getJbHead_inv (hi : FixedInv jb l) (hne : jb.frames ≠ 0) {f : FixedJbFrame}
    (hget : getJbHead jb = some (jb', f)) : ∃ l', FixedInv jb' l' := by
  obtain ⟨h, l', rfl, hl', hrx, hdl, hthr⟩ := hi.list.taken hne hget
  refine ⟨l', hl', fun x hx => ?_, fun x hx => hi.ms x (List.mem_cons_of_mem _ hx),
    (List.pairwise_cons.1 hi.apart).2, ?_, ?_⟩
  · rw [hrx, hdl]
    exact hi.delivery x (List.mem_cons_of_mem _ hx)
  · rw [hdl]
    exact hi.delay
  · rw [hthr]
    exact hi.threshold

/-- The same queue, where only the next delivery or the resynchronisation
flag differs. -/
theorem FixedInv.congr (hi : FixedInv jb l) (next : ℤ) (force : Bool) :
    FixedInv { jb with nextDelivery := next, forceResynch := force } l :=
  ⟨⟨hi.list.frames, hi.list.tail, hi.list.arc, hi.list.nonnull, hi.list.nodup⟩, hi.delivery, hi.ms,
    hi.apart, hi.delay, hi.threshold⟩

theorem get_inv (hi : FixedInv jb l) (hget : fixedJbGet jb now interpl = some (jb', ret, frame)) :
    ∃ l', FixedInv jb' l' := by
  rcases fixedJbGet_cases hget with ⟨next, rfl⟩ | ⟨hne, f, hhead⟩
  · exact ⟨l, hi.congr next jb.forceResynch⟩
  · exact getJbHead_inv hi hne hhead

theorem remove_inv (hi : FixedInv jb l) (hrem : fixedJbRemove jb = some (jb', ret, frame)) :
    ∃ l', FixedInv jb' l' := by
  rcases fixedJbRemove_cases hrem with rfl | ⟨hne, f, hhead⟩
  · exact ⟨l, hi⟩
  · exact getJbHead_inv hi hne hhead

/-- **One call keeps the queue.** -/
theorem step_inv (hi : FixedInv jb l) (hs : FixedJbStep jb ev jb') (hno : ¬ PutsOverHead jb ev) :
    ∃ l', FixedInv jb' l' := by
  cases ev with
  | put newframe data ms ts now ret =>
    obtain ⟨hnew, hfree, hret⟩ := hs
    obtain ⟨hdata, hms, hts, hnow⟩ := hret.asserts
    obtain ⟨jb₁, l', r, hspec, hi'⟩ := put_spec hi hdata hms hts hnow hnew hfree hno
    obtain ⟨rfl, rfl⟩ := Prod.mk.inj (hret.eq hspec)
    exact ⟨l', hi'⟩
  | get now interpl ret frame => exact get_inv hi hs
  | remove ret frame => exact remove_inv hi hs
  | setForceResynch =>
    rw [show jb' = fixedJbSetForceResynch jb from hs]
    exact ⟨l, hi.congr jb.nextDelivery true⟩

theorem new_inv (jbsize threshold : ℤ) : FixedInv (fixedJbNew jbsize threshold) [] := by
  refine FixedInv.nil ⟨rfl, rfl, trivial, by simp, by simp⟩ ?_ ?_
  · unfold fixedJbNew
    dsimp only
    split <;> omega
  · unfold fixedJbNew
    dsimp only
    split <;> omega

/-- The first frame goes into an empty queue. -/
theorem first_inv {jbsize threshold : ℤ}
    (hs : FirstStep (fixedJbNew jbsize threshold) newframe data ms ts now ret jb) :
    ∃ l, FixedInv jb l := by
  obtain ⟨hnew, hfree, hret⟩ := hs
  have hi := new_inv jbsize threshold
  have hi₁ : FixedInv { fixedJbNew jbsize threshold with
      rxcore := now - ts, nextDelivery := now + (fixedJbNew jbsize threshold).delay } [] :=
    FixedInv.nil ⟨rfl, rfl, trivial, by simp, by simp⟩ hi.delay hi.threshold
  have hret' : Returns (fun fuel => fixedJbPut newframe data ms ts now fuel _) (jb, ret) := hret
  obtain ⟨hdata, hms, hts, hnow⟩ := hret'.asserts
  obtain ⟨jb₁, l', r, hspec, hi'⟩ :=
    put_spec hi₁ hdata hms hts hnow hnew hfree (fun ho => ho.2.1 rfl)
  obtain ⟨rfl, rfl⟩ := Prod.mk.inj (hret'.eq hspec)
  exact ⟨l', hi'⟩

/-- **In every run in which no frame is put over the head of the queue,
the queue is good.** -/
theorem queue_good {jbsize threshold : ℤ}
    (hfirst : FirstStep (fixedJbNew jbsize threshold) newframe data ms ts now ret jb₁)
    (hrun : Trace (fun jb ev jb' => FixedJbStep jb ev jb' ∧ ¬ PutsOverHead jb ev) jb₁ evs jb) :
    FixedGood jb := by
  have hinv : ∃ l, FixedInv jb l := by
    refine hrun.inv_state (I := fun jb => ∃ l, FixedInv jb l) (first_inv hfirst) ?_
    rintro jb ev jb' ⟨l, hi⟩ ⟨hs, hno⟩
    exact step_inv hi hs hno
  obtain ⟨l, hi⟩ := hinv
  exact hi.good

/-- The times at which the frames were put and taken. -/
def FixedJbEvent.now? : FixedJbEvent → Option ℤ
  | .put _ _ _ _ now _ => some now
  | .get now _ _ _ => some now
  | _ => none

/-- A new buffer, after its first frame. -/
def oneFrame : FixedJb where
  frames := 1
  tail := 1
  jbsize := 200
  resyncThreshold := 1000
  rxcore := 0
  delay := 200
  nextDelivery := 200
  forceResynch := false
  mem := Function.update (fun _ => none) 1 (some ⟨⟨7, 0, 20, 200⟩, 0, 0⟩)

theorem firstStep_oneFrame : FirstStep (fixedJbNew 200 1000) 1 7 20 0 0 .ok oneFrame := by
  refine ⟨by decide, rfl, 8, fun fuel hfuel => ?_⟩
  obtain ⟨fuel, rfl⟩ : ∃ n, fuel = n + 8 := ⟨fuel - 8, by omega⟩
  rfl

theorem put_step {r : FixedJb × FixedJbCode} (hnew : newframe ≠ 0)
    (hfree : jb.mem newframe = none)
    (hput : ∀ n, fixedJbPut newframe data ms ts now (n + 8) jb = some r) :
    FixedJbStep jb (.put newframe data ms ts now r.2) r.1 := by
  refine ⟨hnew, hfree, 8, fun fuel hfuel => ?_⟩
  obtain ⟨fuel, rfl⟩ : ∃ n, fuel = n + 8 := ⟨fuel - 8, by omega⟩
  exact hput fuel

/-- A second frame is put behind the first one. -/
theorem queue_good_two : ∃ jb, FixedGood jb ∧ jb.frames = 1 ∧ jb.tail = 2 := by
  obtain ⟨jb, hput, hframes⟩ : ∃ jb, (∀ n, fixedJbPut 2 8 20 20 20 (n + 8) oneFrame =
      some (jb, .ok)) ∧ jb.frames = 1 ∧ jb.tail = 2 := ⟨_, fun _ => rfl, rfl, rfl⟩
  have hstep := put_step (by decide) rfl hput
  have hno : ¬ PutsOverHead oneFrame (.put 2 8 20 20 20 .ok) := by
    rintro ⟨-, -, head, hhead, hlt, -⟩
    cases hhead
    revert hlt
    decide
  exact ⟨jb, queue_good firstStep_oneFrame (Trace.single ⟨hstep, hno⟩), hframes⟩

/-- A frame put over the head: it is played for 20 ms from 230 on, the
head from 240 on. -/
theorem not_queueGood_of_overHead : ∃ jb₁ jb evs,
    FirstStep (fixedJbNew 200 1000) 1 7 20 0 0 .ok jb₁ ∧ Trace FixedJbStep jb₁ evs jb ∧
      (0 :: evs.filterMap FixedJbEvent.now?).Pairwise (· ≤ ·) ∧ ¬ FixedGood jb := by
  obtain ⟨jb₂, f, jb₃, jb₄, hget, hput₃, hput₄, hfree₂, hfree₃, hframes, hcell₃, hcell₂⟩ :
      ∃ jb₂ f jb₃ jb₄, fixedJbGet oneFrame 200 20 = some (jb₂, .ok, f) ∧
        (∀ n, fixedJbPut 2 8 20 40 201 (n + 8) jb₂ = some (jb₃, .ok)) ∧
        (∀ n, fixedJbPut 3 9 20 30 202 (n + 8) jb₃ = some (jb₄, .ok)) ∧
        jb₂.mem 2 = none ∧ jb₃.mem 3 = none ∧ jb₄.frames = 3 ∧
        jb₄.mem 3 = some ⟨⟨9, 30, 20, 230⟩, 2, 0⟩ ∧ jb₄.mem 2 = some ⟨⟨8, 40, 20, 240⟩, 0, 3⟩ :=
    ⟨_, _, _, _, rfl, fun _ => rfl, fun _ => rfl, rfl, rfl, rfl, rfl, rfl⟩
  have hget' : FixedJbStep oneFrame (.get 200 20 .ok f) jb₂ := hget
  refine ⟨oneFrame, jb₄, _, firstStep_oneFrame, ((Trace.nil.snoc hget').snoc
    (put_step (by decide) hfree₂ hput₃)).snoc (put_step (by decide) hfree₃ hput₄), ?_, ?_⟩
  · simp [FixedJbEvent.now?]
  rintro ⟨l, hl, -, -, hap⟩
  cases l with
  | nil =>
    have h0 : jb₄.frames = 0 := hl.frames
    omega
  | cons x l =>
    have hx : x.1 = 3 := hl.frames.symm.trans hframes
    have hxcell := hl.arc.1
    rw [hx, hcell₃] at hxcell
    obtain ⟨hxd, hnext⟩ : (⟨9, 30, 20, 230⟩ : FrameData) = x.2 ∧ 2 = first Prod.fst l 0 := by
      have hinj := FixedJbFrame.mk.inj (Option.some.inj hxcell)
      exact ⟨hinj.1, hinj.2.1⟩
    cases l with
    | nil => cases hnext
    | cons y l =>
      have hy : 2 = y.1 := hnext
      have hycell := hl.arc.2.1
      rw [← hy, hcell₂] at hycell
      have hyd : (⟨8, 40, 20, 240⟩ : FrameData) = y.2 :=
        (FixedJbFrame.mk.inj (Option.some.inj hycell)).1
      have hdis := (List.pairwise_cons.1 hap).1 y (by simp)
      rw [← hxd, ← hyd] at hdis
      have hmem : (240 : ℤ) ∈ FrameData.interval ⟨9, 30, 20, 230⟩ := ⟨by decide, by decide⟩
      have hmem' : (240 : ℤ) ∈ FrameData.interval ⟨8, 40, 20, 240⟩ := ⟨by decide, by decide⟩
      exact Set.disjoint_left.1 hdis hmem hmem'

end Fixedjitterbuf

end Trismedia
