import Trismedia.FixedJb.Queue
/-!
# Putting a frame into the fixed jitter buffer

`fixed_jb_put` puts the frame in, or leaves it to `resynch_jb`, which
drops it, starts an empty buffer again, or shifts the queue and puts once
more. After a shift the frame follows the last one in time, so a second
`resynch_jb` drops it: two rounds are enough, whatever the state.
-/


namespace Trismedia

namespace Fixedjitterbuf

open Ring

variable {jb jb' jb₁ : FixedJb} {l l' l₁ l₂ : List Item} {x : Item} {d : FrameData}
variable {newframe data fuel : ℕ} {ms ts now offset : ℤ}

/-- The frame is for now: neither too late nor for the future. -/
def InWindow (jb : FixedJb) (ts : ℤ) : Prop :=
  jb.nextDelivery ≤ jb.rxcore + jb.delay + ts ∧
    jb.rxcore + jb.delay + ts ≤ jb.nextDelivery + jb.delay + jb.resyncThreshold

/-- **The frame is in the queue**, in its place, and the rest is as it
was. -/
structure Inserted (jb : FixedJb) (l₁ l₂ : List Item) (newframe : ℕ) (d : FrameData)
    (jb' : FixedJb) : Prop where
  window : InWindow jb d.ts
  delivery : d.delivery = jb.rxcore + jb.delay + d.ts
  fits : Fits l₁ l₂ d.delivery d.ms
  later : ∀ y ∈ l₂, d.delivery < y.2.delivery
  kept : jb'.rxcore = jb.rxcore ∧ jb'.delay = jb.delay ∧ jb'.resyncThreshold = jb.resyncThreshold
  list : ListOk jb' (l₁ ++ (newframe, d) :: l₂)

/-- **One round of `fixed_jb_put`.** The frame is put in, or `resynch_jb`
decides. -/
theorem put_once (hl : ListOk jb l) (hdata : data ≠ 0) (hms : 2 ≤ ms) (hts : 0 ≤ ts)
    (hnow : 0 ≤ now) (hnew : newframe ≠ 0) (hfree : jb.mem newframe = none) :
    (∃ jb' l₁ l₂ d, l = l₁ ++ l₂ ∧ d.data = data ∧ d.ts = ts ∧ d.ms = ms ∧
      (∀ fuel, l.length < fuel →
        fixedJbPut newframe data ms ts now (fuel + 1) jb = some (jb', .ok)) ∧
      Inserted jb l₁ l₂ newframe d jb') ∨
      ((∀ fuel, l.length < fuel → fixedJbPut newframe data ms ts now (fuel + 1) jb =
        resynchJb fuel (fixedJbPut newframe data ms ts now fuel) jb ts now) ∧
        (InWindow jb ts → l ≠ [])) := by
  have hput : ∀ fuel, fixedJbPut newframe data ms ts now (fuel + 1) jb =
      if jb.rxcore + jb.delay + ts < jb.nextDelivery then
        resynchJb fuel (fixedJbPut newframe data ms ts now fuel) jb ts now
      else if jb.rxcore + jb.delay + ts > jb.nextDelivery + jb.delay + jb.resyncThreshold then
        resynchJb fuel (fixedJbPut newframe data ms ts now fuel) jb ts now
      else
        (findPlace jb.mem (jb.rxcore + jb.delay + ts) fuel jb.tail).bind fun frame =>
          (covered jb.mem frame (jb.rxcore + jb.delay + ts) ms).bind fun cov =>
            if cov then
              resynchJb fuel (fixedJbPut newframe data ms ts now fuel) jb ts now
            else
              (insertFrame { jb with forceResynch := false } frame newframe
                ⟨data, ts, ms, jb.rxcore + jb.delay + ts⟩).bind fun jb => some (jb, .ok) := by
    intro fuel
    rw [fixedJbPut, if_pos ⟨hdata, hms, hts, hnow⟩]
    rfl
  generalize hdel : jb.rxcore + jb.delay + ts = delivery at hput
  by_cases hlate : delivery < jb.nextDelivery
  · right
    refine ⟨fun fuel _ => ?_, fun hw => ?_⟩
    · rw [hput, if_pos hlate]
    · unfold InWindow at hw
      omega
  by_cases hfuture : delivery > jb.nextDelivery + jb.delay + jb.resyncThreshold
  · right
    refine ⟨fun fuel _ => ?_, fun hw => ?_⟩
    · rw [hput, if_neg hlate, if_pos hfuture]
    · unfold InWindow at hw
      omega
  have hw : InWindow jb ts := by
    unfold InWindow
    omega
  -- the place of the frame, and whether it fits there
  have harc : FrameArc jb.mem 0 (l ++ []) 0 := by simpa using hl.arc
  obtain ⟨k₁, k₂, hk, hfind, hk₂, hk₁⟩ := findPlace_spec delivery harc hl.nonnull (by simp)
  rw [List.append_nil] at hk
  subst hk
  rw [← hl.tail] at hfind
  rcases covered_spec delivery ms hl.arc hl.nonnull with ⟨hne, hcov⟩ | ⟨hcov, hfits⟩
  · right
    refine ⟨fun fuel hfuel => ?_, fun _ => by simp [hne]⟩
    rw [hput, if_neg hlate, if_neg hfuture, hfind fuel hfuel]
    simp only [Option.bind_some, hcov, if_true]
  · left
    have hlist : ListOk { jb with forceResynch := false } (k₁ ++ k₂) :=
      ⟨hl.frames, hl.tail, hl.arc, hl.nonnull, hl.nodup⟩
    obtain ⟨frames, tail, mem', hins, hl'⟩ := insertFrame_spec
      (d := ⟨data, ts, ms, delivery⟩) hlist hnew hfree
    refine ⟨{ jb with forceResynch := false, frames := frames, tail := tail, mem := mem' },
      k₁, k₂, ⟨data, ts, ms, delivery⟩, rfl, rfl, rfl, rfl, fun fuel hfuel => ?_,
      hw, hdel.symm, hfits, hk₂, ⟨rfl, rfl, rfl⟩, hl'⟩
    rw [hput, if_neg hlate, if_neg hfuture, hfind fuel hfuel]
    simp only [Option.bind_some, hcov, Bool.false_eq_true, if_false, hins]

/-- The queue with every timestamp shifted. -/
theorem ListOk.shifted (hl : ListOk jb l) (offset : ℤ) :
    ∃ mem', (∀ fuel, l.length < fuel → shiftTs offset fuel jb.mem jb.frames = some mem') ∧
      (∀ a, a ∉ l.map Prod.fst → mem' a = jb.mem a) ∧
      ListOk { jb with forceResynch := false, rxcore := jb.rxcore - offset, mem := mem' }
        (l.map (Item.shift offset)) := by
  obtain ⟨mem', hshift, harc, hoff⟩ := shiftTs_spec offset hl.arc hl.nonnull hl.nodup
  rw [← hl.frames] at hshift
  refine ⟨mem', hshift, hoff, ?_, ?_, harc, ?_, ?_⟩
  · exact hl.frames.trans (first_shift l 0).symm
  · exact hl.tail.trans (last_shift l 0).symm
  · intro x hx
    obtain ⟨y, hy, rfl⟩ := List.mem_map.1 hx
    exact hl.nonnull y hy
  · rw [map_shift_fst]
    exact hl.nodup

/-- The last frame. -/
theorem ListOk.last_cell (hl : ListOk jb (l ++ [x])) :
    ∃ n p, jb.mem jb.tail = some (itemNode x n p) := by
  have ht : jb.tail = x.1 := by
    rw [hl.tail, last_append]
    rfl
  rw [ht]
  exact hl.arc.cell (by simp)

/-- `resynch_jb` with a frame in the queue. -/
theorem resynchJb_eq (hl : ListOk jb (l ++ [x])) (put : FixedJb → Option (FixedJb × FixedJbCode)) :
    resynchJb fuel put jb ts now =
      if jb.forceResynch = false ∧ ts - x.2.ts - x.2.ms < jb.resyncThreshold ∧
          ts - x.2.ts - x.2.ms > -jb.resyncThreshold then
        some (jb, .drop)
      else
        (shiftTs (ts - x.2.ts - x.2.ms) fuel jb.mem jb.frames).bind fun mem =>
          put { jb with
            forceResynch := false, rxcore := jb.rxcore - (ts - x.2.ts - x.2.ms), mem := mem } := by
  obtain ⟨n, p, hcell⟩ := hl.last_cell
  have hne : jb.frames ≠ 0 := fun h0 => by simpa using hl.frames_eq_zero.1 h0
  unfold resynchJb
  rw [if_neg hne, hcell]
  rfl

/-- **A frame that follows the last one in time is dropped**, where nobody
asked for a resynchronisation. -/
theorem resynch_drop (hl : ListOk jb (l ++ [x])) (hthreshold : 1 ≤ jb.resyncThreshold)
    (hforce : jb.forceResynch = false) (hts : ts = x.2.ts + x.2.ms)
    (put : FixedJb → Option (FixedJb × FixedJbCode)) :
    resynchJb fuel put jb ts now = some (jb, .drop) := by
  rw [resynchJb_eq hl, if_pos ⟨hforce, by omega, by omega⟩]

/-! ## The whole recursion -/

/-- What `resynch_jb` makes of the buffer and its queue before the frame
is put in: nothing, an empty buffer that starts again, or a shifted queue
that the frame follows in time. -/
inductive Resynched (jb : FixedJb) (l : List Item) (ts now : ℤ) : FixedJb → List Item → Prop
  | kept : Resynched jb l ts now jb l
  | restarted : l = [] →
    Resynched jb l ts now { jb with rxcore := now - ts, nextDelivery := now + jb.delay } []
  | shifted {l₀ : List Item} {x : Item} {offset : ℤ} {mem : ℕ → Option FixedJbFrame} :
    l = l₀ ++ [x] → offset = ts - x.2.ts - x.2.ms →
    ListOk { jb with forceResynch := false, rxcore := jb.rxcore - offset, mem := mem }
      (l.map (Item.shift offset)) →
    Resynched jb l ts now
      { jb with forceResynch := false, rxcore := jb.rxcore - offset, mem := mem }
      (l.map (Item.shift offset))

/-- The frame is put in, or it is dropped and the buffer left as
`resynch_jb` made it. -/
def PutInto (jb₁ : FixedJb) (l₁ : List Item) (newframe data : ℕ) (ms ts : ℤ) (jb' : FixedJb)
    (ret : FixedJbCode) : Prop :=
  (ret = .ok ∧ ∃ k₁ k₂ d, l₁ = k₁ ++ k₂ ∧ d.data = data ∧ d.ts = ts ∧ d.ms = ms ∧
    Inserted jb₁ k₁ k₂ newframe d jb') ∨ (ret = .drop ∧ jb' = jb₁)

/-- **`resynch_jb` returns**, whatever the queue. -/
theorem resynch_returns (hl : ListOk jb l) (hdelay : 1 ≤ jb.delay)
    (hthreshold : 1 ≤ jb.resyncThreshold) (hdata : data ≠ 0) (hms : 2 ≤ ms) (hts : 0 ≤ ts)
    (hnow : 0 ≤ now) (hnew : newframe ≠ 0) (hfree : jb.mem newframe = none) :
    ∃ jb₁ l₁ jb' ret, Resynched jb l ts now jb₁ l₁ ∧ PutInto jb₁ l₁ newframe data ms ts jb' ret ∧
      ∀ fuel, l.length + 1 < fuel →
        resynchJb fuel (fixedJbPut newframe data ms ts now fuel) jb ts now = some (jb', ret) := by
  have hfresh := hl.notMem_of_free hfree
  rcases List.eq_nil_or_concat' l with rfl | ⟨l₀, z, rfl⟩
  · -- the buffer starts again from this frame
    have hf : jb.frames = 0 := hl.frames
    have ht : jb.tail = 0 := hl.tail
    have hl₁ : ListOk { jb with rxcore := now - ts, nextDelivery := now + jb.delay } [] :=
      ⟨hf, ht, trivial, by simp, by simp⟩
    have hw : InWindow { jb with rxcore := now - ts, nextDelivery := now + jb.delay } ts := by
      constructor
      · show now + jb.delay ≤ now - ts + jb.delay + ts
        omega
      · show now - ts + jb.delay + ts ≤ now + jb.delay + jb.delay + jb.resyncThreshold
        omega
    rcases put_once hl₁ hdata hms hts hnow hnew hfree with
      ⟨jb', k₁, k₂, d, hk, hdat, hdts, hdms, hput, hins⟩ | ⟨-, hne⟩
    · refine ⟨_, _, jb', .ok, .restarted rfl,
        .inl ⟨rfl, k₁, k₂, d, hk, hdat, hdts, hdms, hins⟩, fun fuel hfuel => ?_⟩
      obtain ⟨fuel, rfl⟩ : ∃ n, fuel = n + 1 := ⟨fuel - 1, by omega⟩
      unfold resynchJb putFirst
      rw [if_pos hf, if_pos ht]
      exact hput fuel (by simpa using hfuel)
    · exact absurd rfl (hne hw)
  generalize hoffset : ts - z.2.ts - z.2.ms = offset
  obtain ⟨mem', hshift, hoff, hl₁⟩ := hl.shifted offset
  have hresynch : ∀ fuel, (l₀ ++ [z]).length < fuel →
      resynchJb fuel (fixedJbPut newframe data ms ts now fuel) jb ts now =
        if jb.forceResynch = false ∧ offset < jb.resyncThreshold ∧ offset > -jb.resyncThreshold then
          some (jb, .drop)
        else
          fixedJbPut newframe data ms ts now fuel
            { jb with forceResynch := false, rxcore := jb.rxcore - offset, mem := mem' } := by
    intro fuel hfuel
    rw [resynchJb_eq hl, hoffset, hshift fuel hfuel]
    rfl
  by_cases hdrop : jb.forceResynch = false ∧ offset < jb.resyncThreshold ∧
      offset > -jb.resyncThreshold
  · refine ⟨jb, _, jb, .drop, .kept, .inr ⟨rfl, rfl⟩, fun fuel hfuel => ?_⟩
    rw [hresynch fuel (by omega), if_pos hdrop]
  -- the frame is now to be played when the last one ends
  have hres : Resynched jb (l₀ ++ [z]) ts now _ _ := .shifted rfl hoffset.symm hl₁
  have hlen : ((l₀ ++ [z]).map (Item.shift offset)).length = (l₀ ++ [z]).length :=
    List.length_map ..
  have hfree' : mem' newframe = none := (hoff _ hfresh).trans hfree
  rcases put_once hl₁ hdata hms hts hnow hnew hfree' with
    ⟨jb', k₁, k₂, d, hk, hdat, hdts, hdms, hput, hins⟩ | ⟨hput, -⟩
  · refine ⟨_, _, jb', .ok, hres,
      .inl ⟨rfl, k₁, k₂, d, hk, hdat, hdts, hdms, hins⟩, fun fuel hfuel => ?_⟩
    rw [hresynch fuel (by omega), if_neg hdrop]
    obtain ⟨fuel, rfl⟩ : ∃ n, fuel = n + 1 := ⟨fuel - 1, by omega⟩
    exact hput fuel (by omega)
  · refine ⟨_, _, _, .drop, hres, .inr ⟨rfl, rfl⟩, fun fuel hfuel => ?_⟩
    rw [hresynch fuel (by omega), if_neg hdrop]
    obtain ⟨fuel, rfl⟩ : ∃ n, fuel = n + 1 := ⟨fuel - 1, by omega⟩
    rw [hput fuel (by omega)]
    rw [List.map_append, List.map_singleton] at hl₁
    refine resynch_drop hl₁ hthreshold rfl ?_ _
    simp only [Item.shift]
    omega

/-- **`fixed_jb_put` returns**, whatever the queue. -/
theorem put_returns (hl : ListOk jb l) (hdelay : 1 ≤ jb.delay)
    (hthreshold : 1 ≤ jb.resyncThreshold) (hdata : data ≠ 0) (hms : 2 ≤ ms) (hts : 0 ≤ ts)
    (hnow : 0 ≤ now) (hnew : newframe ≠ 0) (hfree : jb.mem newframe = none) :
    ∃ jb₁ l₁ jb' ret, Resynched jb l ts now jb₁ l₁ ∧ PutInto jb₁ l₁ newframe data ms ts jb' ret ∧
      Returns (fun fuel => fixedJbPut newframe data ms ts now fuel jb) (jb', ret) := by
  rcases put_once hl hdata hms hts hnow hnew hfree with
    ⟨jb', k₁, k₂, d, hk, hdat, hdts, hdms, hput, hins⟩ | ⟨hput, -⟩
  · refine ⟨jb, l, jb', .ok, .kept, .inl ⟨rfl, k₁, k₂, d, hk, hdat, hdts, hdms, hins⟩,
      l.length + 2, fun fuel hfuel => ?_⟩
    obtain ⟨fuel, rfl⟩ : ∃ n, fuel = n + 1 := ⟨fuel - 1, by omega⟩
    exact hput fuel (by omega)
  · obtain ⟨jb₁, l₁, jb', ret, hres, hinto, hret⟩ :=
      resynch_returns hl hdelay hthreshold hdata hms hts hnow hnew hfree
    refine ⟨jb₁, l₁, jb', ret, hres, hinto, l.length + 3, fun fuel hfuel => ?_⟩
    obtain ⟨fuel, rfl⟩ : ∃ n, fuel = n + 1 := ⟨fuel - 1, by omega⟩
    exact (hput fuel (by omega)).trans (hret fuel (by omega))

/-- A call returns one thing. -/
theorem Returns.eq {β : Type} {f : ℕ → Option β} {r r' : β} (h : Returns f r)
    (h' : Returns f r') : r = r' := by
  obtain ⟨n, hn⟩ := h
  obtain ⟨n', hn'⟩ := h'
  have heq := (hn (max n n') (le_max_left ..)).symm.trans (hn' (max n n') (le_max_right ..))
  exact Option.some.inj heq

/-- A put that returns passed its assertions. -/
theorem Returns.asserts {r : FixedJb × FixedJbCode}
    (h : Returns (fun fuel => fixedJbPut newframe data ms ts now fuel jb) r) :
    data ≠ 0 ∧ 2 ≤ ms ∧ 0 ≤ ts ∧ 0 ≤ now := by
  obtain ⟨n, hn⟩ := h
  by_contra hno
  have hput : fixedJbPut newframe data ms ts now (n + 1) jb = some r := hn (n + 1) (by omega)
  rw [fixedJbPut, if_neg hno] at hput
  cases hput

end Fixedjitterbuf

end Trismedia
