import Mathlib.Tactic.Set
import Trismedia.Common.CInt
/-!
# The signed linear factory

`main/slinfactory.c` collects frames of signed linear samples and gives
samples in any numbers. A read that ends within a frame puts what is left of
it in a hold buffer of fixed size, from which later reads take first. Frames
of other formats, and the translator they would need, are left out.
-/


namespace Trismedia

namespace Slinfactory

/-- A `short`. -/
abbrev Sample := BitVec 16

/-- `TRIS_SLINFACTORY_MAX_HOLD` -/
def maxHold : ℕ := 1280

/-- A `struct tris_frame` of the output format. A frame that a jitter buffer
interpolates counts samples and has no data. -/
structure Frame where
  data : Option (List Sample)
  samples : ℕ
  samples_lt : samples < 2147483648
  length_data : ∀ d ∈ data, d.length = samples

/-- The samples that are in a frame. -/
def Frame.fed (f : Frame) : List Sample := f.data.getD []

/-- `short hold[TRIS_SLINFACTORY_MAX_HOLD]` -/
structure Hold where
  shorts : List Sample
  length_shorts : shorts.length = maxHold

theorem length_copied (l d : List Sample) (h : l.length = maxHold) :
    ((d ++ l.drop d.length).take maxHold).length = maxHold := by
  rw [List.length_take, List.length_append, List.length_drop]
  omega

/-- Samples copied to the beginning of the hold. -/
def Hold.copy (b : Hold) (d : List Sample) : Hold where
  shorts := (d ++ b.shorts.drop d.length).take maxHold
  length_shorts := length_copied b.shorts d b.length_shorts

/-- A hold of zeros. -/
def Hold.zero : Hold := ⟨List.replicate maxHold 0, List.length_replicate⟩

/-- `struct tris_slinfactory`. The queue is given by the data of its frames,
and `offset` is an index in the hold. -/
structure TrisSlinfactory where
  queue : List (List Sample)
  hold : Hold
  offset : ℕ
  holdlen : ℕ
  size : ℕ

/-- `tris_slinfactory_init`, for any output format. -/
def tris_slinfactory_init : TrisSlinfactory := ⟨[], Hold.zero, 0, 0, 0⟩

/-- What is held, in the order in which it is to be read. -/
def TrisSlinfactory.held (sf : TrisSlinfactory) : List Sample :=
  (sf.hold.shorts.drop sf.offset).take sf.holdlen ++ sf.queue.flatten

/-- `tris_slinfactory_feed` of a frame of the output format; `dup` tells whether
there is memory for the copy of it. The number returned is that of the frames
queued before. -/
def tris_slinfactory_feed (sf : TrisSlinfactory) (f : Frame) (dup : Bool) :
    TrisSlinfactory × ℤ :=
  match f.data with
  | none => (sf, 0)
  | some d =>
    if dup then
      ({ sf with
          queue := sf.queue ++ [d]
          size := (sf.size + f.samples) % 4294967296 },
        CInt.wrapInt sf.queue.length)
    else (sf, 0)

/-- `tris_slinfactory_available` -/
def tris_slinfactory_available (sf : TrisSlinfactory) : ℕ := sf.size

/-- `tris_slinfactory_flush` -/
def tris_slinfactory_flush (sf : TrisSlinfactory) : TrisSlinfactory :=
  { sf with queue := [], size := 0, holdlen := 0, offset := 0 }

/-- The loop of `tris_slinfactory_read`: `sofar` samples are read and `buf` is
what has been copied. `none` if it is still running after `fuel` rounds. -/
def readLoop (samples : ℕ) :
    ℕ → TrisSlinfactory → ℕ → List Sample → Option (TrisSlinfactory × ℕ × List Sample)
  | 0, _, _, _ => none
  | fuel + 1, sf, sofar, buf =>
    if sofar < samples then
      -- `ineed` is an `unsigned int`, `samples` a `size_t`
      let ineed := (samples - sofar) % 4294967296
      if sf.holdlen ≠ 0 then
        if sf.holdlen ≤ ineed then
          -- copied from `hold`, not from `offset`
          readLoop samples fuel { sf with holdlen := 0, offset := 0 }
            ((sofar + sf.holdlen) % 4294967296) (buf ++ sf.hold.shorts.take sf.holdlen)
        else
          readLoop samples fuel
            { sf with offset := sf.offset + ineed, holdlen := sf.holdlen - ineed }
            ((sofar + ineed) % 4294967296)
            (buf ++ (sf.hold.shorts.drop sf.offset).take ineed)
      else
        match sf.queue with
        | [] => some (sf, sofar, buf)
        | d :: queue =>
          if d.length ≤ ineed then
            readLoop samples fuel { sf with queue := queue }
              ((sofar + d.length) % 4294967296) (buf ++ d)
          else
            -- no more than the hold takes
            let remain := min (d.length - ineed) (maxHold - sf.holdlen)
            readLoop samples fuel
              { sf with
                  queue := queue
                  hold := sf.hold.copy ((d.drop ineed).take remain)
                  holdlen := remain }
              ((sofar + ineed) % 4294967296) (buf ++ d.take ineed)
    else some (sf, sofar, buf)

/-- **`tris_slinfactory_read` returns**, having copied `buf` and with `r`. -/
def Reads (sf : TrisSlinfactory) (samples : ℕ) (t : TrisSlinfactory) (buf : List Sample)
    (r : ℤ) : Prop :=
  ∃ fuel t' sofar, readLoop samples fuel sf 0 [] = some (t', sofar, buf) ∧
    t = { t' with size := (t'.size + (4294967296 - sofar)) % 4294967296 } ∧
    r = CInt.wrapInt sofar

/-- `tris_slinfactory_read` does not return. -/
def Hangs (sf : TrisSlinfactory) (samples : ℕ) : Prop :=
  ∀ fuel, readLoop samples fuel sf 0 [] = none

end Slinfactory

/-!
## What a read does

The loop of a read first empties the hold, or takes from it all it needs, and
then works through the queue. It does not come to an end where it is asked
for `2 ^ 32` samples or more and the number, cut to an `unsigned int`, is less
than what is held.
-/

namespace Slinfactory

variable {sf t u : TrisSlinfactory} {samples sofar fuel need : ℕ} {buf out : List Sample}

/-! ## The queue -/

/-- What `n` samples read from a queue leave: the rest of the frame they end
in, and the frames after it. -/
def leave : ℕ → List (List Sample) → List Sample × List (List Sample)
  | _, [] => ([], [])
  | n, d :: queue =>
    if n = 0 then ([], d :: queue)
    else if d.length ≤ n then leave (n - d.length) queue
    else (d.drop n, queue)

@[simp] theorem leave_zero (queue : List (List Sample)) : leave 0 queue = ([], queue) := by
  cases queue <;> simp [leave]

@[simp] theorem leave_nil (n : ℕ) : leave n [] = ([], []) := by
  simp [leave]

/-- A frame that is read as a whole. -/
theorem leave_cons {n : ℕ} {d : List Sample} (queue : List (List Sample)) (hd : d.length ≤ n) :
    (leave n (d :: queue)).1 = (leave (n - d.length) queue).1 ∧
      (leave n (d :: queue)).2.flatten = (leave (n - d.length) queue).2.flatten := by
  rcases Nat.eq_zero_or_pos n with rfl | hn
  · have hnil : d = [] := List.length_eq_zero_iff.1 (by omega)
    subst hnil
    simp
  · rw [leave, if_neg (by omega), if_pos hd]
    exact ⟨rfl, rfl⟩

theorem leave_flatten (n : ℕ) (queue : List (List Sample)) :
    (leave n queue).1 ++ (leave n queue).2.flatten = queue.flatten.drop n := by
  induction queue generalizing n with
  | nil => simp
  | cons d queue ih =>
    rw [leave, List.flatten_cons]
    split_ifs with h0 hd
    · simp [h0]
    · rw [ih, List.drop_append, List.drop_eq_nil_of_le hd, List.nil_append]
    · rw [List.drop_append_of_le_length (by omega)]

/-! ## The hold -/

@[simp] theorem copy_nil (b : Hold) : b.copy [] = b := by
  obtain ⟨l, hl⟩ := b
  simp [Hold.copy, ← hl]

theorem take_copy (b : Hold) {d : List Sample} {n : ℕ} (hd : d.length ≤ maxHold)
    (hn : n ≤ d.length) : (b.copy d).shorts.take n = d.take n := by
  rw [Hold.copy, List.take_take, Nat.min_eq_left (by omega), List.take_append_of_le_length hn]

/-! ## The loop -/

theorem readLoop_add (h : readLoop samples fuel sf sofar buf = some (t, need, out)) (k : ℕ) :
    readLoop samples (fuel + k) sf sofar buf = some (t, need, out) := by
  induction fuel generalizing sf sofar buf with
  | zero => simp [readLoop] at h
  | succ fuel ih =>
    rw [Nat.add_right_comm]
    unfold readLoop at h ⊢
    split at h
    · rename_i hlt
      rw [if_pos hlt]
      simp only at h ⊢
      split at h
      · rename_i hhold
        rw [if_pos hhold]
        split at h
        · rename_i hle
          rw [if_pos hle]
          exact ih h
        · rename_i hle
          rw [if_neg hle]
          exact ih h
      · rename_i hhold
        rw [if_neg hhold]
        split at h
        · exact h
        · split at h
          · rename_i hle
            rw [if_pos hle]
            exact ih h
          · rename_i hle
            rw [if_neg hle]
            exact ih h
    · rename_i hlt
      rw [if_neg hlt]
      exact h

/-- What a read still needs, as an `unsigned int`. -/
theorem ineed_eq (h : sofar ≤ samples % 4294967296) :
    (samples - sofar) % 4294967296 = samples % 4294967296 - sofar := by
  omega

theorem wrap_sofar (samples : ℕ) {n : ℕ} (h : sofar + n ≤ samples % 4294967296) :
    (sofar + n) % 4294967296 = sofar + n := by
  omega

/-- **The queue.** With nothing in the hold, a read takes what it needs from
the queue and puts the rest of the frame in which it ends in the hold, as much
as fits. -/
theorem readLoop_queue (samples : ℕ) (queue : List (List Sample)) (sf : TrisSlinfactory)
    (sofar need : ℕ) (buf : List Sample) (hq : sf.queue = queue) (hhold : sf.holdlen = 0)
    (hneed : samples % 4294967296 = sofar + need)
    (hends : samples < 4294967296 ∨ queue.flatten.length ≤ need) :
    ∃ fuel t, readLoop samples fuel sf sofar buf =
        some (t, sofar + min need queue.flatten.length, buf ++ queue.flatten.take need) ∧
      t.queue.flatten = (leave need queue).2.flatten ∧
      t.hold = sf.hold.copy ((leave need queue).1.take maxHold) ∧
      t.holdlen = min (leave need queue).1.length maxHold ∧
      t.offset = sf.offset ∧ t.size = sf.size := by
  induction queue generalizing sf sofar buf need with
  | nil =>
    refine ⟨1, sf, ?_, by simp [hq], by simp, by simp [hhold], rfl, rfl⟩
    simp [readLoop, hq, hhold]
  | cons d queue ih =>
    have hineed : (samples - sofar) % 4294967296 = need := by omega
    have hlen : (d :: queue).flatten.length = d.length + queue.flatten.length := by
      rw [List.flatten_cons, List.length_append]
    by_cases hlt : sofar < samples
    · by_cases hd : d.length ≤ need
      · have hsofar : (sofar + d.length) % 4294967296 = sofar + d.length := by omega
        obtain ⟨fuel, t, hrun, htq, hth, htl, hto, hts⟩ :=
          ih { sf with queue := queue } (sofar + d.length) (need - d.length) (buf ++ d) rfl hhold
            (by omega) (by omega)
        have hstep : readLoop samples (fuel + 1) sf sofar buf =
            readLoop samples fuel { sf with queue := queue } (sofar + d.length) (buf ++ d) := by
          rw [readLoop, if_pos hlt]
          simp only [hineed, hhold, hq, ne_eq, not_true_eq_false, if_false, if_pos hd, hsofar]
        obtain ⟨hrest, hflat⟩ := leave_cons queue hd
        refine ⟨fuel + 1, t, ?_, ?_, ?_, ?_, hto, hts⟩
        · rw [hstep, hrun, List.flatten_cons, List.take_append, List.take_of_length_le hd,
            List.append_assoc, List.length_append]
          have hmin : sofar + d.length + min (need - d.length) queue.flatten.length =
              sofar + min need (d.length + queue.flatten.length) := by omega
          rw [hmin]
        · rw [htq, hflat]
        · rw [hth, hrest]
        · rw [htl, hrest]
      · -- the read ends in this frame
        have hs : samples < 4294967296 := by omega
        have hsofar : (sofar + need) % 4294967296 = sofar + need := by omega
        have hleave : leave need (d :: queue) = (d.drop need, queue) := by
          rw [leave, if_neg (by omega), if_neg hd]
        have hremain : min (d.length - need) (maxHold - 0) = min (d.drop need).length maxHold := by
          rw [List.length_drop, Nat.sub_zero]
        have htake : (d.drop need).take (min (d.drop need).length maxHold) =
            (d.drop need).take maxHold := by rw [Nat.min_comm, ← List.take_eq_take_min]
        have hall : min need (d.length + queue.flatten.length) = need := by omega
        refine ⟨2, { sf with
          queue := queue
          hold := sf.hold.copy ((d.drop need).take maxHold)
          holdlen := min (d.drop need).length maxHold }, ?_, ?_, ?_, ?_, rfl, rfl⟩
        · rw [readLoop, if_pos hlt]
          simp only [hineed, hhold, hq, ne_eq, not_true_eq_false, if_false, if_neg hd, hsofar]
          rw [readLoop, if_neg (by omega), hremain, htake, List.flatten_cons,
            List.take_append_of_le_length (by omega), List.length_append, hall]
        · rw [hleave]
        · rw [hleave]
        · rw [hleave]
    · have hzero : need = 0 := by omega
      subst hzero
      refine ⟨1, sf, ?_, ?_, ?_, ?_, rfl, rfl⟩
      · rw [readLoop, if_neg hlt, Nat.zero_min, List.take_zero, List.append_nil, Nat.add_zero]
      · rw [leave_zero, hq]
      · rw [leave_zero, List.take_nil, copy_nil]
      · rw [leave_zero, hhold, List.length_nil, Nat.zero_min]

/-! ## A whole read -/

/-- **What every call keeps.** The samples in the hold are within it, and an
empty hold is read from its beginning. -/
structure WellFormed (sf : TrisSlinfactory) : Prop where
  inside : sf.offset + sf.holdlen ≤ maxHold
  offset_eq : sf.holdlen = 0 → sf.offset = 0
  size_lt : sf.size < 4294967296

theorem WellFormed.length_hold (h : WellFormed sf) :
    ((sf.hold.shorts.drop sf.offset).take sf.holdlen).length = sf.holdlen := by
  have hin := h.inside
  rw [List.length_take, List.length_drop, sf.hold.length_shorts]
  omega

theorem WellFormed.length_held (h : WellFormed sf) :
    sf.held.length = sf.holdlen + sf.queue.flatten.length := by
  rw [TrisSlinfactory.held, List.length_append, h.length_hold]

/-- **A read that takes the whole hold** gives the samples at the beginning of
the hold and goes on with the queue. -/
theorem readLoop_whole (hwf : WellFormed sf) (hle : sf.holdlen ≤ samples % 4294967296)
    (hends : samples < 4294967296 ∨ sf.held.length ≤ samples % 4294967296) :
    ∃ fuel t, readLoop samples fuel sf 0 [] =
        some (t, min (samples % 4294967296) sf.held.length,
          sf.hold.shorts.take sf.holdlen ++
            sf.queue.flatten.take (samples % 4294967296 - sf.holdlen)) ∧
      t.held = (leave (samples % 4294967296 - sf.holdlen) sf.queue).1.take maxHold ++
        (leave (samples % 4294967296 - sf.holdlen) sf.queue).2.flatten ∧
      t.offset = 0 ∧ t.holdlen ≤ maxHold ∧ t.size = sf.size := by
  rw [hwf.length_held] at hends ⊢
  set n := samples % 4294967296 - sf.holdlen with hn
  obtain ⟨fuel, t, hrun, htq, hth, htl, hto, hts⟩ :=
    readLoop_queue samples sf.queue { sf with holdlen := 0, offset := 0 } sf.holdlen n
      (sf.hold.shorts.take sf.holdlen) rfl rfl (by omega) (by omega)
  have hheld : t.held = (leave n sf.queue).1.take maxHold ++ (leave n sf.queue).2.flatten := by
    have hlen : ((leave n sf.queue).1.take maxHold).length =
        min (leave n sf.queue).1.length maxHold := by rw [List.length_take, Nat.min_comm]
    rw [TrisSlinfactory.held, htq, hth, htl, hto, List.drop_zero,
      take_copy _ (by omega) (by omega), ← hlen, List.take_length]
  have hmin : sf.holdlen + min n sf.queue.flatten.length =
      min (samples % 4294967296) (sf.holdlen + sf.queue.flatten.length) := by omega
  rw [hmin] at hrun
  by_cases hzero : sf.holdlen = 0
  · -- the hold is empty: the loop begins with the queue
    have hsf : ({ sf with holdlen := 0, offset := 0 } : TrisSlinfactory) = sf := by
      have hoff := hwf.offset_eq hzero
      obtain ⟨queue, hold, offset, holdlen, size⟩ := sf
      simp only at hzero hoff
      rw [hzero, hoff]
    rw [hsf] at hrun
    refine ⟨fuel, t, ?_, hheld, hto, by rw [htl]; omega, hts⟩
    rw [hzero, List.take_zero] at hrun ⊢
    exact hrun
  · refine ⟨fuel + 1, t, ?_, hheld, hto, by rw [htl]; omega, hts⟩
    have hwrap : (0 + sf.holdlen) % 4294967296 = sf.holdlen := by omega
    rw [← hrun, readLoop, if_pos (by omega)]
    simp only [Nat.sub_zero, ne_eq, hzero, not_false_eq_true, if_true, if_pos hle, hwrap,
      List.nil_append]

/-- **A read that takes less than the hold.** -/
theorem readLoop_part (hwf : WellFormed sf) (hs : samples < sf.holdlen) :
    ∃ fuel t, readLoop samples fuel sf 0 [] =
        some (t, samples, (sf.hold.shorts.drop sf.offset).take samples) ∧
      t.held = sf.held.drop samples ∧ WellFormed t ∧ t.size = sf.size := by
  have hin := hwf.inside
  unfold maxHold at hin
  have hmod : samples % 4294967296 = samples := by omega
  rcases Nat.eq_zero_or_pos samples with rfl | hpos
  · refine ⟨1, sf, ?_, by simp, hwf, rfl⟩
    simp [readLoop]
  · refine ⟨2, { sf with offset := sf.offset + samples, holdlen := sf.holdlen - samples },
      ?_, ?_, ⟨?_, ?_, hwf.size_lt⟩, rfl⟩
    · rw [readLoop, if_pos hpos]
      have hne : sf.holdlen ≠ 0 := by omega
      have hnle : ¬ sf.holdlen ≤ samples := by omega
      simp only [Nat.sub_zero, hmod, ne_eq, hne, not_false_eq_true, if_true, if_neg hnle,
        Nat.zero_add, List.nil_append]
      rw [readLoop, if_neg (lt_irrefl samples)]
    · have hlen := hwf.length_hold
      simp only [TrisSlinfactory.held]
      rw [List.drop_append_of_le_length (by omega), List.drop_take, List.drop_drop]
    · simp only
      unfold maxHold
      omega
    · simp only
      intro h
      omega

/-- **A read that does not end.** What it needs, cut to an `unsigned int`, is
less than what is held, and comes down to nothing before the read is through. -/
theorem readLoop_none (hbig : 4294967296 ≤ samples) (hs : sofar ≤ samples % 4294967296)
    (hmore : samples % 4294967296 < sofar + sf.holdlen + sf.queue.flatten.length) :
    readLoop samples fuel sf sofar buf = none := by
  induction fuel generalizing sf sofar buf with
  | zero => rfl
  | succ fuel ih =>
    have hineed := ineed_eq hs
    rw [readLoop, if_pos (by omega)]
    simp only [hineed]
    by_cases hzero : sf.holdlen = 0
    · simp only [ne_eq, hzero, not_true_eq_false, if_false]
      cases hq : sf.queue with
      | nil =>
        rw [hq] at hmore
        simp only [List.flatten_nil, List.length_nil] at hmore
        omega
      | cons d queue =>
        rw [hq, List.flatten_cons, List.length_append] at hmore
        simp only
        by_cases hd : d.length ≤ samples % 4294967296 - sofar
        · rw [if_pos hd, wrap_sofar samples (by omega)]
          exact ih (by omega) (by simp only; omega)
        · rw [if_neg hd, wrap_sofar samples (by omega)]
          refine ih (by omega) ?_
          simp only [Nat.sub_zero]
          have hmax : maxHold = 1280 := rfl
          omega
    · rw [if_pos hzero]
      by_cases hle : sf.holdlen ≤ samples % 4294967296 - sofar
      · rw [if_pos hle, wrap_sofar samples (by omega)]
        exact ih (by omega) (by simp only; omega)
      · rw [if_neg hle, wrap_sofar samples (by omega)]
        exact ih (by omega) (by simp only; omega)

end Slinfactory

end Trismedia
