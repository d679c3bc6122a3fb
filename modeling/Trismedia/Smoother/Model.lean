import Mathlib.Data.Int.Notation
import Trismedia.Common.Trace
/-!
# The frame smoother

The smoother of `main/frame.c`, which takes voice frames of any size and
gives frames of one size. Delivery times and the sample counts of the
frames it makes are left out, and so is the log; an access outside a
frame's bytes or outside the buffer, and a copy of a negative number of
bytes, are `none`.
-/


namespace Trismedia

namespace Smoother

abbrev Octet := BitVec 8

/-- `SMOOTHER_SIZE` -/
def smootherSize : ℕ := 8000

/-- `TRIS_FRIENDLY_OFFSET` -/
def trisFriendlyOffset : ℤ := 64

/-- `TRIS_MIN_OFFSET` -/
def trisMinOffset : ℤ := 32

/-- `struct tris_frame`: `voice` tells `TRIS_FRAME_VOICE` from the other frame
types, and `data` are the `datalen` bytes at `data.ptr`. -/
structure Frame where
  voice : Bool
  subclass : ℕ
  samples : ℕ
  offset : ℤ
  data : List Octet
  deriving DecidableEq

/-- `struct tris_smoother`; `g729` is `TRIS_SMOOTHER_FLAG_G729` of `flags`. -/
structure TrisSmoother where
  size : ℤ
  format : ℕ
  g729 : Bool
  optNeedsSwap : Bool
  data : List Octet
  opt : Option Frame
  len : ℕ

/-- What `tris_smoother_read` gives: the format, the offset and the bytes. -/
structure OutFrame where
  subclass : ℕ
  offset : ℤ
  data : List Octet
  deriving DecidableEq

/-- The two bytes of each sample change places. -/
def swapPairs : List Octet → List Octet
  | a :: b :: rest => b :: a :: swapPairs rest
  | rest => rest

/-- `tris_swapcopy_samples`, as the bytes it writes. -/
def trisSwapcopySamples (src : List Octet) (samples : ℕ) : Option (List Octet) :=
  if src.length < 2 * samples then none else some (swapPairs (src.take (2 * samples)))

/-- The bytes written at an offset. -/
def writeAt (data : List Octet) (off : ℕ) (bytes : List Octet) : List Octet :=
  data.take off ++ bytes ++ data.drop (off + bytes.length)

/-- The bytes copied into the buffer. -/
def copyBytes (f : Frame) (swap : Bool) : Option (List Octet) :=
  if swap then trisSwapcopySamples f.data f.samples else some f.data

/-- The bytes of a frame whose samples are swapped where they stand. -/
def swapInPlace (f : Frame) (swap : Bool) : Option (List Octet) :=
  if swap then (trisSwapcopySamples f.data f.samples).map fun bytes => writeAt f.data 0 bytes
  else some f.data

/-- `smoother_frame_feed` -/
def smootherFrameFeed (s : TrisSmoother) (f : Frame) (swap : Bool) : Option TrisSmoother :=
  if s.g729 ∧ s.len % 10 ≠ 0 then some s
  else do
    let bytes ← copyBytes f swap
    if s.len + bytes.length > smootherSize then none
    else some { s with data := writeAt s.data s.len bytes, len := s.len + f.data.length }

/-- `tris_smoother_reset` -/
def trisSmootherReset (bytes : ℤ) : TrisSmoother :=
  ⟨bytes, 0, false, false, List.replicate smootherSize 0, none, 0⟩

/-- `tris_smoother_new` -/
def trisSmootherNew (size : ℤ) : Option TrisSmoother :=
  if size < 1 then none else some (trisSmootherReset size)

/-- `tris_smoother_reconfigure` -/
def trisSmootherReconfigure (s : TrisSmoother) (bytes : ℤ) : Option TrisSmoother :=
  if s.size = bytes then some s
  else
    let s := { s with size := bytes }
    match s.opt with
    | none => some s
    | some opt => do
      let s ← smootherFrameFeed s opt s.optNeedsSwap
      some { s with opt := none }

/-- `__tris_smoother_feed`, with what it returns. -/
def trisSmootherFeed (s : TrisSmoother) (f : Frame) (swap : Bool) : Option (TrisSmoother × ℤ) :=
  if ¬ f.voice then some (s, -1)
  else if s.format ≠ 0 ∧ s.format ≠ f.subclass then some (s, -1)
  else
    let s := if s.format = 0 then { s with format := f.subclass } else s
    if s.len + f.data.length > smootherSize then some (s, -1)
    else if (f.data.length = s.size ∨ (f.data.length < 10 ∧ s.g729)) ∧ s.opt.isNone ∧ s.len = 0 ∧
        f.offset ≥ trisMinOffset then do
      let bytes ← swapInPlace f swap
      some ({ s with opt := some { f with data := bytes }, optNeedsSwap := swap }, 0)
    else do
      let s ← smootherFrameFeed s f swap
      some (s, 0)

/-- `tris_smoother_read`; a null pointer is an inner `none`. -/
def trisSmootherRead (s : TrisSmoother) : Option (TrisSmoother × Option OutFrame) :=
  match s.opt with
  | some opt => some ({ s with opt := none }, some ⟨opt.subclass, opt.offset, opt.data⟩)
  | none =>
    if s.len < s.size ∧ ¬ (s.g729 ∧ s.len % 10 ≠ 0) then some (s, none)
    else
      let len := if s.size > s.len then (s.len : ℤ) else s.size
      if len < 0 then none
      else
        let rest := s.len - len.toNat
        -- what remains is moved to the front
        some ({ s with
            data := writeAt s.data 0 ((s.data.drop len.toNat).take rest)
            len := rest },
          some ⟨s.format, trisFriendlyOffset, s.data.take len.toNat⟩)

end Smoother

/-!
## Runs of the smoother

What a run keeps: the bytes read, the bytes held and the bytes of the
frames accepted. A frame parked in front of the buffer is held before what
the buffer holds; putting it into the buffer is right only where the buffer
is empty and the frame was not swapped, since it comes behind the rest
there and is swapped once more. `smoother_runs` is about the runs in which
that does not happen.
-/

namespace Smoother

variable {s t : TrisSmoother} {f : Frame} {swap : Bool}

/-! ## Bytes -/

theorem length_swapPairs (l : List Octet) : (swapPairs l).length = l.length := by
  induction l using swapPairs.induct with
  | case1 a b rest ih => simp [swapPairs, ih]
  | case2 l h => rw [swapPairs.eq_2 l h]

/-- All samples of a frame with two bytes each. -/
theorem trisSwapcopySamples_eq {data : List Octet} {samples : ℕ} (h : 2 * samples = data.length) :
    trisSwapcopySamples data samples = some (swapPairs data) := by
  have hle : ¬ data.length < 2 * samples := by omega
  rw [trisSwapcopySamples, if_neg hle, h, List.take_length]

theorem length_writeAt {data bytes : List Octet} {off : ℕ}
    (h : off + bytes.length ≤ data.length) : (writeAt data off bytes).length = data.length := by
  simp only [writeAt, List.length_append, List.length_take, List.length_drop]
  omega

theorem take_writeAt {data bytes : List Octet} {off : ℕ} (h : off ≤ data.length) :
    (writeAt data off bytes).take (off + bytes.length) = data.take off ++ bytes := by
  have hlen : (data.take off ++ bytes).length = off + bytes.length := by
    rw [List.length_append, List.length_take]
    omega
  rw [writeAt, ← hlen, List.take_left]

/-! ## What is held -/

/-- The bytes in the parked frame. -/
def TrisSmoother.parked (s : TrisSmoother) : List Octet := (s.opt.map Frame.data).getD []

/-- The bytes in the buffer. -/
def TrisSmoother.buffered (s : TrisSmoother) : List Octet := s.data.take s.len

/-- **The bytes held**: those of the parked frame, then those of the buffer. -/
def TrisSmoother.held (s : TrisSmoother) : List Octet := s.parked ++ s.buffered

/-- What holds of a smoother without the G.729 flag between calls. -/
structure WellFormed (s : TrisSmoother) : Prop where
  g729 : s.g729 = false
  data_len : s.data.length = smootherSize
  len_le : s.len ≤ smootherSize
  size : 0 ≤ s.size
  opt_size : ∀ f, s.opt = some f → (f.data.length : ℤ) = s.size
  opt_le : ∀ f, s.opt = some f → f.data.length ≤ smootherSize

theorem trisSmootherNew_wellFormed {size : ℤ} (h : trisSmootherNew size = some s) :
    WellFormed s ∧ s.held = [] := by
  unfold trisSmootherNew at h
  by_cases hsize : size < 1
  · rw [if_pos hsize] at h
    cases h
  · rw [if_neg hsize] at h
    obtain rfl := Option.some.inj h
    refine ⟨⟨rfl, List.length_replicate, Nat.zero_le _, ?_, nofun, nofun⟩, ?_⟩
    · change 0 ≤ size
      omega
    · simp [TrisSmoother.held, TrisSmoother.parked, TrisSmoother.buffered, trisSmootherReset]

/-- The bytes of a frame as it is fed. -/
def fedBytes (f : Frame) (swap : Bool) : List Octet := if swap then swapPairs f.data else f.data

theorem length_fedBytes (f : Frame) (swap : Bool) : (fedBytes f swap).length = f.data.length := by
  cases swap with
  | false => rfl
  | true => exact length_swapPairs f.data

/-- A frame that is swapped has two bytes to each of its samples. -/
def SamplesOk (f : Frame) (swap : Bool) : Prop := swap = true → 2 * f.samples = f.data.length

theorem copyBytes_eq (hf : SamplesOk f swap) : copyBytes f swap = some (fedBytes f swap) := by
  cases swap with
  | false => rfl
  | true => exact trisSwapcopySamples_eq (hf rfl)

theorem swapInPlace_eq (hf : SamplesOk f swap) : swapInPlace f swap = some (fedBytes f swap) := by
  cases swap with
  | false => rfl
  | true =>
    have hall : f.data.drop (0 + (swapPairs f.data).length) = [] :=
      List.drop_eq_nil_of_le (by rw [length_swapPairs]; omega)
    simp only [swapInPlace, if_true, trisSwapcopySamples_eq (hf rfl), Option.map_some]
    rw [writeAt, hall, List.take_zero, List.nil_append, List.append_nil]
    rfl

/-- **A frame goes behind what the buffer holds.** -/
theorem smootherFrameFeed_eq (h : WellFormed s) (hf : SamplesOk f swap)
    (hlen : s.len + f.data.length ≤ smootherSize) :
    ∃ t, smootherFrameFeed s f swap = some t ∧ WellFormed t ∧ t.opt = s.opt ∧ t.size = s.size ∧
      t.buffered = s.buffered ++ fedBytes f swap := by
  have hg : ¬ (s.g729 = true ∧ s.len % 10 ≠ 0) := by
    rw [h.g729]
    exact fun hand => absurd hand.1 Bool.false_ne_true
  have hbytes := copyBytes_eq hf
  have hfed := length_fedBytes f swap
  have hdata := h.data_len
  have hroom : ¬ s.len + (fedBytes f swap).length > smootherSize := by omega
  refine ⟨{ s with data := writeAt s.data s.len (fedBytes f swap), len := s.len + f.data.length },
    ?_, ⟨h.g729, ?_, hlen, h.size, h.opt_size, h.opt_le⟩, rfl, rfl, ?_⟩
  · rw [smootherFrameFeed, if_neg hg, hbytes, Option.bind_eq_bind, Option.bind_some, if_neg hroom]
  · rw [length_writeAt (by omega)]
    exact hdata
  · have htake := @take_writeAt s.data (fedBytes f swap) s.len (by omega)
    rw [hfed] at htake
    exact htake

/-! ## Calls -/

/-- What a feed adds: the frame, where it is accepted. -/
theorem trisSmootherFeed_eq (h : WellFormed s) (hf : SamplesOk f swap) :
    ∃ t ret, trisSmootherFeed s f swap = some (t, ret) ∧ WellFormed t ∧
      ((ret = -1 ∧ t.held = s.held) ∨ (ret = 0 ∧ t.held = s.held ++ fedBytes f swap)) := by
  unfold trisSmootherFeed
  by_cases hv : ¬ f.voice
  · rw [if_pos hv]
    exact ⟨s, -1, rfl, h, .inl ⟨rfl, rfl⟩⟩
  by_cases hform : s.format ≠ 0 ∧ s.format ≠ f.subclass
  · rw [if_neg hv, if_pos hform]
    exact ⟨s, -1, rfl, h, .inl ⟨rfl, rfl⟩⟩
  rw [if_neg hv, if_neg hform]
  -- the format is that of the first frame from here on
  obtain ⟨u, hu, hwf, hopt, hsize, hlen, hbuf⟩ : ∃ u,
      (if s.format = 0 then { s with format := f.subclass } else s) = u ∧ WellFormed u ∧
        u.opt = s.opt ∧ u.size = s.size ∧ u.len = s.len ∧ u.buffered = s.buffered := by
    by_cases hz : s.format = 0
    · rw [if_pos hz]
      exact ⟨_, rfl, ⟨h.g729, h.data_len, h.len_le, h.size, h.opt_size, h.opt_le⟩, rfl, rfl, rfl, rfl⟩
    · rw [if_neg hz]
      exact ⟨s, rfl, h, rfl, rfl, rfl, rfl⟩
  have hheld : u.held = s.held := by
    rw [TrisSmoother.held, TrisSmoother.held, TrisSmoother.parked, TrisSmoother.parked, hopt, hbuf]
  rw [hu]
  dsimp only
  by_cases hroom : u.len + f.data.length > smootherSize
  · rw [if_pos hroom]
    exact ⟨u, -1, rfl, hwf, .inl ⟨rfl, hheld⟩⟩
  rw [if_neg hroom]
  by_cases hpark : (f.data.length = u.size ∨ (f.data.length < 10 ∧ u.g729)) ∧ u.opt.isNone ∧
      u.len = 0 ∧ f.offset ≥ trisMinOffset
  · rw [if_pos hpark]
    obtain ⟨hfit, hnone, hzero, -⟩ := hpark
    have hsz : (f.data.length : ℤ) = u.size := by
      rcases hfit with hfit | ⟨-, hg⟩
      · exact hfit
      · rw [hwf.g729] at hg
        cases hg
    have hlen' := length_fedBytes f swap
    refine ⟨{ u with opt := some { f with data := fedBytes f swap }, optNeedsSwap := swap }, 0, ?_,
      ⟨hwf.g729, hwf.data_len, hwf.len_le, hwf.size, ?_, ?_⟩, .inr ⟨rfl, ?_⟩⟩
    · rw [swapInPlace_eq hf]
      rfl
    · rintro g hg
      obtain rfl := Option.some.inj hg
      change ((fedBytes f swap).length : ℤ) = u.size
      rw [hlen', hsz]
    · rintro g hg
      obtain rfl := Option.some.inj hg
      change (fedBytes f swap).length ≤ smootherSize
      omega
    · have hnil : s.held = [] := by
        rw [← hheld, TrisSmoother.held, TrisSmoother.parked, TrisSmoother.buffered, hzero,
          Option.isNone_iff_eq_none.1 hnone]
        rfl
      rw [hnil, List.nil_append]
      change fedBytes f swap ++ u.data.take u.len = fedBytes f swap
      rw [hzero, List.take_zero, List.append_nil]
  · rw [if_neg hpark]
    obtain ⟨t, hfeed, ht, htopt, -, htbuf⟩ := smootherFrameFeed_eq hwf hf (Nat.not_lt.1 hroom)
    refine ⟨t, 0, ?_, ht, .inr ⟨rfl, ?_⟩⟩
    · rw [hfeed]
      rfl
    · rw [← hheld, TrisSmoother.held, TrisSmoother.held, TrisSmoother.parked, htopt, htbuf,
        List.append_assoc]
      rfl

/-- **A read takes a frame of the size in force** from the front, or nothing. -/
theorem trisSmootherRead_eq (h : WellFormed s) :
    ∃ t out, trisSmootherRead s = some (t, out) ∧ WellFormed t ∧
      ((out = none ∧ t = s) ∨
        ∃ o, out = some o ∧ (o.data.length : ℤ) = s.size ∧ s.held = o.data ++ t.held) := by
  have hg : ¬ (s.g729 = true ∧ s.len % 10 ≠ 0) := by
    rw [h.g729]
    exact fun hand => absurd hand.1 Bool.false_ne_true
  unfold trisSmootherRead
  cases hopt : s.opt with
  | some opt =>
    refine ⟨{ s with opt := none }, some ⟨opt.subclass, opt.offset, opt.data⟩, rfl,
      ⟨h.g729, h.data_len, h.len_le, h.size, nofun, nofun⟩, .inr ⟨_, rfl, h.opt_size _ hopt, ?_⟩⟩
    rw [TrisSmoother.held, TrisSmoother.parked, hopt]
    rfl
  | none =>
    dsimp only
    by_cases hfew : (s.len : ℤ) < s.size
    · rw [if_pos ⟨hfew, hg⟩]
      exact ⟨s, none, rfl, h, .inl ⟨rfl, rfl⟩⟩
    · have hdata := h.data_len
      have hlen := h.len_le
      have hsize := h.size
      have hge : ¬ s.size > (s.len : ℤ) := by omega
      have hnonneg : ¬ s.size < 0 := by omega
      obtain ⟨n, hn⟩ : ∃ n : ℕ, s.size = n := ⟨s.size.toNat, by omega⟩
      have hrest : ((s.data.drop n).take (s.len - n)).length = s.len - n := by
        rw [List.length_take, List.length_drop]
        omega
      have htoNat : s.size.toNat = n := by omega
      rw [if_neg fun hand => hfew hand.1, if_neg hge, if_neg hnonneg, htoNat]
      refine ⟨_, _, rfl, ⟨h.g729, ?_, ?_, h.size, nofun, nofun⟩, .inr ⟨_, rfl, ?_, ?_⟩⟩
      · change (writeAt s.data 0 ((s.data.drop n).take (s.len - n))).length = smootherSize
        rw [length_writeAt (by omega)]
        exact hdata
      · change s.len - n ≤ smootherSize
        omega
      · change ((s.data.take n).length : ℤ) = s.size
        rw [List.length_take]
        omega
      · have htake := @take_writeAt s.data ((s.data.drop n).take (s.len - n)) 0 (Nat.zero_le _)
        rw [hrest, Nat.zero_add, List.take_zero, List.nil_append] at htake
        simp only [TrisSmoother.held, TrisSmoother.parked, TrisSmoother.buffered, hopt, htake,
          Option.map_none, Option.getD_none, List.nil_append]
        rw [← List.take_add]
        congr 1
        omega

/-- A new size with nothing parked, or with a frame parked in front of an
empty buffer that was not swapped. -/
def ReconfigureOk (s : TrisSmoother) (bytes : ℤ) : Prop :=
  0 ≤ bytes ∧ (s.size ≠ bytes → s.opt = none ∨ (s.len = 0 ∧ s.optNeedsSwap = false))

theorem trisSmootherReconfigure_eq (h : WellFormed s) {bytes : ℤ} (hok : ReconfigureOk s bytes) :
    ∃ t, trisSmootherReconfigure s bytes = some t ∧ WellFormed t ∧ t.held = s.held := by
  unfold trisSmootherReconfigure
  by_cases hsame : s.size = bytes
  · rw [if_pos hsame]
    exact ⟨s, rfl, h, rfl⟩
  rw [if_neg hsame]
  cases hopt : s.opt with
  | none =>
    refine ⟨_, rfl, ⟨h.g729, h.data_len, h.len_le, hok.1, nofun, nofun⟩, ?_⟩
    rw [TrisSmoother.held, TrisSmoother.held, TrisSmoother.parked, TrisSmoother.parked, hopt]
    rfl
  | some opt =>
    obtain ⟨hzero, hswap⟩ : s.len = 0 ∧ s.optNeedsSwap = false := by
      rcases hok.2 hsame with hnone | hok
      · rw [hopt] at hnone
        cases hnone
      · exact hok
    have hle := h.opt_le opt hopt
    -- without a parked frame the size is free
    have hwf : WellFormed { s with size := bytes, opt := none } :=
      ⟨h.g729, h.data_len, h.len_le, hok.1, nofun, nofun⟩
    have hsamples : SamplesOk opt false := nofun
    have hroom : s.len + opt.data.length ≤ smootherSize := by omega
    obtain ⟨t, hfeed, ht, htopt, -, htbuf⟩ := smootherFrameFeed_eq hwf hsamples hroom
    have hg : ¬ (s.g729 = true ∧ s.len % 10 ≠ 0) := by
      rw [h.g729]
      exact fun hand => absurd hand.1 Bool.false_ne_true
    have hroom' : ¬ s.len + opt.data.length > smootherSize := by omega
    have hcopy : copyBytes opt false = some opt.data := rfl
    simp only [smootherFrameFeed, if_neg hg, hcopy, Option.bind_eq_bind, Option.bind_some,
      if_neg hroom'] at hfeed
    obtain rfl := Option.some.inj hfeed
    refine ⟨_, ?_, ht, ?_⟩
    · simp only [smootherFrameFeed, if_neg hg, hswap, hcopy, Option.bind_eq_bind, Option.bind_some,
        if_neg hroom']
    · have hempty : s.buffered = [] := by
        rw [TrisSmoother.buffered, hzero, List.take_zero]
      rw [TrisSmoother.held, TrisSmoother.held, htbuf, TrisSmoother.parked, htopt,
        TrisSmoother.parked, hopt, hempty, List.append_nil]
      change [] ++ (s.buffered ++ opt.data) = opt.data
      rw [hempty, List.nil_append, List.nil_append]

/-! ## Runs -/

inductive Call
  | feed (f : Frame) (swap : Bool)
  | read
  | reconfigure (bytes : ℤ)

/-- The smoother, the bytes of the frames accepted so far, and the frames read
so far with the size that was in force. -/
structure Run where
  smoother : TrisSmoother
  accepted : List (List Octet)
  frames : List (ℤ × List Octet)

def Run.call (r : Run) : Call → Option Run
  | .feed f swap => do
    let (s, ret) ← trisSmootherFeed r.smoother f swap
    some ⟨s, if ret = 0 then r.accepted ++ [fedBytes f swap] else r.accepted, r.frames⟩
  | .read => do
    let (s, out) ← trisSmootherRead r.smoother
    some ⟨s, r.accepted, r.frames ++ (out.map fun o => (r.smoother.size, o.data)).toList⟩
  | .reconfigure bytes => do
    let s ← trisSmootherReconfigure r.smoother bytes
    some ⟨s, r.accepted, r.frames⟩

/-- A frame that is swapped is one of two bytes to each sample. -/
def Call.Valid : Call → Prop
  | .feed f swap => SamplesOk f swap
  | _ => True

/-- **The calls that go well.** -/
def CallOk (r : Run) : Call → Prop
  | .reconfigure bytes => ReconfigureOk r.smoother bytes
  | _ => True

/-- **What the smoother is for.** -/
structure Good (r : Run) : Prop where
  bytes : (r.frames.map Prod.snd).flatten ++ r.smoother.held = r.accepted.flatten
  sizes : ∀ x ∈ r.frames, (x.2.length : ℤ) = x.1
  len_le : r.smoother.len ≤ smootherSize

variable {r : Run}

/-- **One call.** -/
theorem Good.call (h : Good r) (hwf : WellFormed r.smoother) {c : Call} (hv : c.Valid)
    (hok : CallOk r c) : ∃ r', r.call c = some r' ∧ WellFormed r'.smoother ∧ Good r' := by
  cases c with
  | feed f swap =>
    obtain ⟨t, ret, hfeed, ht, hret⟩ := trisSmootherFeed_eq hwf hv
    refine ⟨⟨t, if ret = 0 then r.accepted ++ [fedBytes f swap] else r.accepted, r.frames⟩,
      by rw [Run.call, hfeed]; rfl, ht, ?_, h.sizes, ht.len_le⟩
    rcases hret with ⟨rfl, hheld⟩ | ⟨rfl, hheld⟩
    · have hne : ¬ (-1 : ℤ) = 0 := by decide
      dsimp only
      rw [if_neg hne, hheld]
      exact h.bytes
    · dsimp only
      rw [if_pos rfl, hheld, List.flatten_append, ← h.bytes, List.append_assoc]
      simp
  | read =>
    obtain ⟨t, out, hread, ht, hout⟩ := trisSmootherRead_eq hwf
    refine ⟨_, by rw [Run.call, hread]; rfl, ht, ?_, ?_, ht.len_le⟩
    · rcases hout with ⟨rfl, rfl⟩ | ⟨o, rfl, -, hheld⟩
      · simpa using h.bytes
      · have hbytes := h.bytes
        rw [hheld] at hbytes
        simpa using hbytes
    · intro x hx
      rcases hout with ⟨rfl, -⟩ | ⟨o, rfl, hlen, -⟩
      · exact h.sizes x (by simpa using hx)
      · rcases List.mem_append.1 hx with hx | hx
        · exact h.sizes x hx
        · obtain rfl := List.mem_singleton.1 hx
          exact hlen
  | reconfigure bytes =>
    obtain ⟨t, hrec, ht, hheld⟩ := trisSmootherReconfigure_eq hwf hok
    refine ⟨⟨t, r.accepted, r.frames⟩, by rw [Run.call, hrec]; rfl, ht, ?_, h.sizes, ht.len_le⟩
    dsimp only
    rw [hheld]
    exact h.bytes

/-- A valid call that goes well. -/
def OkStep (r : Run) (c : Call) (r' : Run) : Prop :=
  c.Valid ∧ CallOk r c ∧ r.call c = some r'

theorem run_good {size : ℤ} (hnew : trisSmootherNew size = some s) {calls : List Call}
    (h : Trace OkStep ⟨s, [], []⟩ calls r) : WellFormed r.smoother ∧ Good r := by
  refine Trace.inv_state (I := fun r => WellFormed r.smoother ∧ Good r) h ?_ ?_
  · obtain ⟨hwf, hheld⟩ := trisSmootherNew_wellFormed hnew
    exact ⟨hwf, by simpa using hheld, fun x hx => absurd hx List.not_mem_nil, hwf.len_le⟩
  · rintro r c r' ⟨hwf, hgood⟩ ⟨hv, hok, hcall⟩
    obtain ⟨r₂, hcall₂, hres⟩ := hgood.call hwf hv hok
    obtain rfl := Option.some.inj (hcall.symm.trans hcall₂)
    exact hres

/-- **The smoother keeps every byte in order** in the runs in which no frame
is parked when the size changes, or only one in front of an empty buffer
that was not swapped. -/
theorem smoother_runs {size : ℤ} (hnew : trisSmootherNew size = some s) {calls : List Call}
    (h : Trace OkStep ⟨s, [], []⟩ calls r) :
    Good r ∧ ∀ c : Call, c.Valid → CallOk r c → ∃ r', r.call c = some r' ∧ Good r' := by
  obtain ⟨hwf, hgood⟩ := run_good hnew h
  refine ⟨hgood, fun c hv hok => ?_⟩
  obtain ⟨r', hcall, -, hgood'⟩ := hgood.call hwf hv hok
  exact ⟨r', hcall, hgood'⟩

/-! ## A frame parked when the size changes -/

def parkedFrame : Frame := ⟨true, 1, 2, 64, [1, 2, 3, 4]⟩

def laterFrame : Frame := ⟨true, 1, 1, 64, [5, 6]⟩

theorem smoother_runs_parked : ∃ s r, trisSmootherNew 4 = some s ∧
    Trace OkStep ⟨s, [], []⟩ [.feed parkedFrame false, .reconfigure 2] r ∧
      (Good r ∧ ∀ c : Call, c.Valid → CallOk r c → ∃ r', r.call c = some r' ∧ Good r') := by
  have hnew : trisSmootherNew 4 = some (trisSmootherReset 4) := rfl
  obtain ⟨r, hrun⟩ : ∃ r, Trace OkStep ⟨trisSmootherReset 4, [], []⟩
      ([] ++ [.feed parkedFrame false] ++ [.reconfigure 2]) r := by
    refine ⟨_, Trace.snoc (Trace.snoc Trace.nil ⟨nofun, trivial, rfl⟩) ⟨trivial, ?_, rfl⟩⟩
    exact ⟨by decide, fun _ => .inr ⟨rfl, rfl⟩⟩
  exact ⟨_, _, hnew, hrun, smoother_runs hnew hrun⟩

/-- The frame parked comes out behind the frame fed after it. -/
theorem not_smoother_good :
    ¬ ∀ (size : ℤ) (s : TrisSmoother), trisSmootherNew size = some s → ∀ (calls : List Call) (r : Run),
      Trace (fun r c r' => c.Valid ∧ Run.call r c = some r') ⟨s, [], []⟩ calls r → Good r := by
  intro hall
  have hrun : Trace (fun r c r' => c.Valid ∧ Run.call r c = some r') ⟨trisSmootherReset 4, [], []⟩
      ([] ++ [.feed parkedFrame false] ++ [.feed laterFrame false] ++ [.reconfigure 2]) _ :=
    Trace.snoc (Trace.snoc (Trace.snoc Trace.nil ⟨nofun, rfl⟩) ⟨nofun, rfl⟩) ⟨trivial, rfl⟩
  have hbytes := (hall 4 _ rfl _ _ hrun).bytes
  -- the parked frame is written behind the two bytes of the later one
  have hlater : (writeAt (List.replicate smootherSize 0) 0 [5, 6]).take 2 = [5, 6] :=
    @take_writeAt (List.replicate smootherSize 0) [5, 6] 0 (Nat.zero_le _)
  have hparked : (writeAt (writeAt (List.replicate smootherSize 0) 0 [5, 6]) 2
      [1, 2, 3, 4]).take (2 + 4) = [5, 6, 1, 2, 3, 4] := by
    have hlen : (writeAt (List.replicate smootherSize (0 : Octet)) 0 [5, 6]).length =
        smootherSize := by
      rw [length_writeAt, List.length_replicate]
      rw [List.length_replicate]
      decide
    have htake := @take_writeAt (writeAt (List.replicate smootherSize 0) 0 [5, 6]) [1, 2, 3, 4] 2
      (by rw [hlen]; decide)
    rw [hlater] at htake
    exact htake
  change [] ++ ([] ++ _) = [1, 2, 3, 4, 5, 6] at hbytes
  rw [List.nil_append, List.nil_append] at hbytes
  exact absurd (hparked.symm.trans hbytes) (by decide)

end Smoother

end Trismedia
