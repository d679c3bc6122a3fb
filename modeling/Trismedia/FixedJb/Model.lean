import Mathlib.Algebra.Order.Group.Int
import Mathlib.Logic.Function.Basic
import Trismedia.Common.Trace
/-!
# The fixed jitter buffer

`main/fixedjitterbuf.c` as it computes. The queue is a doubly linked list
in memory, an address a number and `0` the null pointer; reading where
nothing is allocated, or a failed assertion, makes the whole call `none`.
`fixed_jb_put` and `resynch_jb` call each other, and the loops follow the
links, so a call is given `fuel` for both. A `long` is an integer here.
-/


namespace Trismedia

namespace Fixedjitterbuf

/-- What `fixed_jb_put` and the others return. -/
inductive FixedJbCode
  | ok
  | drop
  | interp
  | noframe
  deriving DecidableEq, Repr

/-- What a frame holds. -/
structure FrameData where
  data : ℕ
  ts : ℤ
  ms : ℤ
  delivery : ℤ
  deriving DecidableEq, Repr

/-- `struct fixed_jb_frame` -/
structure FixedJbFrame extends FrameData where
  next : ℕ
  prev : ℕ
  deriving DecidableEq, Repr

/-- `struct fixed_jb`, with the memory its frames are in. -/
structure FixedJb where
  frames : ℕ
  tail : ℕ
  jbsize : ℤ
  resyncThreshold : ℤ
  rxcore : ℤ
  delay : ℤ
  nextDelivery : ℤ
  forceResynch : Bool
  mem : ℕ → Option FixedJbFrame

/-- `fixed_jb_new`, the configuration validated. -/
def fixedJbNew (jbsize resyncThreshold : ℤ) : FixedJb :=
  let jbsize := if jbsize < 1 then 200 else jbsize
  { frames := 0
    tail := 0
    jbsize := jbsize
    resyncThreshold := if resyncThreshold < 1 then 1000 else resyncThreshold
    rxcore := 0
    delay := jbsize
    nextDelivery := 0
    forceResynch := false
    mem := fun _ => none }

/-- `a->next = v` -/
def setNext (mem : ℕ → Option FixedJbFrame) (a v : ℕ) : Option (ℕ → Option FixedJbFrame) := do
  let f ← mem a
  return Function.update mem a (some { f with next := v })

/-- `a->prev = v` -/
def setPrev (mem : ℕ → Option FixedJbFrame) (a v : ℕ) : Option (ℕ → Option FixedJbFrame) := do
  let f ← mem a
  return Function.update mem a (some { f with prev := v })

/-- `get_jb_head`, with the frame it copies. -/
def getJbHead (jb : FixedJb) : Option (FixedJb × FixedJbFrame) := do
  -- unlink the frame
  let fr ← jb.mem jb.frames
  let mem ← if fr.next ≠ 0 then setPrev jb.mem fr.next 0 else pure jb.mem
  let fr ← mem jb.frames
  return ({ jb with
    frames := fr.next
    -- the jb is empty - update tail
    tail := if fr.next ≠ 0 then jb.tail else 0
    -- update next
    nextDelivery := fr.delivery + fr.ms
    -- and release the frame
    mem := Function.update mem jb.frames none }, fr)

/-! ## Putting a frame -/

/-- The loop of `resynch_jb`: the offset is added to every timestamp. -/
def shiftTs (offset : ℤ) : ℕ → (ℕ → Option FixedJbFrame) → ℕ → Option (ℕ → Option FixedJbFrame)
  | 0, _, _ => none
  | fuel + 1, mem, frame =>
    if frame ≠ 0 then do
      let f ← mem frame
      shiftTs offset fuel (Function.update mem frame (some { f with ts := f.ts + offset })) f.next
    else
      return mem

/-- The loop of `fixed_jb_put`: back from `frame` over later deliveries. -/
def findPlace (mem : ℕ → Option FixedJbFrame) (delivery : ℤ) : ℕ → ℕ → Option ℕ
  | 0, _ => none
  | fuel + 1, frame =>
    if frame ≠ 0 then do
      let f ← mem frame
      if f.delivery > delivery then
        findPlace mem delivery fuel f.prev
      else
        return frame
    else
      return 0

/-- The new delivery time is covered by the chosen frame, or the new frame
covers the one after it. -/
def covered (mem : ℕ → Option FixedJbFrame) (frame : ℕ) (delivery ms : ℤ) : Option Bool :=
  if frame ≠ 0 then do
    let f ← mem frame
    if f.delivery = delivery ∨ delivery < f.delivery + f.ms then
      return true
    else if f.next ≠ 0 then do
      let n ← mem f.next
      return decide (delivery + ms > n.delivery)
    else
      return false
  else
    return false

/-- The new frame at `newframe` is linked in after `frame`, or as the
first one. -/
def insertFrame (jb : FixedJb) (frame newframe : ℕ) (d : FrameData) : Option FixedJb := do
  let mem := Function.update jb.mem newframe (some ⟨d, 0, 0⟩)
  if frame ≠ 0 then
    let f ← mem frame
    let next := f.next
    let mem ← setNext mem frame newframe
    let mem ← setNext mem newframe next
    let mem ← if next ≠ 0 then setPrev mem next newframe else pure mem
    let mem ← setPrev mem newframe frame
    -- insert after the last frame - should update tail
    return { jb with mem := mem, tail := if next ≠ 0 then jb.tail else newframe }
  else if jb.frames = 0 then
    -- the frame list is empty or thats just the first frame ever
    if jb.tail = 0 then
      return { jb with mem := mem, frames := newframe, tail := newframe }
    else
      none
  else
    -- insert on a first position - should update frames head
    let mem ← setNext mem newframe jb.frames
    let mem ← setPrev mem jb.frames newframe
    return { jb with mem := mem, frames := newframe }

/-- `fixed_jb_put_first`, on top of `fixed_jb_put`. -/
def putFirst (put : FixedJb → Option (FixedJb × FixedJbCode)) (jb : FixedJb) (ts now : ℤ) :
    Option (FixedJb × FixedJbCode) :=
  -- this is our first frame - set the base of the receivers time
  put { jb with rxcore := now - ts, nextDelivery := now + jb.delay }

/-- `resynch_jb`, on top of `fixed_jb_put`. -/
def resynchJb (fuel : ℕ) (put : FixedJb → Option (FixedJb × FixedJbCode)) (jb : FixedJb)
    (ts now : ℤ) : Option (FixedJb × FixedJbCode) :=
  -- If jb is empty, just reinitialize the jb
  if jb.frames = 0 then
    if jb.tail = 0 then putFirst put jb ts now else none
  else do
    let tail ← jb.mem jb.tail
    let diff := ts - tail.ts
    let offset := diff - tail.ms
    -- Do we really need to resynch, or this is just a frame for dropping?
    if jb.forceResynch = false ∧ offset < jb.resyncThreshold ∧ offset > -jb.resyncThreshold then
      return (jb, .drop)
    -- apply the offset to the jb state
    let mem ← shiftTs offset fuel jb.mem jb.frames
    -- now jb_put() should add the frame at a last position
    put { jb with forceResynch := false, rxcore := jb.rxcore - offset, mem := mem }

/-- `fixed_jb_put`. The frame is allocated at `newframe`. -/
def fixedJbPut (newframe data : ℕ) (ms ts now : ℤ) :
    ℕ → FixedJb → Option (FixedJb × FixedJbCode)
  | 0, _ => none
  | fuel + 1, jb =>
    if data ≠ 0 ∧ 2 ≤ ms ∧ 0 ≤ ts ∧ 0 ≤ now then do
      let delivery := jb.rxcore + jb.delay + ts
      -- check if the new frame is not too late
      if delivery < jb.nextDelivery then
        resynchJb fuel (fixedJbPut newframe data ms ts now fuel) jb ts now
      -- Seems like a frame for the future
      else if delivery > jb.nextDelivery + jb.delay + jb.resyncThreshold then
        resynchJb fuel (fixedJbPut newframe data ms ts now fuel) jb ts now
      else
        -- find the right place in the frames list, sorted by delivery time
        let frame ← findPlace jb.mem delivery fuel jb.tail
        let cov ← covered jb.mem frame delivery ms
        if cov then
          resynchJb fuel (fixedJbPut newframe data ms ts now fuel) jb ts now
        else
          let jb ← insertFrame { jb with forceResynch := false } frame newframe
            ⟨data, ts, ms, delivery⟩
          return (jb, .ok)
    else
      none

/-- `fixed_jb_put_first` -/
def fixedJbPutFirst (newframe data : ℕ) (ms ts now : ℤ) (fuel : ℕ) (jb : FixedJb) :
    Option (FixedJb × FixedJbCode) :=
  putFirst (fixedJbPut newframe data ms ts now fuel) jb ts now

/-! ## Taking a frame -/

/-- `fixed_jb_get`, with the frame it copies, if any. -/
def fixedJbGet (jb : FixedJb) (now interpl : ℤ) :
    Option (FixedJb × FixedJbCode × Option FixedJbFrame) :=
  if 0 ≤ now ∧ 2 ≤ interpl then
    if now < jb.nextDelivery then
      -- too early for the next frame
      return (jb, .noframe, none)
    else if jb.frames = 0 then
      -- should interpolate a frame
      return ({ jb with nextDelivery := jb.nextDelivery + interpl }, .interp, none)
    else do
      let head ← jb.mem jb.frames
      if now > head.delivery + head.ms then
        -- should drop this frame and update next to point the next frame
        let (jb, f) ← getJbHead jb
        return (jb, .drop, some f)
      else if now < head.delivery then
        -- should interpolate one frame
        return ({ jb with nextDelivery := jb.nextDelivery + interpl }, .interp, none)
      else
        let (jb, f) ← getJbHead jb
        return (jb, .ok, some f)
  else
    none

/-- `fixed_jb_remove` -/
def fixedJbRemove (jb : FixedJb) : Option (FixedJb × FixedJbCode × Option FixedJbFrame) :=
  if jb.frames = 0 then
    return (jb, .noframe, none)
  else do
    let (jb, f) ← getJbHead jb
    return (jb, .ok, some f)

/-- `fixed_jb_set_force_resynch` -/
def fixedJbSetForceResynch (jb : FixedJb) : FixedJb := { jb with forceResynch := true }

/-! ## Runs -/

/-- A call and what it answered. -/
inductive FixedJbEvent
  | put (newframe data : ℕ) (ms ts now : ℤ) (ret : FixedJbCode)
  | get (now interpl : ℤ) (ret : FixedJbCode) (frame : Option FixedJbFrame)
  | remove (ret : FixedJbCode) (frame : Option FixedJbFrame)
  | setForceResynch

/-- A call returns `r`, however much fuel there is beyond what it needs. -/
def Returns {β : Type} (f : ℕ → Option β) (r : β) : Prop := ∃ n, ∀ fuel, n ≤ fuel → f fuel = some r

/-- **One call.** `tris_calloc` returns memory that is not in use; without
memory `fixed_jb_put` writes through a null pointer, and there is no
step. -/
def FixedJbStep (jb : FixedJb) : FixedJbEvent → FixedJb → Prop
  | .put newframe data ms ts now ret, jb' =>
    newframe ≠ 0 ∧ jb.mem newframe = none ∧
      Returns (fun fuel => fixedJbPut newframe data ms ts now fuel jb) (jb', ret)
  | .get now interpl ret frame, jb' => fixedJbGet jb now interpl = some (jb', ret, frame)
  | .remove ret frame, jb' => fixedJbRemove jb = some (jb', ret, frame)
  | .setForceResynch, jb' => jb' = fixedJbSetForceResynch jb

/-- The first call on a new buffer. -/
def FirstStep (jb : FixedJb) (newframe data : ℕ) (ms ts now : ℤ) (ret : FixedJbCode)
    (jb' : FixedJb) : Prop :=
  newframe ≠ 0 ∧ jb.mem newframe = none ∧
    Returns (fun fuel => fixedJbPutFirst newframe data ms ts now fuel jb) (jb', ret)

end Fixedjitterbuf

end Trismedia
