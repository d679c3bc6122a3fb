import Mathlib.Logic.Function.Basic
import Trismedia.Common.CInt
/-!
# The adaptive jitter buffer

`main/jitterbuf.c` as it computes. Frames are records in memory, linked
into a ring by their timestamps; the ones taken out wait on a free list.
An address is a number, `0` the null pointer, and reading where nothing is
allocated makes the whole call `none`. A `long` has 64 bits and is an
integer here: that a timestamp leaves its range is left out, as is the
log. The one `int` the code computes with is the argument of `abs`.
-/


namespace Trismedia

namespace Jitter

open CInt

/-- `JB_LONGMAX`. The source defines it for a `long` of 32 bits. -/
def jbLongmax : ℤ := 2147483647

/-- `JB_LONGMIN` -/
def jbLongmin : ℤ := -jbLongmax - 1

/-- `JB_HISTORY_SZ` -/
def jbHistorySz : ℕ := 500

/-- `JB_HISTORY_DROPPCT` -/
def jbHistoryDroppct : ℕ := 3

/-- `JB_HISTORY_MAXBUF_SZ`, with `JB_HISTORY_DROPPCT_MAX` of 4. -/
def jbHistoryMaxbufSz : ℕ := jbHistorySz * 4 / 100

/-- `JB_TARGET_EXTRA` -/
def jbTargetExtra : ℤ := 40

/-- `JB_ADJUST_DELAY` -/
def jbAdjustDelay : ℤ := 40

/-- `enum jb_return_code` -/
inductive JbReturnCode
  | ok
  | empty
  | noframe
  | interp
  | drop
  | sched
  deriving DecidableEq, Repr

/-- `enum jb_frame_type` -/
inductive JbFrameType
  | control
  | voice
  | video
  | silence
  deriving DecidableEq, Repr

/-- What a frame holds. -/
structure FrameData where
  data : ℕ
  ts : ℤ
  ms : ℤ
  type : JbFrameType
  deriving DecidableEq, Repr

/-- `struct jb_frame` -/
structure JbFrame extends FrameData where
  next : ℕ
  prev : ℕ
  deriving DecidableEq, Repr

/-- `struct jb_conf` -/
structure JbConf where
  maxJitterbuf : ℤ
  resyncThreshold : ℤ
  maxContigInterp : ℤ
  targetExtra : ℤ
  deriving DecidableEq, Repr

/-- `struct jb_info` -/
structure JbInfo where
  conf : JbConf
  framesIn : ℤ
  framesOut : ℤ
  framesLate : ℤ
  framesLost : ℤ
  framesDropped : ℤ
  framesOoo : ℤ
  framesCur : ℤ
  jitter : ℤ
  min : ℤ
  current : ℤ
  target : ℤ
  losspct : ℤ
  nextVoiceTs : ℤ
  lastVoiceMs : ℤ
  silenceBeginTs : ℤ
  lastAdjustment : ℤ
  lastDelay : ℤ
  cntDelayDiscont : ℤ
  resyncOffset : ℤ
  cntContigInterp : ℤ
  deriving DecidableEq, Repr

/-- `struct jitterbuf`, with the memory its frames are in. -/
structure Jitterbuf where
  info : JbInfo
  history : ℕ → ℤ
  histPtr : ℕ
  histMaxbuf : List ℤ
  histMinbuf : List ℤ
  histMaxbufValid : Bool
  dropem : Bool
  frames : ℕ
  free : ℕ
  mem : ℕ → Option JbFrame

/-- `jb_reset`: all is zero but the settings. -/
def jbReset (conf : JbConf) : Jitterbuf where
  info := {
    conf := { conf with targetExtra := jbTargetExtra }
    framesIn := 0, framesOut := 0, framesLate := 0, framesLost := 0, framesDropped := 0
    framesOoo := 0, framesCur := 0, jitter := 0, min := 0
    current := jbTargetExtra, target := jbTargetExtra, losspct := 0, nextVoiceTs := 0
    lastVoiceMs := 0, silenceBeginTs := -1, lastAdjustment := 0, lastDelay := 0
    cntDelayDiscont := 0, resyncOffset := 0, cntContigInterp := 0 }
  history _ := 0
  histPtr := 0
  histMaxbuf := List.replicate jbHistoryMaxbufSz 0
  histMinbuf := List.replicate jbHistoryMaxbufSz 0
  histMaxbufValid := false
  dropem := false
  frames := 0
  free := 0
  mem _ := none

/-- `jb_new`. The settings it keeps are what the memory it allocated held. -/
def jbNew (conf : JbConf) : Jitterbuf := jbReset conf

/-- `jb_setconf` -/
def jbSetconf (jb : Jitterbuf) (conf : JbConf) : Jitterbuf :=
  -- -1 indicates use of the default value
  let extra := if conf.targetExtra = -1 then jbTargetExtra else conf.targetExtra
  { jb with info := { jb.info with
    conf := { conf with targetExtra := extra }
    current := extra
    target := extra } }

/-! ## The history of delays -/

/-- `invalidate:` where one of the five tests says so. -/
def historyKeep (jb : Jitterbuf) (delay kicked : ℤ) : Bool :=
  !(decide (jb.histPtr < jbHistorySz) ||
    decide (delay < jb.histMinbuf.getLast?.getD 0) ||
    decide (delay > jb.histMaxbuf.getLast?.getD 0) ||
    decide (kicked ≤ jb.histMinbuf.getLast?.getD 0) ||
    decide (kicked ≥ jb.histMaxbuf.getLast?.getD 0))

/-- The end of `history_put`: the delay goes into the history. -/
def historyRecord (jb : Jitterbuf) (delay : ℤ) : Jitterbuf :=
  let kicked := jb.history (jb.histPtr % jbHistorySz)
  let jb := { jb with
    history := Function.update jb.history (jb.histPtr % jbHistorySz) delay
    histPtr := jb.histPtr + 1 }
  { jb with histMaxbufValid := jb.histMaxbufValid && historyKeep jb delay kicked }

/-- `history_put`: whether the frame may be queued. -/
def historyPut (jb : Jitterbuf) (ts now : ℤ) : Jitterbuf × Bool :=
  let delay := now - (ts - jb.info.resyncOffset)
  let threshold := 2 * jb.info.jitter + jb.info.conf.resyncThreshold
  -- don't add special/negative times to history
  if ts ≤ 0 then
    (jb, true)
  -- check for drastic change in delay
  else if jb.info.conf.resyncThreshold ≠ -1 then
    if cAbs (wrapInt (delay - jb.info.lastDelay)) > threshold then
      let cnt := jb.info.cntDelayDiscont + 1
      if cnt > 3 then
        -- after resync, frame is right on time
        (historyRecord { jb with
          histPtr := 0
          histMaxbufValid := false
          info := { jb.info with
            cntDelayDiscont := 0
            resyncOffset := ts - now
            lastDelay := 0 } } 0, true)
      else
        ({ jb with info := { jb.info with cntDelayDiscont := cnt } }, false)
    else
      (historyRecord { jb with info := { jb.info with lastDelay := delay, cntDelayDiscont := 0 } }
        delay, true)
  else
    (historyRecord jb delay, true)

/-- The loop over `hist_minbuf` for one delay: where it fits, the rest
moves over and the last entry is lost. -/
def insertMinbuf (toins : ℤ) : List ℤ → List ℤ
  | [] => []
  | b :: bs => if toins < b then (toins :: b :: bs).dropLast else b :: insertMinbuf toins bs

/-- The same for `hist_maxbuf`. -/
def insertMaxbuf (toins : ℤ) : List ℤ → List ℤ
  | [] => []
  | b :: bs => if toins > b then (toins :: b :: bs).dropLast else b :: insertMaxbuf toins bs

/-- One round of the loop over the history. -/
def historyInsert (bufs : List ℤ × List ℤ) (toins : ℤ) : List ℤ × List ℤ :=
  (if toins > bufs.1.getLast?.getD 0 then insertMaxbuf toins bufs.1 else bufs.1,
    if toins < bufs.2.getLast?.getD 0 then insertMinbuf toins bufs.2 else bufs.2)

/-- The delays the loop runs over, oldest first. -/
def historyEntries (jb : Jitterbuf) : List ℤ :=
  -- start at the beginning, or JB_HISTORY_SZ frames ago
  let i := if jb.histPtr > jbHistorySz then jb.histPtr - jbHistorySz else 0
  (List.range' i (jb.histPtr - i)).map fun i => jb.history (i % jbHistorySz)

/-- `history_calc_maxbuf` -/
def historyCalcMaxbuf (jb : Jitterbuf) : Jitterbuf :=
  if jb.histPtr = 0 then
    jb
  else
    let bufs := (historyEntries jb).foldl historyInsert
      (List.replicate jbHistoryMaxbufSz jbLongmin, List.replicate jbHistoryMaxbufSz jbLongmax)
    { jb with histMaxbuf := bufs.1, histMinbuf := bufs.2, histMaxbufValid := true }

/-- How many entries of the history are examined. -/
def historyCount (histPtr : ℕ) : ℕ := if histPtr < jbHistorySz then histPtr else jbHistorySz

/-- The "n"ths highest and lowest that is looked for. -/
def historyIdx (histPtr : ℕ) : ℕ :=
  let idx := historyCount histPtr * jbHistoryDroppct / 100
  if idx > jbHistoryMaxbufSz - 1 then jbHistoryMaxbufSz - 1 else idx

/-- `history_get`. The index is never negative. -/
def historyGet (jb : Jitterbuf) : Jitterbuf :=
  let jb := if jb.histMaxbufValid then jb else historyCalcMaxbuf jb
  let idx := historyIdx jb.histPtr
  let max := jb.histMaxbuf[idx]?.getD 0
  let min := jb.histMinbuf[idx]?.getD 0
  { jb with info := { jb.info with min := min, jitter := max - min } }

/-! ## The queue of frames -/

/-- `a->next = v` -/
def setNext (mem : ℕ → Option JbFrame) (a v : ℕ) : Option (ℕ → Option JbFrame) := do
  let f ← mem a
  return Function.update mem a (some { f with next := v })

/-- `a->prev = v` -/
def setPrev (mem : ℕ → Option JbFrame) (a v : ℕ) : Option (ℕ → Option JbFrame) := do
  let f ← mem a
  return Function.update mem a (some { f with prev := v })

/-- The loop of `queue_put`, for at most `fuel` rounds: back from `p` over
the frames that are later. -/
def queueBack (mem : ℕ → Option JbFrame) (frames : ℕ) (resyncTs : ℤ) : ℕ → ℕ → Option ℕ
  | 0, _ => none
  | fuel + 1, p => do
    let fp ← mem p
    let fq ← mem fp.prev
    if resyncTs < fq.ts ∧ fp.prev ≠ frames then
      queueBack mem frames resyncTs fuel fp.prev
    else
      return p

/-- The frame at `frame` is linked in before `p`. -/
def linkBefore (mem : ℕ → Option JbFrame) (frame p : ℕ) (d : FrameData) :
    Option (ℕ → Option JbFrame) := do
  let fp ← mem p
  let mem := Function.update mem frame (some ⟨d, p, fp.prev⟩)
  let mem ← setPrev mem p frame
  setNext mem fp.prev frame

/-- The memory `queue_put` takes for a frame: the first of the free list,
or else what `tris_malloc` returned, which may be null. -/
def queueFrame (jb : Jitterbuf) (malloc : ℕ) : Option (Jitterbuf × ℕ) :=
  if jb.free ≠ 0 then do
    let f ← jb.mem jb.free
    return ({ jb with free := f.next }, jb.free)
  else
    return (jb, malloc)

/-- `queue_put`: whether the frame is the new head. -/
def queuePut (fuel : ℕ) (jb : Jitterbuf) (malloc : ℕ) (data : ℕ) (type : JbFrameType)
    (ms ts : ℤ) : Option (Jitterbuf × Bool) := do
  let resyncTs := ts - jb.info.resyncOffset
  let (jb, frame) ← queueFrame jb malloc
  -- cannot allocate frame
  if frame = 0 then
    return (jb, false)
  let jb := { jb with info := { jb.info with framesCur := jb.info.framesCur + 1 } }
  let d : FrameData := ⟨data, resyncTs, ms, type⟩
  -- queue is empty
  if jb.frames = 0 then
    return ({ jb with
      frames := frame
      mem := Function.update jb.mem frame (some ⟨d, frame, frame⟩) }, true)
  let head ← jb.mem jb.frames
  if resyncTs < head.ts then
    let mem ← linkBefore jb.mem frame jb.frames d
    -- frame is out of order
    return ({ jb with
      frames := frame
      mem := mem
      info := { jb.info with framesOoo := jb.info.framesOoo + 1 } }, true)
  let last ← jb.mem head.prev
  let ooo : ℤ := if resyncTs < last.ts then jb.info.framesOoo + 1 else jb.info.framesOoo
  let p ← queueBack jb.mem jb.frames resyncTs fuel jb.frames
  let mem ← linkBefore jb.mem frame p d
  return ({ jb with mem := mem, info := { jb.info with framesOoo := ooo } }, false)

/-- `queue_next` -/
def queueNext (jb : Jitterbuf) : Option ℤ :=
  if jb.frames ≠ 0 then do
    let f ← jb.mem jb.frames
    return f.ts
  else
    return -1

/-- `queue_last` -/
def queueLast (jb : Jitterbuf) : Option ℤ :=
  if jb.frames ≠ 0 then do
    let f ← jb.mem jb.frames
    let l ← jb.mem f.prev
    return l.ts
  else
    return -1

/-- `_queue_get`, with the frame it points at. -/
def queueGet (jb : Jitterbuf) (ts : ℤ) (all : Bool) : Option (Jitterbuf × Option JbFrame) := do
  if jb.frames = 0 then
    return (jb, none)
  let frame ← jb.mem jb.frames
  if all ∨ ts ≥ frame.ts then
    -- remove this frame
    let mem ← setNext jb.mem frame.prev frame.next
    let f ← mem jb.frames
    let mem ← setPrev mem f.next f.prev
    let f ← mem jb.frames
    let frames := if f.next = jb.frames then 0 else f.next
    -- insert onto "free" single-linked list
    let mem ← setNext mem jb.frames jb.free
    let f ← mem jb.frames
    return ({ jb with
      mem := mem
      frames := frames
      free := jb.frames
      info := { jb.info with framesCur := jb.info.framesCur - 1 } }, some f)
  return (jb, none)

/-! ## The calls -/

/-- The queue spans as many timeslots as the buffer may hold. -/
def jbFull (jb : Jitterbuf) : Option Bool :=
  if jb.frames ≠ 0 then do
    let last ← queueLast jb
    let next ← queueNext jb
    return decide (last - next ≥ jb.info.conf.maxJitterbuf)
  else
    return decide (0 ≥ jb.info.conf.maxJitterbuf)

/-- `jb_put` -/
def jbPut (fuel : ℕ) (jb : Jitterbuf) (malloc : ℕ) (data : ℕ) (type : JbFrameType)
    (ms ts now : ℤ) : Option (Jitterbuf × JbReturnCode) := do
  if ← jbFull jb then
    return ({ jb with
      dropem := true
      info := { jb.info with framesDropped := jb.info.framesDropped + 1 } }, .drop)
  let jb := { jb with dropem := false }
  let (jb, accepted) := if type = .voice then historyPut jb ts now else (jb, true)
  if accepted = false then
    return ({ jb with
      info := { jb.info with framesDropped := jb.info.framesDropped + 1 } }, .drop)
  let jb := { jb with info := { jb.info with framesIn := jb.info.framesIn + 1 } }
  -- if put into head of queue, caller needs to reschedule
  let (jb, head) ← queuePut fuel jb malloc data type ms ts
  return (jb, if head then .sched else .ok)

/-- `increment_losspct` -/
def incrementLosspct (info : JbInfo) : JbInfo :=
  { info with losspct := (100000 + 499 * info.losspct).tdiv 500 }

/-- `decrement_losspct` -/
def decrementLosspct (info : JbInfo) : JbInfo :=
  { info with losspct := (499 * info.losspct).tdiv 500 }

/-- The target delay `_jb_get` computes from the history. -/
def jbTarget (info : JbInfo) : ℤ :=
  let target := info.jitter + info.min + info.conf.targetExtra
  -- if a hard clamp was requested, use it
  if info.conf.maxJitterbuf ≠ 0 ∧ target - info.min > info.conf.maxJitterbuf then
    info.min + info.conf.maxJitterbuf
  else
    target

/-- We want to grow. -/
def wantsGrow (jb : Jitterbuf) (diff now : ℤ) : Option Bool :=
  if diff > 0 then
    -- we haven't grown in the delay length
    if jb.info.lastAdjustment + jbAdjustDelay < now then
      return true
    else do
      -- we need to grow more than the "length" we have left
      let last ← queueLast jb
      let next ← queueNext jb
      return decide (diff > last - next)
  else
    return false

/-- One more frame is interpolated in a row; too many begin a silence. -/
def contigInterp (info : JbInfo) : JbInfo :=
  let info := { info with cntContigInterp := info.cntContigInterp + 1 }
  if info.conf.maxContigInterp ≠ 0 ∧ info.cntContigInterp ≥ info.conf.maxContigInterp then
    { info with silenceBeginTs := info.nextVoiceTs - info.current }
  else
    info

/-- Grow by interp frame length. -/
def growInfo (info : JbInfo) (now interpl : ℤ) : JbInfo :=
  contigInterp { info with
    current := info.current + interpl
    nextVoiceTs := info.nextVoiceTs + interpl
    lastVoiceMs := interpl
    lastAdjustment := now }

/-- A frame that is not voice, in the non-silent case: just return it. -/
def talkOther (info : JbInfo) (frame : FrameData) : JbInfo × JbReturnCode :=
  let info := if frame.type = .silence then
      { info with silenceBeginTs := frame.ts, cntContigInterp := 0 }
    else
      info
  ({ info with framesOut := info.framesOut + 1 }, .ok)

/-- A voice frame that is later than expected. -/
def talkLate (info : JbInfo) (frame : FrameData) : JbInfo × JbReturnCode :=
  if frame.ts + info.current > info.nextVoiceTs - info.lastVoiceMs then
    -- either we interpolated past this frame in the last jb_get,
    -- or the frame is still in order, but came a little too quick
    (decrementLosspct { info with
      nextVoiceTs := frame.ts + info.current + frame.ms
      framesOut := info.framesOut + 1
      cntContigInterp := 0 }, .ok)
  else
    -- voice frame is late
    (decrementLosspct { info with
      framesOut := info.framesOut + 1
      framesLate := info.framesLate + 1
      framesLost := info.framesLost - 1 }, .drop)

/-- We want to shrink: at 1 frame / 500ms, or 80ms without a frame. -/
def wantsShrink (info : JbInfo) (diff now : ℤ) (frame : Option FrameData) : Bool :=
  decide (diff < -info.conf.targetExtra) &&
    (frame.isNone && decide (info.lastAdjustment + 80 < now) ||
      decide (info.lastAdjustment + 500 < now))

/-- Shrink by the frame we're throwing out, or else by `last_voice_ms`. -/
def talkShrink (info : JbInfo) (now : ℤ) (frame : Option FrameData) : JbInfo × JbReturnCode :=
  let info := { info with lastAdjustment := now, cntContigInterp := 0 }
  match frame with
  | some f =>
    (decrementLosspct { info with
      current := info.current - f.ms
      framesOut := info.framesOut + 1
      framesDropped := info.framesDropped + 1 }, .drop)
  | none =>
    (incrementLosspct { info with
      current := info.current - info.lastVoiceMs
      framesLost := info.framesLost + 1 }, .noframe)

/-- A voice frame in time, or none. -/
def talkVoice (info : JbInfo) (diff now interpl : ℤ) (frame : Option FrameData) :
    JbInfo × JbReturnCode :=
  -- keep track of frame sizes, to allow for variable sized-frames
  let info := match frame with
    | some f => if f.ms > 0 then { info with lastVoiceMs := f.ms } else info
    | none => info
  if wantsShrink info diff now frame then
    talkShrink info now frame
  else
    match frame with
    | none =>
      -- lost frame
      let info := incrementLosspct { info with framesLost := info.framesLost + 1 }
      (contigInterp { info with
        nextVoiceTs := info.nextVoiceTs + interpl
        lastVoiceMs := interpl }, .interp)
    | some f =>
      -- normal case; return the frame, increment stuff
      (decrementLosspct { info with
        nextVoiceTs := info.nextVoiceTs + f.ms
        framesOut := info.framesOut + 1
        cntContigInterp := 0 }, .ok)

/-- What `_jb_get` does in the non-silent case with what was in the queue. -/
def talkFrame (info : JbInfo) (diff now interpl : ℤ) (frame : Option FrameData) :
    JbInfo × JbReturnCode :=
  match frame with
  | some f =>
    if f.type ≠ .voice then
      talkOther info f
    else if f.ts + info.current < info.nextVoiceTs then
      talkLate info f
    else
      talkVoice info diff now interpl (some f)
  | none => talkVoice info diff now interpl none

/-- What it does in silence. -/
def silenceFrame (info : JbInfo) (frame : Option FrameData) : JbInfo × JbReturnCode :=
  match frame with
  | none => (info, .noframe)
  | some f =>
    if f.type ≠ .voice then
      ({ info with framesOut := info.framesOut + 1 }, .ok)
    else if f.ts < info.silenceBeginTs then
      -- voice frame is late
      (decrementLosspct { info with
        framesOut := info.framesOut + 1
        framesLate := info.framesLate + 1
        framesLost := info.framesLost - 1 }, .drop)
    else
      -- try setting current to target right away here
      (decrementLosspct { info with
        current := info.target
        silenceBeginTs := 0
        nextVoiceTs := f.ts + info.target + f.ms
        lastVoiceMs := f.ms
        framesOut := info.framesOut + 1 }, .ok)

/-- Shrink interpl len every 10ms during silence. -/
def silenceShrink (info : JbInfo) (diff now interpl : ℤ) : JbInfo :=
  if diff < -info.conf.targetExtra ∧ info.lastAdjustment + 10 ≤ now then
    { info with current := info.current - interpl, lastAdjustment := now }
  else
    info

/-- The non-silent case of `_jb_get`. -/
def jbGetTalk (jb : Jitterbuf) (diff now interpl : ℤ) :
    Option (Jitterbuf × JbReturnCode × Option JbFrame) := do
  if ← wantsGrow jb diff now then
    return ({ jb with info := growInfo jb.info now interpl }, .interp, none)
  let (jb, frame) ← queueGet jb (jb.info.nextVoiceTs - jb.info.current) false
  let (info, ret) := talkFrame jb.info diff now interpl (frame.map JbFrame.toFrameData)
  return ({ jb with info := info }, ret, frame)

/-- The silent case. -/
def jbGetSilence (jb : Jitterbuf) (diff now interpl : ℤ) :
    Option (Jitterbuf × JbReturnCode × Option JbFrame) := do
  let jb := { jb with info := silenceShrink jb.info diff now interpl }
  let (jb, frame) ← queueGet jb (now - jb.info.current) false
  let (info, ret) := silenceFrame jb.info (frame.map JbFrame.toFrameData)
  return ({ jb with info := info }, ret, frame)

/-- The history is looked at and the target set. -/
def jbRetarget (jb : Jitterbuf) : Jitterbuf :=
  let jb := historyGet jb
  { jb with info := { jb.info with target := jbTarget jb.info } }

/-- `_jb_get`, with the frame it stores in `*frameout`, if any. -/
def jbGetFrame (jb : Jitterbuf) (now interpl : ℤ) :
    Option (Jitterbuf × JbReturnCode × Option JbFrame) :=
  let jb := jbRetarget jb
  let diff := jb.info.target - jb.info.current
  -- let's work on non-silent case first
  if jb.info.silenceBeginTs = 0 then
    jbGetTalk jb diff now interpl
  else
    jbGetSilence jb diff now interpl

/-- `jb_get`. The last part is what `*frameout` holds after it. -/
def jbGet (jb : Jitterbuf) (frameout : JbFrame) (now interpl : ℤ) :
    Option (Jitterbuf × JbReturnCode × JbFrame) := do
  let (jb, ret, frame) ← jbGetFrame jb now interpl
  let frameout := frame.getD frameout
  if ret = .interp then
    return (jb, ret, { frameout with ms := jb.info.lastVoiceMs })
  return (jb, ret, frameout)

/-- `jb_getall` -/
def jbGetall (jb : Jitterbuf) (frameout : JbFrame) :
    Option (Jitterbuf × JbReturnCode × JbFrame) := do
  let (jb, frame) ← queueGet jb 0 true
  match frame with
  | none => return (jb, .noframe, frameout)
  | some f => return (jb, .ok, f)

/-- `jb_next` -/
def jbNext (jb : Jitterbuf) : Option (Jitterbuf × ℤ) := do
  if jb.info.silenceBeginTs ≠ 0 then
    if jb.frames ≠ 0 then
      let next ← queueNext jb
      let jb := historyGet jb
      -- shrink during silence
      if jb.info.target - jb.info.current < -jb.info.conf.targetExtra then
        return (jb, jb.info.lastAdjustment + 10)
      return (jb, next + jb.info.target)
    return (jb, jbLongmax)
  return (jb, jb.info.nextVoiceTs)

/-- `jb_getinfo` -/
def jbGetinfo (jb : Jitterbuf) : Jitterbuf × JbInfo :=
  let jb := historyGet jb
  (jb, jb.info)

/-! ## Runs -/

/-- A call and what it answered. `malloc` is what `tris_malloc` would
return, if it were called. -/
inductive JbEvent
  | put (malloc data : ℕ) (type : JbFrameType) (ms ts now : ℤ) (ret : JbReturnCode)
  | get (now interpl : ℤ) (ret : JbReturnCode) (frameout : JbFrame)
  | getall (ret : JbReturnCode) (frameout : JbFrame)
  | next (ret : ℤ)
  | getinfo (stats : JbInfo)
  | setconf (conf : JbConf)

/-- **One call.** `tris_malloc` returns null or what is not in use. -/
def JbStep (jb : Jitterbuf) : JbEvent → Jitterbuf → Prop
  | .put malloc data type ms ts now ret, jb' =>
    (malloc ≠ 0 → jb.mem malloc = none) ∧
      ∃ fuel, jbPut fuel jb malloc data type ms ts now = some (jb', ret)
  | .get now interpl ret frameout, jb' =>
    ∃ before, jbGet jb before now interpl = some (jb', ret, frameout)
  | .getall ret frameout, jb' => ∃ before, jbGetall jb before = some (jb', ret, frameout)
  | .next ret, jb' => jbNext jb = some (jb', ret)
  | .getinfo stats, jb' => jbGetinfo jb = (jb', stats)
  | .setconf conf, jb' => jb' = jbSetconf jb conf

end Jitter

/-!
## What a call on the jitter buffer can do

One inversion lemma for each call. The queue functions touch the queue and
two counters, and nothing else; a call of `jb_get` looks at the history,
then grows or takes a frame out of the queue, and what it does with the
frame is a function of the counters alone.
-/

namespace Jitter

variable {jb jb' : Jitterbuf} {fuel malloc data : ℕ} {type : JbFrameType} {ms ts now interpl : ℤ}
variable {head all : Bool} {frame : Option JbFrame} {ret : JbReturnCode} {frameout before : JbFrame}

/-! ## The queue functions -/

/-- **Only the queue changes**, with its two counters. -/
structure QueueOnly (jb jb' : Jitterbuf) : Prop where
  history : jb'.history = jb.history
  histPtr : jb'.histPtr = jb.histPtr
  histMaxbuf : jb'.histMaxbuf = jb.histMaxbuf
  histMinbuf : jb'.histMinbuf = jb.histMinbuf
  valid : jb'.histMaxbufValid = jb.histMaxbufValid
  dropem : jb'.dropem = jb.dropem
  info : jb'.info =
    { jb.info with framesCur := jb'.info.framesCur, framesOoo := jb'.info.framesOoo }

theorem QueueOnly.refl (jb : Jitterbuf) : QueueOnly jb jb := ⟨rfl, rfl, rfl, rfl, rfl, rfl, rfl⟩

theorem QueueOnly.mk' (jb : Jitterbuf) (frames free : ℕ) (mem : ℕ → Option JbFrame)
    (cur ooo : ℤ) : QueueOnly jb { jb with
      frames := frames
      free := free
      mem := mem
      info := { jb.info with framesCur := cur, framesOoo := ooo } } :=
  ⟨rfl, rfl, rfl, rfl, rfl, rfl, rfl⟩

/-- The frame a link is set in holds what it held. -/
theorem setNext_data {mem mem' : ℕ → Option JbFrame} {a v b : ℕ} {f : JbFrame}
    (h : setNext mem a v = some mem') (hf : mem' b = some f) :
    ∃ g, mem b = some g ∧ g.toFrameData = f.toFrameData := by
  simp only [setNext, Option.bind_eq_bind, Option.bind_eq_some_iff, Option.pure_def,
    Option.some.injEq] at h
  obtain ⟨g, hg, rfl⟩ := h
  by_cases hb : b = a
  · rw [hb, Function.update_self] at hf
    exact ⟨g, hb ▸ hg, by rw [← Option.some.inj hf]⟩
  · rw [Function.update_of_ne hb] at hf
    exact ⟨f, hf, rfl⟩

theorem setPrev_data {mem mem' : ℕ → Option JbFrame} {a v b : ℕ} {f : JbFrame}
    (h : setPrev mem a v = some mem') (hf : mem' b = some f) :
    ∃ g, mem b = some g ∧ g.toFrameData = f.toFrameData := by
  simp only [setPrev, Option.bind_eq_bind, Option.bind_eq_some_iff, Option.pure_def,
    Option.some.injEq] at h
  obtain ⟨g, hg, rfl⟩ := h
  by_cases hb : b = a
  · rw [hb, Function.update_self] at hf
    exact ⟨g, hb ▸ hg, by rw [← Option.some.inj hf]⟩
  · rw [Function.update_of_ne hb] at hf
    exact ⟨f, hf, rfl⟩

/-- **`_queue_get`** takes nothing, or the head where it is due. -/
theorem queueGet_cases (h : queueGet jb ts all = some (jb', frame)) :
    QueueOnly jb jb' ∧ (frame = none ∧ jb' = jb ∨
      ∃ f g, frame = some f ∧ jb.mem jb.frames = some g ∧ g.toFrameData = f.toFrameData ∧
        (all = true ∨ f.ts ≤ ts)) := by
  unfold queueGet at h
  by_cases h0 : jb.frames = 0
  · rw [if_pos h0] at h
    obtain ⟨rfl, rfl⟩ := Prod.mk.inj (Option.some.inj h)
    exact ⟨.refl _, .inl ⟨rfl, rfl⟩⟩
  · rw [if_neg h0] at h
    simp only [Option.bind_eq_bind, Option.bind_eq_some_iff] at h
    obtain ⟨g, hg, h⟩ := h
    by_cases hdue : all = true ∨ ts ≥ g.ts
    · rw [if_pos hdue] at h
      simp only [Option.bind_eq_some_iff, Option.pure_def, Option.some.injEq, Prod.mk.injEq] at h
      obtain ⟨m₁, hm₁, f₁, hf₁, m₂, hm₂, f₂, hf₂, m₃, hm₃, f, hf, rfl, rfl⟩ := h
      obtain ⟨a, ha, hda⟩ := setNext_data hm₃ hf
      obtain ⟨b, hb, hdb⟩ := setPrev_data hm₂ ha
      obtain ⟨c, hc, hdc⟩ := setNext_data hm₁ hb
      obtain rfl : g = c := Option.some.inj (hg.symm.trans hc)
      have hdata : g.toFrameData = f.toFrameData := hdc.trans (hdb.trans hda)
      refine ⟨.mk' jb _ _ _ _ jb.info.framesOoo, .inr ⟨f, g, rfl, hg, hdata, hdue.imp_right ?_⟩⟩
      intro hge
      rw [← hdata]
      exact hge
    · rw [if_neg hdue] at h
      obtain ⟨rfl, rfl⟩ := Prod.mk.inj (Option.some.inj h)
      exact ⟨.refl _, .inl ⟨rfl, rfl⟩⟩

theorem queuePut_only (h : queuePut fuel jb malloc data type ms ts = some (jb', head)) :
    QueueOnly jb jb' := by
  unfold queuePut at h
  simp only [Option.bind_eq_bind, Option.bind_eq_some_iff, Prod.exists] at h
  obtain ⟨jb₁, a, hframe, h⟩ := h
  obtain ⟨free, rfl⟩ : ∃ free, jb₁ = { jb with free := free } := by
    unfold queueFrame at hframe
    split at hframe
    · simp only [Option.bind_eq_bind, Option.bind_eq_some_iff, Option.pure_def,
        Option.some.injEq, Prod.mk.injEq] at hframe
      obtain ⟨f, -, rfl, -⟩ := hframe
      exact ⟨_, rfl⟩
    · obtain ⟨rfl, -⟩ := Prod.mk.inj (Option.some.inj hframe)
      exact ⟨_, rfl⟩
  split at h
  · obtain ⟨rfl, -⟩ := Prod.mk.inj (Option.some.inj h)
    exact .mk' jb _ _ _ jb.info.framesCur jb.info.framesOoo
  · split at h
    · obtain ⟨rfl, -⟩ := Prod.mk.inj (Option.some.inj h)
      exact .mk' jb _ _ _ _ jb.info.framesOoo
    · simp only [Option.bind_eq_some_iff] at h
      obtain ⟨hd, -, h⟩ := h
      split at h
      · simp only [Option.bind_eq_some_iff, Option.pure_def, Option.some.injEq,
          Prod.mk.injEq] at h
        obtain ⟨mem, -, rfl, -⟩ := h
        exact .mk' jb _ _ _ _ _
      · simp only [Option.bind_eq_some_iff, Option.pure_def, Option.some.injEq,
          Prod.mk.injEq] at h
        obtain ⟨last, -, p, -, mem, -, rfl, -⟩ := h
        exact .mk' jb _ _ _ _ _

/-! ## `jb_put` -/

/-- The frame is refused before the history sees it. -/
def putFull (jb : Jitterbuf) : Jitterbuf :=
  { jb with dropem := true, info := { jb.info with framesDropped := jb.info.framesDropped + 1 } }

/-- The history has seen the frame. -/
def putHistory (jb : Jitterbuf) (type : JbFrameType) (ts now : ℤ) : Jitterbuf × Bool :=
  if type = .voice then historyPut { jb with dropem := false } ts now
  else ({ jb with dropem := false }, true)

/-- **`jb_put`** refuses a frame where the queue is full or the history
says so, or else queues it. -/
theorem jbPut_cases (h : jbPut fuel jb malloc data type ms ts now = some (jb', ret)) :
    (jbFull jb = some true ∧ jb' = putFull jb ∧ ret = .drop) ∨
    (jbFull jb = some false ∧ ∃ jb₁, putHistory jb type ts now = (jb₁, false) ∧
      jb' = { jb₁ with info := { jb₁.info with framesDropped := jb₁.info.framesDropped + 1 } } ∧
      ret = .drop) ∨
    (jbFull jb = some false ∧ ∃ jb₁ head, putHistory jb type ts now = (jb₁, true) ∧
      queuePut fuel { jb₁ with info := { jb₁.info with framesIn := jb₁.info.framesIn + 1 } }
        malloc data type ms ts = some (jb', head) ∧
      ret = if head then .sched else .ok) := by
  unfold jbPut at h
  simp only [Option.bind_eq_bind, Option.bind_eq_some_iff] at h
  obtain ⟨full, hfull, h⟩ := h
  cases full with
  | true =>
    obtain ⟨rfl, rfl⟩ := Prod.mk.inj (Option.some.inj h)
    exact .inl ⟨hfull, rfl, rfl⟩
  | false =>
    rw [if_neg (by simp)] at h
    rcases hput : putHistory jb type ts now with ⟨jb₁, ok⟩
    have hsplit : (if type = .voice then historyPut { jb with dropem := false } ts now
        else ({ jb with dropem := false }, true)) = (jb₁, ok) := hput
    rw [hsplit] at h
    cases ok with
    | false =>
      obtain ⟨rfl, rfl⟩ := Prod.mk.inj (Option.some.inj h)
      exact .inr (.inl ⟨hfull, jb₁, rfl, rfl, rfl⟩)
    | true =>
      rw [if_neg (by simp)] at h
      simp only [Option.bind_eq_some_iff, Option.pure_def, Option.some.injEq, Prod.mk.injEq,
        Prod.exists] at h
      obtain ⟨jb₂, hd, hq, rfl, rfl⟩ := h
      exact .inr (.inr ⟨hfull, jb₁, hd, rfl, hq, rfl⟩)

/-! ## `jb_get` -/

/-- **`_jb_get`** grows, or asks the queue for a frame: for the one that
is expected, or in silence for any that is due. -/
theorem jbGetFrame_cases (h : jbGetFrame jb now interpl = some (jb', ret, frame)) :
    ∃ j diff, j = jbRetarget jb ∧ diff = j.info.target - j.info.current ∧
      ((j.info.silenceBeginTs = 0 ∧ wantsGrow j diff now = some true ∧
        jb' = { j with info := growInfo j.info now interpl } ∧ ret = .interp ∧ frame = none) ∨
      (j.info.silenceBeginTs = 0 ∧ wantsGrow j diff now = some false ∧
        ∃ jb₁, queueGet j (j.info.nextVoiceTs - j.info.current) false = some (jb₁, frame) ∧
          (jb'.info, ret) = talkFrame jb₁.info diff now interpl (frame.map JbFrame.toFrameData) ∧
          jb' = { jb₁ with info := jb'.info }) ∨
      (j.info.silenceBeginTs ≠ 0 ∧
        ∃ k jb₁, k = { j with info := silenceShrink j.info diff now interpl } ∧
          queueGet k (now - k.info.current) false = some (jb₁, frame) ∧
          (jb'.info, ret) = silenceFrame jb₁.info (frame.map JbFrame.toFrameData) ∧
          jb' = { jb₁ with info := jb'.info })) := by
  refine ⟨_, _, rfl, rfl, ?_⟩
  unfold jbGetFrame at h
  generalize jbRetarget jb = j at h ⊢
  by_cases hs : j.info.silenceBeginTs = 0
  · simp only [if_pos hs, jbGetTalk, Option.bind_eq_bind, Option.bind_eq_some_iff] at h
    obtain ⟨grow, hgrow, h⟩ := h
    cases grow with
    | true =>
      simp only [if_true, Option.pure_def, Option.some.injEq, Prod.mk.injEq] at h
      obtain ⟨rfl, rfl, rfl⟩ := h
      exact .inl ⟨hs, hgrow, rfl, rfl, rfl⟩
    | false =>
      simp only [Bool.false_eq_true, if_false, Option.bind_eq_some_iff, Option.pure_def,
        Option.some.injEq, Prod.mk.injEq, Prod.exists] at h
      obtain ⟨jb₁, fr, hq, rfl, rfl, rfl⟩ := h
      exact .inr (.inl ⟨hs, hgrow, jb₁, hq, rfl, rfl⟩)
  · simp only [if_neg hs, jbGetSilence, Option.bind_eq_bind, Option.bind_eq_some_iff,
      Option.pure_def, Option.some.injEq, Prod.mk.injEq, Prod.exists] at h
    obtain ⟨jb₁, fr, hq, rfl, rfl, rfl⟩ := h
    exact .inr (.inr ⟨hs, _, jb₁, rfl, hq, rfl, rfl⟩)

theorem jbGet_cases (h : jbGet jb before now interpl = some (jb', ret, frameout)) :
    ∃ frame, jbGetFrame jb now interpl = some (jb', ret, frame) ∧
      frameout = if ret = .interp then
        { frame.getD before with ms := jb'.info.lastVoiceMs } else frame.getD before := by
  unfold jbGet at h
  simp only [Option.bind_eq_bind, Option.bind_eq_some_iff, Prod.exists] at h
  obtain ⟨j, r, fr, hget, h⟩ := h
  by_cases hr : r = .interp
  · rw [if_pos hr] at h
    simp only [Option.pure_def, Option.some.injEq, Prod.mk.injEq] at h
    obtain ⟨rfl, rfl, rfl⟩ := h
    exact ⟨fr, hget, by rw [if_pos hr]⟩
  · rw [if_neg hr] at h
    simp only [Option.pure_def, Option.some.injEq, Prod.mk.injEq] at h
    obtain ⟨rfl, rfl, rfl⟩ := h
    exact ⟨fr, hget, by rw [if_neg hr]⟩

/-! ## The other calls -/

theorem jbGetall_cases (h : jbGetall jb before = some (jb', ret, frameout)) :
    ∃ frame, queueGet jb 0 true = some (jb', frame) ∧
      (frame = none ∧ ret = .noframe ∨ frame = some frameout ∧ ret = .ok) := by
  unfold jbGetall at h
  simp only [Option.bind_eq_bind, Option.bind_eq_some_iff, Prod.exists] at h
  obtain ⟨j, fr, hq, h⟩ := h
  cases fr with
  | none =>
    simp only [Option.pure_def, Option.some.injEq, Prod.mk.injEq] at h
    obtain ⟨rfl, rfl, rfl⟩ := h
    exact ⟨none, hq, .inl ⟨rfl, rfl⟩⟩
  | some f =>
    simp only [Option.pure_def, Option.some.injEq, Prod.mk.injEq] at h
    obtain ⟨rfl, rfl, rfl⟩ := h
    exact ⟨some f, hq, .inr ⟨rfl, rfl⟩⟩

/-- `jb_next` looks at the history, or changes nothing. -/
theorem jbNext_cases {t : ℤ} (h : jbNext jb = some (jb', t)) : jb' = jb ∨ jb' = historyGet jb := by
  unfold jbNext at h
  split at h
  · split at h
    · simp only [Option.bind_eq_bind, Option.bind_eq_some_iff] at h
      obtain ⟨nx, -, h⟩ := h
      split at h
      · exact .inr (Prod.mk.inj (Option.some.inj h)).1.symm
      · exact .inr (Prod.mk.inj (Option.some.inj h)).1.symm
    · exact .inl (Prod.mk.inj (Option.some.inj h)).1.symm
  · exact .inl (Prod.mk.inj (Option.some.inj h)).1.symm

end Jitter

end Trismedia
