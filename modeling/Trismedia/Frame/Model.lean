import Mathlib.Data.BitVec
import Mathlib.Data.Int.Notation
import Trismedia.Common.CString
import Trismedia.Common.Memory
/-!
# Frames in memory

The frames of `main/frame.c`: a header that points to its payload and to the
name of its source, and marks which of the three `malloc` gave. Headers are
kept by their addresses, payloads and sources are bytes in memory, and the
allocator is told of every block in use. `tris_frisolate` makes of a frame
one whose parts are all from `malloc`; `tris_frdup` copies the frame into
one block.
-/


namespace Trismedia

namespace Frame

open Memory (Block Allocator load store strFrom)

/-- An address; the null pointer is 0. -/
abbrev Addr := ℕ

/-- The marks `TRIS_MALLOCD_HDR`, `TRIS_MALLOCD_DATA` and `TRIS_MALLOCD_SRC`. -/
structure Mallocd where
  hdr : Bool
  data : Bool
  src : Bool
  deriving DecidableEq

/-- The flags `TRIS_FRFLAG_HAS_TIMING_INFO`, `_FROM_TRANSLATOR` and `_FROM_DSP`. -/
structure Flags where
  hasTimingInfo : Bool
  fromTranslator : Bool
  fromDsp : Bool
  deriving DecidableEq

/-- `struct timeval` -/
structure Timeval where
  sec : ℤ
  usec : ℤ
  deriving DecidableEq

/-- `struct tris_frame`. The eight bytes of the union `data` are one number,
that is a pointer as a whole and `uint32` in its lower half. -/
structure TrisFrame where
  frametype : ℕ
  subclass : ℤ
  datalen : ℕ
  samples : ℤ
  mallocd : Mallocd
  mallocdHdrLen : ℕ
  offset : ℕ
  src : Addr
  data : ℕ
  delivery : Timeval
  flags : Flags
  ts : ℤ
  len : ℤ
  seqno : ℤ
  promoter : ℤ
  deriving DecidableEq

/-- `memset(f, 0, sizeof(*f))` -/
def zeroed : TrisFrame where
  frametype := 0
  subclass := 0
  datalen := 0
  samples := 0
  mallocd := ⟨false, false, false⟩
  mallocdHdrLen := 0
  offset := 0
  src := 0
  data := 0
  delivery := ⟨0, 0⟩
  flags := ⟨false, false, false⟩
  ts := 0
  len := 0
  seqno := 0
  promoter := 0

/-- `data.uint32` -/
def TrisFrame.uint32 (f : TrisFrame) : ℕ := f.data % 4294967296

/-- What the union `data` holds after `data.uint32 = w`. -/
def setUint32 (data w : ℕ) : ℕ := data / 4294967296 * 4294967296 + w

/-- `TRIS_FRIENDLY_OFFSET` -/
def friendlyOffset : ℕ := 64

/-- `sizeof(struct tris_frame)`, where a pointer is of eight bytes. -/
def sizeofFrame : ℕ := 112

/-- Headers and bytes by their addresses, the blocks that `malloc` gave and
that were not given back, the other blocks in use, and the headers that the
`frame_cache` of the thread keeps. Addresses end at `top`. -/
structure State where
  frames : Addr → TrisFrame
  bytes : Addr → CChar
  heap : List Block
  statics : List Block
  cache : List Addr
  top : ℕ

namespace State

variable (A : Allocator) (s : State)

/-- The blocks in use. -/
def used : List Block := s.heap ++ s.statics

def setFrame (a : Addr) (f : TrisFrame) : State :=
  { s with frames := fun x => if x = a then f else s.frames x }

/-- The bytes `l` are written at `p`. -/
def write (p : Addr) (l : List CChar) : State := { s with bytes := store s.bytes p l }

/-- The string that is read at `p`. -/
def strAt (p : Addr) : CString := strFrom s.bytes (s.top - p) p

/-- `tris_malloc`: a block that would not end in memory is not given. -/
def malloc (n : ℕ) : Option (Addr × State) :=
  ((A.malloc s.used n).filter fun p => p + n ≤ s.top).map fun p =>
    (p, { s with heap := ⟨p, n⟩ :: s.heap })

/-- `tris_calloc(1, n)`, for a header and the bytes after it. -/
def calloc (n : ℕ) : Option (Addr × State) :=
  (s.malloc A n).map fun r => (r.1, (r.2.write r.1 (List.replicate n 0)).setFrame r.1 zeroed)

/-- `tris_free` -/
def free (p : Addr) : State := { s with heap := s.heap.filter fun b => b.base ≠ p }

/-- `tris_strdup` of a string that is there. -/
def strdup (p : Addr) : Option (Addr × State) :=
  (s.malloc A ((s.strAt p).length + 1)).map fun r => (r.1, r.2.write r.1 (s.strAt p ++ [0]))

end State

/-! ## The source -/

/-- `tris_frame_header_new`: from the cache, or a new one. -/
def trisFrameHeaderNew (A : Allocator) (s : State) : Option (Addr × State) :=
  match s.cache with
  | f :: cache =>
    some (f, { s.setFrame f { zeroed with
      mallocdHdrLen := (s.frames f).mallocdHdrLen
      mallocd := ⟨true, false, false⟩ } with cache := cache })
  | [] => (s.calloc A sizeofFrame).map fun r =>
    (r.1, r.2.setFrame r.1 { r.2.frames r.1 with mallocdHdrLen := sizeofFrame })

/-- The blocks that the frame `f` at `a` owns: what `__frame_free` gives back
of it. -/
def TrisFrame.owns (f : TrisFrame) (a : Addr) : List Addr :=
  (if f.mallocd.data ∧ f.data ≠ 0 then [f.data - f.offset] else []) ++
    ((if f.mallocd.src ∧ f.src ≠ 0 then [f.src] else []) ++
      if f.mallocd.hdr then [a] else [])

/-- The block of `tris_frdup`, of `len` bytes: the first header of the cache
that was given so many, or a new block. -/
def dupBuf (A : Allocator) (s : State) (len : ℕ) : Option (Addr × State) :=
  match s.cache.find? fun c => len ≤ (s.frames c).mallocdHdrLen with
  | some out =>
    some (out, { s.setFrame out { zeroed with mallocdHdrLen := (s.frames out).mallocdHdrLen } with
      cache := s.cache.erase out })
  | none => (s.calloc A len).map fun r =>
    (r.1, r.2.setFrame r.1 { r.2.frames r.1 with mallocdHdrLen := len })

/-- `srclen` of `tris_frdup` -/
def dupSrclen (s : State) (f : Addr) : ℕ :=
  if (s.frames f).src ≠ 0 then (s.strAt (s.frames f).src).length else 0

/-- `len` of `tris_frdup` -/
def dupLen (s : State) (f : Addr) : ℕ :=
  sizeofFrame + friendlyOffset + (s.frames f).datalen +
    if 0 < dupSrclen s f then dupSrclen s f + 1 else 0

/-- The fields that `tris_frdup` copies first. -/
def dupHeader (s : State) (f out : Addr) : State :=
  s.setFrame out { s.frames out with
    frametype := (s.frames f).frametype
    subclass := (s.frames f).subclass
    datalen := (s.frames f).datalen
    samples := (s.frames f).samples
    delivery := (s.frames f).delivery
    mallocd := ⟨true, false, false⟩
    offset := friendlyOffset }

/-- The payload is copied behind the header. -/
def dupPayload (s : State) (f out : Addr) : State :=
  if (s.frames out).datalen ≠ 0 then
    let ptr := out + sizeofFrame + friendlyOffset
    (s.setFrame out { s.frames out with data := ptr }).write ptr
      (load s.bytes (s.frames f).data (s.frames out).datalen)
  else
    s.setFrame out { s.frames out with
      data := setUint32 (s.frames out).data (s.frames f).uint32 }

/-- The source is copied behind the payload. -/
def dupSource (s : State) (f out : Addr) (srclen : ℕ) : State :=
  if 0 < srclen then
    let src := out + sizeofFrame + friendlyOffset + (s.frames f).datalen
    (s.setFrame out { s.frames out with src := src }).write src
      (s.strAt (s.frames f).src ++ [0])
  else s

/-- The fields that `tris_frdup` copies last. -/
def dupTiming (s : State) (f out : Addr) : State :=
  s.setFrame out { s.frames out with
    flags := { (s.frames out).flags with hasTimingInfo := (s.frames f).flags.hasTimingInfo }
    ts := (s.frames f).ts
    len := (s.frames f).len
    seqno := (s.frames f).seqno
    promoter := (s.frames f).promoter }

/-- `tris_frdup` -/
def trisFrdup (A : Allocator) (s : State) (f : Addr) : Option Addr × State :=
  match dupBuf A s (dupLen s f) with
  | none => (none, s)
  | some (out, s') =>
    (some out, dupTiming (dupSource (dupPayload (dupHeader s' f out) f out) f out (dupSrclen s f))
      f out)

/-- The header of `tris_frisolate`: a new one with the frame's fields, or the
frame's own. -/
def isolateHeader (A : Allocator) (s : State) (fr : Addr) : Option (Addr × State) :=
  if (s.frames fr).mallocd.hdr = false then
    (trisFrameHeaderNew A s).map fun r =>
      let out := r.1
      let s := r.2
      let s := s.setFrame out { s.frames out with
        frametype := (s.frames fr).frametype
        subclass := (s.frames fr).subclass
        datalen := (s.frames fr).datalen
        samples := (s.frames fr).samples
        offset := (s.frames fr).offset
        flags := { (s.frames out).flags with
          hasTimingInfo := (s.frames fr).flags.hasTimingInfo } }
      (out, if (s.frames fr).flags.hasTimingInfo then
        s.setFrame out { s.frames out with
          ts := (s.frames fr).ts
          len := (s.frames fr).len
          seqno := (s.frames fr).seqno }
      else s)
  else
    some (fr, s.setFrame fr { s.frames fr with
      flags := { (s.frames fr).flags with fromTranslator := false, fromDsp := false } })

/-- The source of `tris_frisolate`: copied, or moved with its mark. The
second part says that the copy was made. -/
def isolateSrc (A : Allocator) (s : State) (fr out : Addr) : State × Bool :=
  if (s.frames fr).mallocd.src = false ∧ (s.frames fr).src ≠ 0 then
    match s.strdup A (s.frames fr).src with
    | some (src, s) => (s.setFrame out { s.frames out with src := src }, true)
    | none =>
      -- the null pointer that `strdup` gave is stored before it is looked at
      let s := s.setFrame out { s.frames out with src := 0 }
      (if out ≠ fr then s.free out else s, false)
  else
    let s := s.setFrame out { s.frames out with src := (s.frames fr).src }
    (s.setFrame fr { s.frames fr with
      src := 0
      mallocd := { (s.frames fr).mallocd with src := false } }, true)

/-- The payload of `tris_frisolate`: copied, or moved with its mark. -/
def isolateData (A : Allocator) (s : State) (fr out : Addr) : Option Addr × State :=
  if (s.frames fr).mallocd.data = false then
    if (s.frames fr).datalen = 0 then
      (some out, s.setFrame out { s.frames out with
        data := setUint32 (s.frames out).data (s.frames fr).uint32
        mallocd := ⟨true, false, true⟩ })
    else
      match s.malloc A ((s.frames fr).datalen + friendlyOffset) with
      | none =>
        let s := if (s.frames out).src ≠ (s.frames fr).src then s.free (s.frames out).src else s
        (none, if out ≠ fr then s.free out else s)
      | some (newdata, s) =>
        let ptr := newdata + friendlyOffset
        let s := s.setFrame out { s.frames out with
          offset := friendlyOffset
          datalen := (s.frames fr).datalen }
        let s := s.write ptr (load s.bytes (s.frames fr).data (s.frames fr).datalen)
        (some out, s.setFrame out { s.frames out with
          data := ptr
          mallocd := ⟨true, true, true⟩ })
  else
    let s := s.setFrame out { s.frames out with data := (s.frames fr).data }
    let s := s.setFrame fr { s.frames fr with
      data := 0
      mallocd := { (s.frames fr).mallocd with data := false } }
    (some out, s.setFrame out { s.frames out with mallocd := ⟨true, true, true⟩ })

/-- `tris_frisolate` -/
def trisFrisolate (A : Allocator) (s : State) (fr : Addr) : Option Addr × State :=
  if (s.frames fr).mallocd = ⟨false, false, false⟩ then
    trisFrdup A s fr
  else if (s.frames fr).mallocd = ⟨true, true, true⟩ then
    (some fr, s)
  else
    match isolateHeader A s fr with
    | none => (none, s)
    | some (out, s) =>
      match isolateSrc A s fr out with
      | (s, false) => (none, s)
      | (s, true) => isolateData A s fr out

end Frame

end Trismedia
