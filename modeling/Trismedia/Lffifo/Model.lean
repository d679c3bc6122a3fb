import Mathlib.Tactic.Ring
import Trismedia.Common.CInt
import Trismedia.Common.Prog
import Trismedia.Common.RingBuf
/-!
# The lock-free fifo

`channels/ss7/lffifo.c`. `lffifo_put` and `lffifo_get` are programs whose
atomic actions are the reads and writes of single bytes of the buffer and
of `start` and `end`, in the order of the source. Memory is never short.
-/


namespace Trismedia

namespace Lffifo

abbrev Octet := BitVec 8

/-- `BYT_EMPTY` -/
def bytEmpty : Octet := 0xfe

/-- `BYT_ESCAPE` -/
def bytEscape : Octet := 0xfd

/-- `BYT_ESCAPED_EMPTY` -/
def bytEscapedEmpty : Octet := 0x00

/-- `BYT_ESCAPED_ESCAPE` -/
def bytEscapedEscape : Octet := 0x01

/-- `BYT_ESCAPED_FRAME_END` -/
def bytEscapedFrameEnd : Octet := 0x02

/-- `struct lffifo` -/
structure Fifo where
  size : ℕ
  start : ℕ
  end_ : ℕ
  buf : ℕ → Octet

/-- `lffifo_alloc` -/
def lffifoAlloc (size : ℤ) : Option Fifo :=
  if size ≤ 0 ∨ size > 1000000000 then none
  else some ⟨size.toNat, 0, 0, fun _ => bytEmpty⟩

/-- `i++; if(i >= fifo->size) i = 0;` -/
def next (size i : ℕ) : ℕ := if i + 1 ≥ size then 0 else i + 1

/-- `fifo->buf[i] = x` -/
def Fifo.setBuf (s : Fifo) (i : ℕ) (x : Octet) : Fifo :=
  { s with buf := Function.update s.buf i x }

@[simp] theorem Fifo.setBuf_buf (s : Fifo) (i : ℕ) (x : Octet) :
    (s.setBuf i x).buf = Function.update s.buf i x := rfl

variable {α : Type*}

def readBuf (i : ℕ) (k : Octet → Prog Fifo α) : Prog Fifo α := Prog.read (·.buf i) k

def writeBuf (i : ℕ) (x : Octet) (k : Prog Fifo α) : Prog Fifo α := Prog.write (·.setBuf i x) k

def writeStart (i : ℕ) (k : Prog Fifo α) : Prog Fifo α :=
  Prog.write (fun s => { s with start := i }) k

def writeEnd (i : ℕ) (k : Prog Fifo α) : Prog Fifo α :=
  Prog.write (fun s => { s with end_ := i }) k

theorem run_readBuf (i : ℕ) (k : Octet → Prog Fifo α) (s : Fifo) :
    (readBuf i k).run s = (k (s.buf i)).run s := rfl

theorem run_writeBuf (i : ℕ) (x : Octet) (k : Prog Fifo α) (s : Fifo) :
    (writeBuf i x k).run s = k.run (s.setBuf i x) := rfl

theorem run_writeStart (i : ℕ) (k : Prog Fifo α) (s : Fifo) :
    (writeStart i k).run s = k.run { s with start := i } := rfl

/-! ## Putting -/

/-- The values of `x`, with `none` for the -1 behind the last byte. -/
def symbols (data : List Octet) : List (Option Octet) := data.map some ++ [none]

/-- `x == BYT_EMPTY || x == BYT_ESCAPE || x == -1` -/
def isEscaped (x : Option Octet) : Bool := x = some bytEmpty ∨ x = some bytEscape ∨ x = none

/-- The byte behind `BYT_ESCAPE`. -/
def escapeOf (x : Option Octet) : Octet :=
  if x = some bytEmpty then bytEscapedEmpty
  else if x = some bytEscape then bytEscapedEscape
  else bytEscapedFrameEnd

/-- The first iteration of `lffifo_put`, from the cell `i`. -/
def putCheck (size : ℕ) (k : Prog Fifo ℤ) : List (Option Octet) → ℕ → Prog Fifo ℤ
  | [], _ => k
  | x :: xs, i =>
    readBuf i fun b =>
      if b ≠ bytEmpty then .ret 1
      else if isEscaped x then
        let i := next size i
        readBuf i fun b =>
          if b ≠ bytEmpty then .ret 1
          else putCheck size k xs (next size i)
      else putCheck size k xs (next size i)

/-- The second iteration. -/
def putWrite (size : ℕ) : List (Option Octet) → ℕ → Prog Fifo ℤ
  | [], i => writeEnd i (.ret 0)
  | x :: xs, i =>
    if isEscaped x then
      writeBuf i bytEscape <|
      let i := next size i
      writeBuf i (escapeOf x) <|
      putWrite size xs (next size i)
    else
      writeBuf i (x.getD 0) <|
      putWrite size xs (next size i)

/-- `lffifo_put` -/
def lffifoPut (size : ℕ) (data : List Octet) : Prog Fifo ℤ :=
  if data.length = 0 ∨ data.length > 0x10000000 then .ret 1
  else
    Prog.read Fifo.end_ fun i =>
    putCheck size (Prog.read Fifo.end_ fun i => putWrite size (symbols data) i) (symbols data) i

/-! ## Getting -/

/-- What the byte behind `BYT_ESCAPE` stands for. -/
def unescape (x : Octet) : Option Octet :=
  if x = bytEscapedEmpty then some bytEmpty
  else if x = bytEscapedEscape then some bytEscape
  else none

/-- What `lffifo_get` returns, and what it has written to `buf`. -/
abbrev GetResult := ℤ × List Octet

/-- The second iteration of `lffifo_get`, from the cell `i` with `j` bytes
of the frame done. -/
def getClear (size bufsize : ℕ) (i j : ℕ) (out : List Octet) : Prog Fifo GetResult :=
  -- the rest of the round for the symbol `x`, with `i` behind it
  let finish (x : Option Octet) (i : ℕ) : Prog Fifo GetResult :=
    match x with
    | none =>
      if j > bufsize then writeStart i (.ret (bufsize - j, out))
      else writeStart i (.ret (j, out))
    | some x =>
      let out := if j < bufsize then out ++ [x] else out
      if _h : j + 1 > size then
        Prog.read Fifo.end_ fun e => writeStart e (.ret (0, out))
      else getClear size bufsize i (j + 1) out
  readBuf i fun x =>
    writeBuf i bytEmpty <|
    if x = bytEscape then
      let i := next size i
      readBuf i fun x =>
        writeBuf i bytEmpty <|
        finish (unescape x) (next size i)
    else finish (some x) (next size i)
termination_by size - j

/-- The first iteration. -/
def getScan (size bufsize : ℕ) (i j : ℕ) : Prog Fifo GetResult :=
  let clear : Prog Fifo GetResult := Prog.read Fifo.start fun i => getClear size bufsize i 0 []
  let finish (x : Option Octet) (i : ℕ) : Prog Fifo GetResult :=
    match x with
    | none => if j > bufsize then .ret (bufsize - j, []) else clear
    | some _ =>
      if _h : j + 1 > size then
        Prog.read Fifo.end_ fun e => writeStart e clear
      else getScan size bufsize i (j + 1)
  readBuf i fun x =>
    if x = bytEmpty then .ret (0, [])
    else if x = bytEscape then
      let i := next size i
      readBuf i fun x =>
        if x = bytEmpty then .ret (0, [])
        else finish (unescape x) (next size i)
    else finish (some x) (next size i)
termination_by size - j

/-- `lffifo_get` -/
def lffifoGet (size bufsize : ℕ) : Prog Fifo GetResult :=
  Prog.read Fifo.start fun i => getScan size bufsize i 0

end Lffifo

/-!
## Frames as bytes

The bytes of a frame in the buffer, `encFrame`, and the two operations read
off them: `lffifo_put` looks at as many cells as the frame has bytes and
then writes these bytes, `lffifo_get` reads them symbol by symbol.
-/

namespace Lffifo

abbrev Frame := List Octet

/-- The bytes of one symbol. -/
def encSym (x : Option Octet) : List Octet :=
  if isEscaped x then [bytEscape, escapeOf x] else [x.getD 0]

/-- **The bytes of a frame**, its end marker included. -/
def encFrame (data : Frame) : List Octet := (symbols data).flatMap encSym

/-- The bytes of the first bytes of a frame, in front of the rest. -/
def encBytes (data : Frame) : List Octet := data.flatMap fun x => encSym (some x)

theorem encFrame_eq (data : Frame) :
    encFrame data = encBytes data ++ [bytEscape, bytEscapedFrameEnd] := by
  rw [encFrame, symbols, List.flatMap_append, List.flatMap_map]
  rfl

@[simp] theorem encBytes_nil : encBytes [] = [] := rfl

theorem encBytes_cons (x : Octet) (data : Frame) :
    encBytes (x :: data) = encSym (some x) ++ encBytes data := rfl

theorem encBytes_append (xs ys : Frame) : encBytes (xs ++ ys) = encBytes xs ++ encBytes ys :=
  List.flatMap_append

theorem encFrame_nil : encFrame [] = [bytEscape, bytEscapedFrameEnd] := rfl

theorem encFrame_cons (x : Octet) (data : Frame) :
    encFrame (x :: data) = encSym (some x) ++ encFrame data := by
  rw [encFrame_eq, encFrame_eq, encBytes_cons, List.append_assoc]

theorem encFrame_append (xs ys : Frame) : encFrame (xs ++ ys) = encBytes xs ++ encFrame ys := by
  rw [encFrame_eq, encFrame_eq, encBytes_append, List.append_assoc]

/-- The bytes of one byte: itself, or an escape. -/
theorem encSym_cases (x : Octet) :
    (x ≠ bytEmpty ∧ x ≠ bytEscape ∧ encSym (some x) = [x]) ∨
      ∃ e, encSym (some x) = [bytEscape, e] ∧ e ≠ bytEmpty ∧ unescape e = some x := by
  by_cases hempty : x = bytEmpty
  · subst hempty
    exact .inr ⟨bytEscapedEmpty, by decide, by decide, by decide⟩
  · by_cases hescape : x = bytEscape
    · subst hescape
      exact .inr ⟨bytEscapedEscape, by decide, by decide, by decide⟩
    · refine .inl ⟨hempty, hescape, ?_⟩
      simp [encSym, isEscaped, hempty, hescape]

theorem unescape_frameEnd : unescape bytEscapedFrameEnd = none := by decide

theorem length_encSym_pos (x : Octet) : 0 < (encSym (some x)).length := by
  rcases encSym_cases x with ⟨-, -, h⟩ | ⟨e, h, -, -⟩ <;> simp [h]

theorem length_le_encBytes (data : Frame) : data.length ≤ (encBytes data).length := by
  induction data with
  | nil => exact Nat.le_refl 0
  | cons x data ih =>
    have hpos := length_encSym_pos x
    rw [encBytes_cons, List.length_append, List.length_cons]
    omega

theorem length_encFrame (data : Frame) : (encFrame data).length = (encBytes data).length + 2 := by
  rw [encFrame_eq, List.length_append]
  rfl

/-- **No byte of a frame marks an empty cell.** -/
theorem ne_empty_of_mem_encFrame {data : Frame} {b : Octet} (h : b ∈ encFrame data) :
    b ≠ bytEmpty := by
  induction data with
  | nil =>
    rw [encFrame_nil] at h
    rcases List.mem_pair.1 h with rfl | rfl <;> decide
  | cons x data ih =>
    rw [encFrame_cons, List.mem_append] at h
    rcases h with h | h
    · rcases encSym_cases x with ⟨hne, -, henc⟩ | ⟨e, henc, hne, -⟩
      · rw [henc] at h
        obtain rfl := List.mem_singleton.1 h
        exact hne
      · rw [henc] at h
        rcases List.mem_pair.1 h with rfl | rfl
        · decide
        · exact hne
    · exact ih h

theorem next_mod {size : ℕ} (hsize : 0 < size) (i : ℕ) :
    next size (i % size) = (i + 1) % size := by
  have hlt := Nat.mod_lt i hsize
  rw [next, ← RingBuf.mod_succ size i]
  by_cases hend : i % size + 1 ≥ size
  · rw [if_pos hend, show i % size + 1 = size by omega, Nat.mod_self]
  · rw [if_neg hend]
    exact (Nat.mod_eq_of_lt (by omega)).symm

/-! ## Putting, byte by byte -/

/-- Looks at `m` cells from the cell `i`. -/
def checkCells (size : ℕ) (k : Prog Fifo ℤ) : ℕ → ℕ → Prog Fifo ℤ
  | 0, _ => k
  | m + 1, i => readBuf i fun b => if b ≠ bytEmpty then .ret 1 else checkCells size k m (next size i)

/-- Writes bytes from the cell `i`. -/
def writeCells (size : ℕ) : List Octet → ℕ → Prog Fifo ℤ
  | [], i => writeEnd i (.ret 0)
  | b :: bs, i => writeBuf i b (writeCells size bs (next size i))

theorem putCheck_eq (size : ℕ) (k : Prog Fifo ℤ) (xs : List (Option Octet)) (i : ℕ) :
    putCheck size k xs i = checkCells size k (xs.flatMap encSym).length i := by
  induction xs generalizing i with
  | nil => rfl
  | cons x xs ih =>
    by_cases hx : isEscaped x
    · have hlen : ((x :: xs).flatMap encSym).length = (xs.flatMap encSym).length + 1 + 1 := by
        simp [encSym, hx]
      simp only [putCheck, hx, if_true, hlen, checkCells, ih]
    · have hlen : ((x :: xs).flatMap encSym).length = (xs.flatMap encSym).length + 1 := by
        simp [encSym, hx]
      simp only [putCheck, hx, hlen, checkCells, ih]
      rfl

theorem putWrite_eq (size : ℕ) (xs : List (Option Octet)) (i : ℕ) :
    putWrite size xs i = writeCells size (xs.flatMap encSym) i := by
  induction xs generalizing i with
  | nil => rfl
  | cons x xs ih =>
    by_cases hx : isEscaped x
    · have hbytes : (x :: xs).flatMap encSym = bytEscape :: escapeOf x :: xs.flatMap encSym := by
        simp [encSym, hx]
      simp only [putWrite, hx, if_true, hbytes, writeCells, ih]
    · have hbytes : (x :: xs).flatMap encSym = x.getD 0 :: xs.flatMap encSym := by
        simp [encSym, hx]
      simp only [putWrite, hx, hbytes, writeCells, ih]
      rfl

/-- The put of a frame that passes the sanity check. -/
def putFrame (size : ℕ) (data : Frame) : Prog Fifo ℤ :=
  Prog.read Fifo.end_ fun i =>
  checkCells size (Prog.read Fifo.end_ fun i => writeCells size (encFrame data) i)
    (encFrame data).length i

theorem lffifoPut_eq (size : ℕ) (data : Frame) :
    lffifoPut size data =
      if data.length = 0 ∨ data.length > 0x10000000 then .ret 1 else putFrame size data := by
  have hwrite : (fun i => putWrite size (symbols data) i) = writeCells size (encFrame data) :=
    funext (putWrite_eq size (symbols data))
  unfold lffifoPut putFrame
  simp only [putCheck_eq, hwrite]
  rfl

/-! ## Getting, symbol by symbol -/

/-- The second iteration behind the symbol `x`. -/
def clearFinish (size bufsize j : ℕ) (out : List Octet) (x : Option Octet) (i : ℕ) :
    Prog Fifo GetResult :=
  match x with
  | none =>
    if j > bufsize then writeStart i (.ret (bufsize - j, out))
    else writeStart i (.ret (j, out))
  | some x =>
    let out := if j < bufsize then out ++ [x] else out
    if j + 1 > size then Prog.read Fifo.end_ fun e => writeStart e (.ret (0, out))
    else getClear size bufsize i (j + 1) out

theorem clearFinish_some {size bufsize j : ℕ} (hj : j < size) (hb : j < bufsize)
    (out : List Octet) (x : Octet) (i : ℕ) :
    clearFinish size bufsize j out (some x) i = getClear size bufsize i (j + 1) (out ++ [x]) := by
  have hj' : ¬ j + 1 > size := by omega
  simp only [clearFinish, if_pos hb, if_neg hj']

theorem clearFinish_none {size bufsize j : ℕ} (hb : j ≤ bufsize) (out : List Octet) (i : ℕ) :
    clearFinish size bufsize j out none i = writeStart i (.ret ((j : ℤ), out)) := by
  have hb' : ¬ j > bufsize := by omega
  simp only [clearFinish, if_neg hb']

/-- The second iteration behind an escape byte. -/
def clearEscaped (size bufsize i j : ℕ) (out : List Octet) : Prog Fifo GetResult :=
  readBuf i fun x => writeBuf i bytEmpty (clearFinish size bufsize j out (unescape x) (next size i))

theorem getClear_eq (size bufsize i j : ℕ) (out : List Octet) :
    getClear size bufsize i j out =
      readBuf i fun x =>
        writeBuf i bytEmpty <|
        if x = bytEscape then clearEscaped size bufsize (next size i) j out
        else clearFinish size bufsize j out (some x) (next size i) := by
  rw [getClear]
  rfl

/-- From the first iteration to the second. -/
def startClear (size bufsize : ℕ) : Prog Fifo GetResult :=
  Prog.read Fifo.start fun i => getClear size bufsize i 0 []

/-- The first iteration behind the symbol `x`. -/
def scanFinish (size bufsize j : ℕ) (x : Option Octet) (i : ℕ) : Prog Fifo GetResult :=
  match x with
  | none => if j > bufsize then .ret (bufsize - j, []) else startClear size bufsize
  | some _ =>
    if j + 1 > size then Prog.read Fifo.end_ fun e => writeStart e (startClear size bufsize)
    else getScan size bufsize i (j + 1)

theorem scanFinish_some {size j : ℕ} (hj : j < size) (bufsize : ℕ) (x : Octet) (i : ℕ) :
    scanFinish size bufsize j (some x) i = getScan size bufsize i (j + 1) := by
  have hj' : ¬ j + 1 > size := by omega
  simp only [scanFinish, if_neg hj']

/-- The first iteration behind an escape byte. -/
def scanEscaped (size bufsize i j : ℕ) : Prog Fifo GetResult :=
  readBuf i fun x =>
    if x = bytEmpty then .ret (0, []) else scanFinish size bufsize j (unescape x) (next size i)

theorem getScan_eq (size bufsize i j : ℕ) :
    getScan size bufsize i j =
      readBuf i fun x =>
        if x = bytEmpty then .ret (0, [])
        else if x = bytEscape then scanEscaped size bufsize (next size i) j
        else scanFinish size bufsize j (some x) (next size i) := by
  rw [getScan]
  rfl

end Lffifo

end Trismedia
