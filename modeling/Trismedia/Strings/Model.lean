import Mathlib.Data.Int.Notation
import Mathlib.Logic.Function.Basic
import Trismedia.Common.CString
/-!
# Dynamic strings

`struct tris_str` and the functions of `main/strings.c` and
`include/trismedia/strings.h` that fill, empty and extend one. A buffer is its
three fields and its memory, of which the first `__TRIS_STR_LEN` bytes are its
own; a call that writes to another byte, or whose `int` overflows, is `none`.
Whether `realloc` has a block of some size to give is `alloc`. What a formatted
call prints is its text. Static storage, which the source does not support yet,
is left out.
-/


namespace Trismedia

namespace Strings

open CString

/-- `__TRIS_STR_TS` -/
inductive Storage
  | malloc
  | alloca
  | thread
  deriving DecidableEq

/-- `struct tris_str` -/
structure TrisStr where
  len : ℕ
  used : ℕ
  ts : Storage
  str : ℕ → CChar

/-- `INT_MAX` -/
def intMax : ℕ := 2147483647

/-- A byte is written. -/
def TrisStr.poke (buf : TrisStr) (i : ℕ) (c : CChar) : Option TrisStr :=
  if i < buf.len then some { buf with str := Function.update buf.str i c } else none

/-- Bytes are written, one after the other. -/
def TrisStr.put (buf : TrisStr) (i : ℕ) : CString → Option TrisStr
  | [] => some buf
  | c :: cs => (buf.poke i c).bind fun buf => buf.put (i + 1) cs

/-- **`tris_str_make_space`**; -1 is `none`, and the string is as it was. -/
def trisStrMakeSpace (alloc : ℕ → Bool) (buf : TrisStr) (newLen : ℕ) : Option TrisStr :=
  if newLen ≤ buf.len then some buf
  else if buf.ts = .alloca then none
  else if alloc newLen then some { buf with len := newLen }
  else none

/-! ## Formatted calls -/

/-- `vsnprintf` of a text to `size` bytes. -/
def vsnprintf (buf : TrisStr) (offset size : ℕ) (text : CString) : Option TrisStr :=
  if size = 0 then some buf else buf.put offset (text.take (size - 1) ++ [0])

/-- `LEN - offset`, in a `size_t`. -/
def roomFrom (buf : TrisStr) (offset : ℕ) : ℕ :=
  if offset ≤ buf.len then buf.len - offset else buf.len + 18446744073709551616 - offset

/-- How long the buffer is to become, when `need` bytes do not fit. -/
def growTo (maxLen : ℤ) (need : ℕ) : ℕ :=
  if maxLen ≠ 0 ∧ maxLen < need then maxLen.toNat
  else if maxLen = 0 then need + (16 + need / 4)
  else need

/-- The loop of `__tris_str_helper`: the string and what is returned. A round that
is not the last makes the buffer longer. -/
def strHelperLoop (alloc : ℕ → Bool) (offset : ℕ) (text : CString) :
    ℕ → ℤ → TrisStr → Option (TrisStr × ℤ)
  | 0, _, _ => none
  | fuel + 1, maxLen, buf =>
    let maxLen : ℤ := if maxLen < 0 then buf.len else maxLen
    match vsnprintf buf offset (roomFrom buf offset) text with
    | none => none
    | some buf =>
      let need := text.length + offset + 1
      if intMax < need then none
      else if buf.len < need ∧ (maxLen = 0 ∨ (buf.len : ℤ) < maxLen) then
        if intMax < growTo maxLen need then none
        else
          match trisStrMakeSpace alloc buf (growTo maxLen need) with
          | none => some (buf, -1)
          | some buf =>
            (buf.poke offset 0).bind fun buf => strHelperLoop alloc offset text fuel maxLen buf
      else
        some ({ buf with
          used := if buf.len < text.length + offset then buf.len - 1 else text.length + offset },
          text.length)

/-- **`__tris_str_helper`** -/
def strHelper (alloc : ℕ → Bool) (buf : TrisStr) (maxLen : ℤ) (append : Bool) (text : CString) :
    Option (TrisStr × ℤ) :=
  let offset := if append ∧ buf.len ≠ 0 then buf.used else 0
  strHelperLoop alloc offset text (text.length + offset + 2) maxLen buf

/-- `tris_str_set` -/
def trisStrSet (alloc : ℕ → Bool) (buf : TrisStr) (maxLen : ℤ) (text : CString) :
    Option TrisStr :=
  (strHelper alloc buf maxLen false text).map Prod.fst

/-- `tris_str_append` -/
def trisStrAppend (alloc : ℕ → Bool) (buf : TrisStr) (maxLen : ℤ) (text : CString) :
    Option TrisStr :=
  (strHelper alloc buf maxLen true text).map Prod.fst

/-! ## Calls that copy characters -/

/-- Where the copying of `__tris_str_helper2` ended. -/
structure Copied where
  buf : TrisStr
  ptr : ℕ
  maxlen : ℕ
  src : CString
  maxsrc : ℕ

/-- A backslash goes before this character. -/
def isEscaped (escapecommas : Bool) (c : CChar) : Bool :=
  escapecommas && (c = chr '\\' || c = chr ',')

/-- A character that is copied is counted. -/
def TrisStr.copyChar (buf : TrisStr) (ptr : ℕ) (c : CChar) : Option TrisStr :=
  (buf.poke ptr c).map fun buf => { buf with used := buf.used + 1 }

/-- There is no count for one more character. -/
def isSpent (escapecommas : Bool) (maxlen : ℕ) : Bool :=
  maxlen = 0 || escapecommas && maxlen = 1

/-- The loop of `__tris_str_helper2`. -/
def copyLoop (alloc : ℕ → Bool) (escapecommas dynamic : Bool) :
    CString → TrisStr → ℕ → ℕ → ℕ → Option Copied
  | [], buf, ptr, maxlen, maxsrc => some ⟨buf, ptr, maxlen, [], maxsrc⟩
  | c :: src, buf, ptr, maxlen, maxsrc =>
    if maxsrc = 0 ∨ isSpent escapecommas maxlen then some ⟨buf, ptr, maxlen, c :: src, maxsrc⟩
    else
      let escaped := isEscaped escapecommas c
      let ptr' := if escaped then ptr + 1 else ptr
      let maxlen' := if escaped then maxlen - 1 else maxlen
      match (if escaped then buf.copyChar ptr (chr '\\') else some buf).bind
        (TrisStr.copyChar · ptr' c) with
      | none => none
      | some buf =>
        if buf.len ≤ ptr' + 1 + 3 ∨ dynamic ∧ isSpent escapecommas (maxlen' - 1) then
          match trisStrMakeSpace alloc buf (buf.len * 2) with
          | none => some ⟨buf, ptr' + 1, maxlen' - 1, src, maxsrc - 1⟩
          | some buf' =>
            copyLoop alloc escapecommas dynamic src buf' (ptr' + 1) buf.len (maxsrc - 1)
        else copyLoop alloc escapecommas dynamic src buf (ptr' + 1) (maxlen' - 1) (maxsrc - 1)

/-- **`__tris_str_helper2`** -/
def strHelper2 (alloc : ℕ → Bool) (buf : TrisStr) (maxlen : ℤ) (src : CString) (maxsrc : ℕ)
    (append escapecommas : Bool) : Option TrisStr :=
  let dynamic : Bool := maxlen = 0
  let ptr := if append then buf.used else 0
  let maxlen := if maxlen < 1 then buf.len else maxlen.toNat
  match copyLoop alloc escapecommas dynamic src buf ptr maxlen maxsrc with
  | none => none
  | some copied =>
    copied.buf.poke (if copied.maxlen = 0 then copied.ptr - 1 else copied.ptr) 0

/-- `tris_str_set_substr` -/
def trisStrSetSubstr (alloc : ℕ → Bool) (buf : TrisStr) (maxlen : ℤ) (src : CString)
    (maxsrc : ℕ) : Option TrisStr :=
  strHelper2 alloc buf maxlen src maxsrc false false

/-- `tris_str_append_substr` -/
def trisStrAppendSubstr (alloc : ℕ → Bool) (buf : TrisStr) (maxlen : ℤ) (src : CString)
    (maxsrc : ℕ) : Option TrisStr :=
  strHelper2 alloc buf maxlen src maxsrc true false

/-- `tris_str_set_escapecommas` -/
def trisStrSetEscapecommas (alloc : ℕ → Bool) (buf : TrisStr) (maxlen : ℤ) (src : CString)
    (maxsrc : ℕ) : Option TrisStr :=
  strHelper2 alloc buf maxlen src maxsrc false true

/-- `tris_str_append_escapecommas` -/
def trisStrAppendEscapecommas (alloc : ℕ → Bool) (buf : TrisStr) (maxlen : ℤ) (src : CString)
    (maxsrc : ℕ) : Option TrisStr :=
  strHelper2 alloc buf maxlen src maxsrc true true

/-! ## Other calls -/

/-- `tris_str_reset` -/
def trisStrReset (buf : TrisStr) : Option TrisStr :=
  if buf.len ≠ 0 then { buf with used := 0 }.poke 0 0 else some { buf with used := 0 }

/-- The loop of `tris_str_trim_blanks`; a `char` is signed. -/
def trimLoop : ℕ → TrisStr → Option TrisStr
  | 0, buf => some buf
  | n + 1, buf =>
    if (buf.str n).toInt < 33 then ({ buf with used := n }.poke n 0).bind (trimLoop n)
    else some buf

/-- **`tris_str_trim_blanks`** -/
def trisStrTrimBlanks (buf : TrisStr) : Option TrisStr := trimLoop buf.used buf

end Strings

end Trismedia
