import Mathlib.Data.BitVec
import Trismedia.Common.CString
import Trismedia.Common.Memory
/-!
# URI encoding

`tris_uri_encode` and `tris_uri_decode` of `main/utils.c`. The encoder is the
row of its writes, each an address and the bytes that are put there; the
string it reads is not in the buffer. A `char` is signed. The decoder
overwrites its string, and what it writes never passes what it reads.
-/


namespace Trismedia

namespace Uri

open CString

/-- A write: where, and what. -/
abbrev Write := ℕ × CString

/-- The memory after the writes. -/
def applyWrites (m : ℕ → CChar) (ws : List Write) : ℕ → CChar :=
  ws.foldl (fun m w => Memory.store m w.1 w.2) m

/-- `tris_copy_string` to `dst`. -/
def copyWrites : CString → ℕ → ℕ → List Write
  | [], dst, size => [(if size = 0 then dst - 1 else dst, [0])]
  | _ :: _, dst, 0 => [(dst - 1, [0])]
  | c :: cs, dst, size + 1 => (dst, [c]) :: copyWrites cs (dst + 1) size

/-- `reserved` of `tris_uri_encode` -/
def reserved : CString := str ";/?:@&=+$,# "

/-- The character is to be rewritten. -/
def needsEscape (doreserved : Bool) (c : CChar) : Bool :=
  c.toInt < 32 || (doreserved && reserved.contains c)

/-- A digit of `%x`. -/
def hexDigit (n : ℕ) : CChar := BitVec.ofNat 8 (if n < 10 then 48 + n else 87 + n)

/-- What `%%%02x` makes of the character. -/
def escaped (c : CChar) : CString := [chr '%', hexDigit (c.toNat / 16), hexDigit (c.toNat % 16)]

/-- The loop of `tris_uri_encode` from `ptr` on; `out` is null until the first
character is rewritten. -/
def encodeLoop (doreserved : Bool) (outbuf : ℕ) : CString → ℕ → Option ℕ → List Write
  | [], _, none => []
  | [], _, some out => [(out, [0])]
  | c :: cs, ptr, out =>
    if needsEscape doreserved c then
      let o := out.getD (outbuf + ptr)
      (o, escaped c ++ [0]) :: encodeLoop doreserved outbuf cs (ptr + 1) (some (o + 3))
    else
      match out with
      | some o => (o, [c]) :: encodeLoop doreserved outbuf cs (ptr + 1) (some (o + 1))
      | none => encodeLoop doreserved outbuf cs (ptr + 1) none

/-- `tris_uri_encode` -/
def trisUriEncode (string : CString) (outbuf buflen : ℕ) (doreserved : Bool) : List Write :=
  copyWrites string outbuf buflen ++ encodeLoop doreserved outbuf string 0 none

/-! ## The decoder -/

/-- `isspace` -/
def isSpace (c : CChar) : Bool := c.toNat = 32 || (9 ≤ c.toNat && c.toNat ≤ 13)

/-- The value of a hexadecimal digit. -/
def hexVal (c : CChar) : Option ℕ :=
  if 48 ≤ c.toNat ∧ c.toNat ≤ 57 then some (c.toNat - 48)
  else if 97 ≤ c.toNat ∧ c.toNat ≤ 102 then some (c.toNat - 87)
  else if 65 ≤ c.toNat ∧ c.toNat ≤ 70 then some (c.toNat - 55)
  else none

/-- The number of `%2x` that begins here: a sign and a digit, or one or two
digits. What begins as `0x` has no room for a digit. -/
def scanNumber : CString → Option ℕ
  | [] => none
  | c :: cs =>
    if c = chr '+' then cs.head?.bind hexVal
    else if c = chr '-' then (cs.head?.bind hexVal).map fun v => (4294967296 - v) % 4294967296
    else
      (hexVal c).bind fun v =>
        match cs.head? with
        | none => some v
        | some d =>
          if c = chr '0' ∧ (d = chr 'x' ∨ d = chr 'X') then none
          else
            match hexVal d with
            | some w => some (16 * v + w)
            | none => some v

/-- `sscanf(s, "%2x", &tmp)`: the number, where 1 is returned. -/
def sscanf2x (s : CString) : Option ℕ := scanNumber (s.dropWhile isSpace)

/-- `tris_uri_decode`: what is written, up to the NUL. -/
def trisUriDecode : CString → CString
  | c :: a :: b :: rest =>
    if c = chr '%' then
      match sscanf2x (a :: b :: rest) with
      | some tmp => BitVec.ofNat 8 tmp :: trisUriDecode rest
      | none => c :: trisUriDecode (a :: b :: rest)
    else c :: trisUriDecode (a :: b :: rest)
  | s => s

/-- The string that the bytes are read as. -/
def asString (bytes : CString) : CString := bytes.takeWhile fun c => c ≠ 0

end Uri

end Trismedia
