import Mathlib.Data.BitVec
import Trismedia.Common.CString
/-!
# Base 64

`tris_base64decode` and `tris_base64encode_full` of `main/utils.c`, with the
tables of `base64_init`. A `char` is signed, and the decoder looks in a table
of 256 with it: the look is `none` outside. The accumulators are `unsigned int`.
What is counted stands for an `int`, which holds it for buffers of less than
2 GiB.
-/


namespace Trismedia

namespace Base64

open CString

/-! ## The tables -/

/-- `base64[64]` and `b2a[256]` -/
structure Tables where
  base64 : CString
  b2a : CString
  deriving DecidableEq

/-- A round of `base64_init`. -/
def initRound (t : Tables) (x : ℕ) : Tables :=
  let base64 := (t.base64.set x (BitVec.ofNat 8 ((chr 'A').toNat + x))).set (x + 26)
    (BitVec.ofNat 8 ((chr 'a').toNat + x))
  let b2a := (t.b2a.set ((chr 'A').toNat + x) (BitVec.ofNat 8 x)).set ((chr 'a').toNat + x)
    (BitVec.ofNat 8 (x + 26))
  if x < 10 then
    ⟨base64.set (x + 52) (BitVec.ofNat 8 ((chr '0').toNat + x)),
      b2a.set ((chr '0').toNat + x) (BitVec.ofNat 8 (x + 52))⟩
  else ⟨base64, b2a⟩

/-- `base64_init` -/
def base64Init : Tables :=
  let t := (List.range 26).foldl initRound
    ⟨List.replicate 64 0, List.replicate 256 (BitVec.ofInt 8 (-1))⟩
  ⟨(t.base64.set 62 (chr '+')).set 63 (chr '/'),
    (t.b2a.set (chr '+').toNat 62).set (chr '/').toNat 63⟩

/-- `base64[n & 0x3f]` -/
def base64At (n : ℕ) : CChar := base64Init.base64.getD (n &&& 0x3f) 0

/-- `b2a[i]` -/
def b2aAt (i : ℤ) : Option CChar := if 0 ≤ i then base64Init.b2a[i.toNat]? else none

/-! ## Decoding -/

/-- The loop of `tris_base64decode`; `dst` is what it has written, `none` that
it looks outside `b2a`. -/
def decodeLoop (max : ℕ) : CString → ℕ → ℕ → CString → Option CString
  | [], _, _, dst => some dst
  | c :: src, byte, bits, dst =>
    if c ≠ 0 ∧ c ≠ chr '=' ∧ dst.length < max then
      (b2aAt c.toInt).bind fun v =>
        let byte := ((byte <<< 6) % 4294967296) ||| (v.toNat &&& 0x3f)
        let bits := bits + 6
        if 8 ≤ bits then
          decodeLoop max src byte (bits - 8) (dst ++ [BitVec.ofNat 8 (byte >>> (bits - 8))])
        else decodeLoop max src byte bits dst
    else some dst

/-- `tris_base64decode`; what is returned is the length. -/
def trisBase64decode (src : CString) (max : ℕ) : Option CString := decodeLoop max src 0 0 []

/-! ## Encoding -/

/-- The variables of the encoder: `cnt` is the length of what is written. -/
structure Enc where
  dst : CString := []
  col : ℕ := 0
  byte : ℕ := 0
  bits : ℕ := 0

/-- A byte is shifted in, and three of them go out. -/
def takeByte (max : ℕ) (e : Enc) (c : CChar) : Enc :=
  let byte := ((e.byte <<< 8) % 4294967296) ||| c.toNat
  let bits := e.bits + 8
  if bits = 24 ∧ e.dst.length + 4 ≤ max then
    ⟨e.dst ++ [base64At (byte >>> 18), base64At (byte >>> 12), base64At (byte >>> 6),
      base64At byte], e.col + 4, 0, 0⟩
  else { e with byte := byte, bits := bits }

/-- The line is broken behind 64 characters. -/
def breakLine (max : ℕ) (linebreaks : Bool) (e : Enc) : Enc :=
  if linebreaks ∧ e.dst.length < max ∧ e.col = 64 then
    { e with dst := e.dst ++ [chr '\n'], col := 0 }
  else e

/-- The loop of `tris_base64encode_full`. -/
def encodeLoop (max : ℕ) (linebreaks : Bool) : CString → Enc → Enc
  | [], e => e
  | c :: src, e =>
    if e.dst.length < max then
      encodeLoop max linebreaks src (breakLine max linebreaks (takeByte max e c))
    else e

/-- The remaining bits, and the last line break. -/
def encodeEnd (max : ℕ) (linebreaks : Bool) (e : Enc) : CString :=
  let byte := (e.byte <<< (24 - e.bits)) % 4294967296
  let dst :=
    if e.bits ≠ 0 ∧ e.dst.length + 4 ≤ max then
      e.dst ++ [base64At (byte >>> 18), base64At (byte >>> 12),
        if e.bits = 16 then base64At (byte >>> 6) else chr '=', chr '=']
    else e.dst
  if linebreaks ∧ dst.length < max then dst ++ [chr '\n'] else dst

/-- The characters of `tris_base64encode_full` before the NUL; what is returned
is their number. -/
def trisBase64encodeFull (src : CString) (max : ℕ) (linebreaks : Bool) : CString :=
  encodeEnd (max - 1) linebreaks (encodeLoop (max - 1) linebreaks src {})

/-- The bytes that are written. -/
def written (src : CString) (max : ℕ) (linebreaks : Bool) : CString :=
  trisBase64encodeFull src max linebreaks ++ [0]

end Base64

end Trismedia
