import Trismedia.Common.CInt
import Trismedia.Common.CString
/-!
# Numbers in strings

`atoi` and `strtol` as the modules use them on the values of a configuration
and of variables.
-/


namespace Trismedia

namespace Config

open CString

/-- `isspace` -/
def isspace (c : CChar) : Bool := c = 32 ∨ (9 ≤ c.toNat ∧ c.toNat ≤ 13)

/-- `isdigit` -/
def isdigit (c : CChar) : Bool := 48 ≤ c.toNat ∧ c.toNat ≤ 57

/-- The number that decimal digits write. -/
def digits (s : CString) : ℤ := s.foldl (fun n c => 10 * n + (c.toNat - 48)) 0

/-- `strtol` of a string that begins with a number, kept within a `long`. -/
def strtol (s : CString) : Option ℤ :=
  let number (s : CString) : Option ℤ :=
    if (s.takeWhile isdigit).isEmpty then none else some (digits (s.takeWhile isdigit))
  match s.dropWhile isspace with
  | [] => none
  | c :: s =>
    if c = chr '-' then (number s).map fun n => max (-n) (-9223372036854775808)
    else if c = chr '+' then (number s).map fun n => min n 9223372036854775807
    else (number (c :: s)).map fun n => min n 9223372036854775807

/-- `atoi` -/
def atoi (s : CString) : ℤ := CInt.wrapInt ((strtol s).getD 0)

end Config

end Trismedia
