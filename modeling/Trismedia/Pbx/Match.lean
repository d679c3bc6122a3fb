import Trismedia.Common.CString
/-!
# Matching an extension

`_extension_match_core` of `main/pbx.c`: an extension whose name starts
with `_` is a pattern, any other matches itself. In a pattern `N`, `X`,
`Z` and a set in brackets stand for one character, `.` for one or more
and `!` for none or more; `-` and a blank in it, and `-` in the data, are
skipped. The answer is 0 for no match, 1 for a match and 2 for an early
one.
-/


namespace Trismedia

namespace Pbx

open CString

/-- `enum ext_match_t` -/
inductive ExtMatch
  | eMatchmore
  | eCanmatch
  | eMatch
  | eSpawn
  | eFindlabel
  deriving DecidableEq, Repr

/-- `& E_MATCH_MASK` -/
def ExtMatch.mask : ExtMatch → ExtMatch
  | eSpawn => eMatch
  | eFindlabel => eMatch
  | mode => mode

/-- The character is in the set between the brackets. `char` is signed. -/
def inSet (d : CChar) : CString → Bool
  | a :: dash :: b :: rest =>
    if dash = chr '-' then
      (a.toInt ≤ d.toInt ∧ d.toInt ≤ b.toInt) || inSet d rest
    else
      d = a || inSet d (dash :: b :: rest)
  | a :: rest => d = a || inSet d rest
  | [] => false

/-- What is next in the pattern when the loop ends decides. -/
def matchEnd (mode : ExtMatch) (pattern data : CString) : ℕ :=
  if data ≠ [] then 0
  else if pattern = [] ∨ pattern.head? = some (chr '/') then
    if mode = .eMatchmore then 0 else 1
  else if pattern.head? = some (chr '!') then 2
  else if mode = .eMatch then 0 else 1

/-- The loop over a pattern, after its `_`. -/
def matchLoop (mode : ExtMatch) (pattern data : CString) : ℕ :=
  match pattern, data with
  | p :: ps, d :: ds =>
    if p = chr '/' then matchEnd mode (p :: ps) (d :: ds)
    else if d = chr '-' then matchLoop mode (p :: ps) ds
    else if toupper p = chr '[' then
      match _h : strchr (chr ']') ps with
      | none => 0
      | some (set, rest) => if inSet d set then matchLoop mode rest ds else 0
    else if toupper p = chr 'N' then
      if d.toInt < (chr '2').toInt ∨ d.toInt > (chr '9').toInt then 0 else matchLoop mode ps ds
    else if toupper p = chr 'X' then
      if d.toInt < (chr '0').toInt ∨ d.toInt > (chr '9').toInt then 0 else matchLoop mode ps ds
    else if toupper p = chr 'Z' then
      if d.toInt < (chr '1').toInt ∨ d.toInt > (chr '9').toInt then 0 else matchLoop mode ps ds
    else if toupper p = chr '.' then 1
    else if toupper p = chr '!' then 2
    else if toupper p = chr ' ' ∨ toupper p = chr '-' then matchLoop mode ps (d :: ds)
    else if d ≠ p then 0
    else matchLoop mode ps ds
  | pattern, data => matchEnd mode pattern data
termination_by pattern.length + data.length
decreasing_by
  all_goals simp only [List.length_cons]
  all_goals try omega
  have hlen := strchr_length _h
  omega

/-- `_extension_match_core` -/
def extensionMatchCore (pattern data : CString) (mode : ExtMatch) : ℕ :=
  let mode := mode.mask
  if mode = .eMatch ∧ pattern.head? = some (chr '_') ∧ strcaseEq pattern data then 1
  else if pattern.head? ≠ some (chr '_') then
    -- not a pattern, exact or partial match
    if pattern.length < data.length then 0
    else if mode = .eMatch then
      if pattern = data then 1 else 0
    else if data = [] ∨ strcaseEq (pattern.take data.length) data then
      if mode = .eMatchmore then
        if data.length < pattern.length then 1 else 0
      else 1
    else 0
  else matchLoop mode pattern.tail data

/-- `tris_extension_match` -/
def trisExtensionMatch (pattern data : CString) : ℕ := extensionMatchCore pattern data .eMatch

/-- `matchcid` -/
def matchcid (cidpattern : CString) (callerid : Option CString) : Bool :=
  if trisStrlenZero callerid then cidpattern.isEmpty
  else trisExtensionMatch cidpattern (callerid.getD []) ≠ 0

end Pbx

end Trismedia
