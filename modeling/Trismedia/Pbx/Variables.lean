import Trismedia.Config.Numbers
/-!
# Variables of a channel

How a variable is looked up and a part of its value is taken, `main/pbx.c`. A
name may have an offset and a length behind it, `V:offset:length`:
`parse_variable_name` cuts them off, and `substring` takes the part. `none` for
a text is a write outside the workspace; one of no octets has no text.
-/


namespace Trismedia

namespace Pbx

open CString CInt
open Config (isspace isdigit strtol)

/-! ## The name -/

/-- `%30d` of `sscanf`: the number, and what is behind it. -/
def scan30d (s : CString) : Option (ℤ × CString) :=
  let s := s.dropWhile isspace
  let field := s.take 30
  let sign := if field.head? = some (chr '-') ∨ field.head? = some (chr '+') then 1 else 0
  (strtol field).map fun n =>
    (wrapInt n, s.drop (sign + ((field.drop sign).takeWhile isdigit).length))

/-- `sscanf(var, "%30d:%30d", offset, length)` -/
def scanPart (s : CString) (offset length : ℤ) : ℤ × ℤ :=
  match scan30d s with
  | none => (offset, length)
  | some (o, rest) =>
    if rest.head? = some (chr ':') then
      match scan30d rest.tail with
      | none => (o, length)
      | some (l, _) => (o, l)
    else (o, length)

/-- The loop of `parse_variable_name`: what is before the first colon outside
parentheses, and what is behind it. -/
def splitName : CString → ℤ → Option (CString × CString)
  | [], _ => none
  | c :: s, parens =>
    if c = chr '(' then (splitName s (parens + 1)).map fun r => (c :: r.1, r.2)
    else if c = chr ')' then (splitName s (parens - 1)).map fun r => (c :: r.1, r.2)
    else if c = chr ':' ∧ parens = 0 then some ([], s)
    else (splitName s parens).map fun r => (c :: r.1, r.2)

/-- What `parse_variable_name` leaves of the name, stores and returns. -/
structure ParsedName where
  name : CString
  offset : ℤ
  length : ℤ
  isfunc : ℕ
  part : Bool

/-- `parse_variable_name` -/
def parseVariableName (var : CString) : ParsedName :=
  match splitName var 0 with
  | none => ⟨var, 0, intMax, var.count (chr '('), false⟩
  | some (name, rest) =>
    let scanned := scanPart rest 0 intMax
    ⟨name, scanned.1, scanned.2, name.count (chr '('), true⟩

/-! ## The part -/

/-- A NUL is written to the workspace, which has `size` octets, at `place`; what
is from `offset` on is `ret`. -/
def endAt (ret : CString) (offset place : ℤ) (size : ℕ) : Option CString :=
  if place < 0 ∨ (size : ℤ) ≤ place then none
  else some (if place < offset then ret else ret.take (place - offset).toNat)

/-- `substring` -/
def substring (value : CString) (offset length : ℤ) (workspaceLen : ℕ) : Option CString :=
  if workspaceLen = 0 then none
  else
    let ret := trisCopyString value workspaceLen
    let lr : ℤ := ret.length
    if offset = 0 ∧ length ≥ lr then some ret
    else
      let offset := if offset < 0 then (if lr + offset < 0 then 0 else lr + offset) else offset
      if offset ≥ lr then some []
      else
        let ret := ret.drop offset.toNat
        if length ≥ 0 ∧ length < lr - offset then endAt ret offset (offset + length) workspaceLen
        else if length < 0 then
          if lr > wrapInt (offset - length) then
            endAt ret offset (offset + (lr + length - offset)) workspaceLen
          else endAt ret offset offset workspaceLen
        else some ret

/-! ## The value -/

/-- `struct tris_var_t` -/
structure TrisVar where
  name : CString
  value : CString
  deriving DecidableEq

/-- `tris_var_name` -/
def trisVarName (v : TrisVar) : CString :=
  if v.name.head? = some (chr '_') then
    if v.name.tail.head? = some (chr '_') then v.name.tail.tail else v.name.tail
  else v.name

/-- What is read of a channel. The hints are what `tris_get_hint` finds for its
context and extension. -/
structure Channel where
  cidPres : ℤ
  cidAni2 : ℤ
  cidTon : ℤ
  cidTns : ℤ
  hint : Option CString
  hintname : Option CString
  exten : CString
  context : CString
  priority : ℤ
  name : CString
  uniqueid : CString
  hangupcause : ℤ
  varshead : List TrisVar

/-- What is read of the system. -/
structure System where
  epoch : ℕ
  systemName : CString
  eid : CString
  globals : List TrisVar

/-- `%d` of `snprintf` -/
def decimal (n : ℤ) : CString :=
  if n < 0 then chr '-' :: (Nat.toDigits 10 n.natAbs).map chr else (Nat.toDigits 10 n.natAbs).map chr

/-- The predefined variables of a channel; `some none` is one that has no value. -/
def channelVariable (c : Channel) (var : CString) : Option (Option CString) :=
  if var.take 4 = str "CALL" then
    if (var.drop 4).take 3 = str "ING" then
      if var.drop 7 = str "PRES" then some (some (decimal c.cidPres))
      else if var.drop 7 = str "ANI2" then some (some (decimal c.cidAni2))
      else if var.drop 7 = str "TON" then some (some (decimal c.cidTon))
      else if var.drop 7 = str "TNS" then some (some (decimal c.cidTns))
      else none
    else none
  else if var = str "HINT" then some c.hint
  else if var = str "HINTNAME" then some c.hintname
  else if var = str "EXTEN" then some (some c.exten)
  else if var = str "CONTEXT" then some (some c.context)
  else if var = str "PRIORITY" then some (some (decimal c.priority))
  else if var = str "CHANNEL" then some (some c.name)
  else if var = str "UNIQUEID" then some (some c.uniqueid)
  else if var = str "HANGUPCAUSE" then some (some (decimal c.hangupcause))
  else none

/-- Those of the system. -/
def systemVariable (sys : System) (var : CString) : Option (Option CString) :=
  if var = str "EPOCH" then some (some (decimal sys.epoch))
  else if var = str "SYSTEMNAME" then some (some sys.systemName)
  else if var = str "ENTITYID" then some (some sys.eid)
  else none

/-- The variable lists: that of the channel, or the one that is given, and the
global one. -/
def places (sys : System) (c : Option Channel) (headp : Option (List TrisVar)) :
    List (List TrisVar) :=
  (match c with
    | some c => [c.varshead]
    | none => headp.toList) ++ [sys.globals]

/-- A variable in a list. -/
def findVariable (var : CString) (vars : List TrisVar) : Option CString :=
  (vars.find? fun v => strcaseEq (trisVarName v) var).map TrisVar.value

/-- What is stored under a name. -/
def storedUnder (sys : System) (c : Option Channel) (headp : Option (List TrisVar))
    (var : CString) : Option CString :=
  (places sys c headp).findSome? (findVariable var)

/-- `s` behind the search: `none` is `&not_found`, `some none` is `NULL`. -/
def searchVariable (sys : System) (c : Option Channel) (headp : Option (List TrisVar))
    (var : CString) : Option (Option CString) :=
  (c.bind fun c => channelVariable c var).or
    ((systemVariable sys var).or ((storedUnder sys c headp var).map some))

/-- **`pbx_retrieve_variable`**: what `*ret` is, `some none` if it is `NULL`. -/
def pbxRetrieveVariable (sys : System) (c : Option Channel) (headp : Option (List TrisVar))
    (var : CString) (workspaceLen : ℕ) : Option (Option CString) :=
  let parsed := parseVariableName var
  match searchVariable sys c headp var with
  | none => some none
  | some none => some none
  | some (some s) =>
    if workspaceLen = 0 then none
    else
      let ret := trisCopyString s workspaceLen
      if parsed.part then (substring ret parsed.offset parsed.length workspaceLen).map some
      else some (some ret)

end Pbx

end Trismedia
