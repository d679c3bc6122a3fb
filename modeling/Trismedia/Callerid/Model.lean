import Mathlib.Algebra.GroupWithZero.Nat
import Mathlib.Algebra.Ring.Int.Defs
import Trismedia.Common.CString
/-!
# Caller ID on an analogue line

The message that `main/callerid.c` generates for a caller's number and name,
and what it reads from the bytes of a modem. Between the two is the FSK modem:
here the bytes that the one puts are the bytes that the other gets, and the
tones and marks around them are left out. A `char` is signed. A call that
copies a negative number of bytes is `none`.
-/


namespace Trismedia

namespace Callerid

open CString

/-- `CID_PRIVATE_NAME` -/
def cidPrivateName : BitVec 32 := 1
/-- `CID_PRIVATE_NUMBER` -/
def cidPrivateNumber : BitVec 32 := 2
/-- `CID_UNKNOWN_NAME` -/
def cidUnknownName : BitVec 32 := 4
/-- `CID_UNKNOWN_NUMBER` -/
def cidUnknownNumber : BitVec 32 := 8
/-- `CID_MSGWAITING` -/
def cidMsgwaiting : BitVec 32 := 16
/-- `CID_NOMSGWAITING` -/
def cidNomsgwaiting : BitVec 32 := 32

/-- A `char` with this value. -/
abbrev byte (n : ℕ) : CChar := BitVec.ofNat 8 n

/-! ## Generating a message -/

/-- The fields of `struct tris_tm` that are told. -/
structure Tm where
  mon : ℕ
  mday : ℕ
  hour : ℕ
  min : ℕ
  mon_lt : mon < 12
  mday_lt : mday < 32
  hour_lt : hour < 24
  min_lt : min < 60

/-- `%02d` of a number below 100. -/
def twoDigits (n : ℕ) : CString := [byte (48 + n / 10), byte (48 + n % 10)]

/-- The element for a number or name: `hidden` is the tag where it is not told,
`plain` where it is. -/
def genElement (plain hidden : ℕ) (value : Option CString) (isUnknown isPrivate : Bool) : CString :=
  if trisStrlenZero value || isUnknown then [byte hidden, byte 1, chr 'O']
  else if isPrivate then [byte hidden, byte 1, chr 'P']
  else
    let s := value.getD []
    let i := min s.length 16
    byte plain :: byte i :: s.take i

/-- **`callerid_genmsg`.** The message is never longer than 46 bytes, so that the
size of the buffer does not cut it. -/
def calleridGenmsg (tm : Tm) (number name : Option CString) (flags : BitVec 32) : CString :=
  [byte 1, byte 8] ++ twoDigits (tm.mon + 1) ++ twoDigits tm.mday ++ twoDigits tm.hour ++
    twoDigits tm.min ++
    genElement 2 4 number (flags &&& cidUnknownNumber ≠ 0) (flags &&& cidPrivateNumber ≠ 0) ++
    genElement 7 8 name (flags &&& cidUnknownName ≠ 0) (flags &&& cidPrivateName ≠ 0)

/-- `PUT_CLID`: the byte that is put for an `int`. -/
def putClid (n : ℤ) : ℕ := (n % 256).toNat

/-- **`callerid_generate`**, the bytes that are put. -/
def calleridGenerate (tm : Tm) (number name : Option CString) (flags : BitVec 32)
    (callwaiting : Bool) : List ℕ :=
  let msg := calleridGenmsg tm number name flags
  let len := msg.length
  let strlen := (msg.takeWhile (· ≠ 0)).length
  let sum : ℤ := 0x80 + strlen + (msg.map BitVec.toInt).sum
  (if callwaiting then [] else List.replicate 30 0x55) ++
    [0x80, putClid len] ++ msg.map (fun c => putClid c.toInt) ++ [putClid (256 - sum % 256)]

/-! ## Reading a message -/

/-- `struct callerid_state`, but for the modem. -/
structure CalleridState where
  rawdata : ℕ → CChar
  pos : ℕ
  typ : ℕ
  cksum : ℕ
  name : CString
  number : CString
  flags : BitVec 32
  sawflag : ℕ
  len : ℤ

/-- `callerid_new` -/
def calleridNew : CalleridState where
  rawdata _ := 0
  pos := 0
  typ := 0
  cksum := 0
  name := []
  number := []
  flags := cidUnknownName ||| cidUnknownNumber
  sawflag := 0
  len := 0

/-- `memcpy` of `n` bytes from `rawdata + x`, which are ended and read as a string. -/
def CalleridState.text (cid : CalleridState) (x n : ℕ) : CString :=
  ((List.range n).map fun k => cid.rawdata (x + k)).takeWhile (· ≠ 0)

/-- What one element says; its length is at `x`. -/
def element (cid : CalleridState) (tag : ℕ) (x : ℕ) : Option CalleridState :=
  let res := min (cid.rawdata x).toInt 32
  if tag = 2 ∨ tag = 3 ∨ tag = 4 then
    if cid.number.isEmpty then
      if res < 0 then none else some { cid with number := cid.text (x + 1) res.toNat }
    else some cid
  else if tag = 7 ∨ tag = 8 then
    if res < 0 then none else some { cid with name := cid.text (x + 1) res.toNat }
  else if tag = 11 then
    some { cid with flags := cid.flags |||
      (if cid.rawdata (x + 1) ≠ 0 then cidMsgwaiting else cidNomsgwaiting) }
  else some cid

/-- `for (x = 0; x < cid->pos;)` -/
def elements (cid : CalleridState) (x : ℕ) : Option CalleridState :=
  if x < cid.pos then
    match _h : element cid (cid.rawdata x).toNat (x + 1) with
    | none => none
    | some cid' =>
      let res := (cid.rawdata (x + 1)).toInt
      if res < 0 then some { cid' with sawflag := 0 }
      else elements { cid' with pos := cid.pos } (x + 1 + res.toNat + 1)
  else some cid
termination_by cid.pos - x

/-- A number or name that is not told is taken out, and flagged. -/
def flagged (text : CString) (isPrivate isUnknown : BitVec 32) : CString × BitVec 32 :=
  if text = str "P" then ([], isPrivate)
  else if text = str "O" ∨ text = [] then ([], isUnknown)
  else (text, 0)

/-- What is done with a message whose checksum is right. -/
def readMessage (cid : CalleridState) : Option CalleridState := do
  let cid := { cid with number := [], name := [], flags := 0 }
  let cid ←
    if cid.typ = 0x80 ∨ cid.typ = 0x82 then elements cid 0
    else if cid.typ = 0x6 then
      if cid.rawdata 2 = byte 0x42 then some { cid with flags := cid.flags ||| cidMsgwaiting }
      else if cid.rawdata 2 = byte 0x6f then
        some { cid with flags := cid.flags ||| cidNomsgwaiting }
      else some cid
    else some { cid with number := trisCopyString (cid.text 8 64) 64 }
  let (number, numberFlag) := flagged cid.number cidPrivateNumber cidUnknownNumber
  let (name, nameFlag) := flagged cid.name cidPrivateName cidUnknownName
  some { cid with number, name, flags := cid.flags ||| numberFlag ||| nameFlag }

/-- One byte from the modem: the state, and what `callerid_feed` returns, where 0
is to go on. -/
def feedByte (cid : CalleridState) (b : ℕ) : Option (CalleridState × ℤ) :=
  match cid.sawflag with
  | 0 => some (if b = 0x55 then { cid with sawflag := 2 } else cid, 0)
  | 2 =>
    some (if b = 0x04 ∨ b = 0x80 ∨ b = 0x06 ∨ b = 0x82 then
      { cid with typ := b, sawflag := 3, cksum := b } else cid, 0)
  | 3 => some ({ cid with sawflag := 4, len := b, pos := 0, cksum := cid.cksum + b }, 0)
  | 4 =>
    if 128 ≤ cid.pos then some (cid, -1)
    else
      let rawdata (i : ℕ) : CChar := if i = cid.pos then byte b else cid.rawdata i
      let cid := { cid with
        rawdata, pos := cid.pos + 1, len := cid.len - 1, cksum := cid.cksum + b }
      if cid.len = 0 then
        let rawdata (i : ℕ) : CChar := if i = cid.pos then 0 else cid.rawdata i
        some ({ cid with rawdata, sawflag := 5 }, 0)
      else some (cid, 0)
  | 5 =>
    if b ≠ 256 - cid.cksum % 256 then some ({ cid with sawflag := 0 }, 0)
    else (readMessage cid).map fun cid => (cid, 1)
  | _ => some (cid, 0)

/-- **`callerid_feed`** of the bytes that the modem makes of what it is given. -/
def calleridFeed (cid : CalleridState) : List ℕ → Option (CalleridState × ℤ)
  | [] => some (cid, 0)
  | b :: bs =>
    if 0xff < b then calleridFeed cid bs
    else
      match feedByte cid b with
      | none => none
      | some (cid, res) => if res = 0 then calleridFeed cid bs else some (cid, res)

/-- **`callerid_get`**: name, number and flags. -/
def calleridGet (cid : CalleridState) : Option CString × Option CString × BitVec 32 :=
  (if cid.flags &&& (cidUnknownName ||| cidPrivateName) ≠ 0 then none else some cid.name,
    if cid.flags &&& (cidUnknownNumber ||| cidPrivateNumber) ≠ 0 then none else some cid.number,
    cid.flags)

end Callerid

end Trismedia
