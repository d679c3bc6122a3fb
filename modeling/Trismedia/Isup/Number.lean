import Trismedia.Common.CString
import Trismedia.Isup.Model
/-!
# Numbers in parameters

How a number is put in a parameter, `channels/ss7/l4isup.c`, and read from one,
`channels/ss7/isup.c`: two digits in an octet, the first in the low half. What
is read is the digits up to an ST, `0xf`, at most as many as the parameter has
by its length and its odd bit.

A number is written over an array on the stack. The called party number counts
an ST whether or not one is written; with none, an octet that goes out may be
what the array held before.
-/


namespace Trismedia

namespace Isup

open Mtp2 CString

/-! ## Encoding -/

/-- `isup_phonenum_check`: the digits, and whether the number is international;
`none` is -1. -/
def isupPhonenumCheck : Option CString → Option (CString × Bool)
  | none => none
  | some number =>
    if number.length = 0 then none
    else if number.take 2 = str "00" then some (number.drop 2, true)
    else if number.take 1 = str "+" then some (number.drop 1, true)
    else some (number, false)

/-- The digit for a character. -/
def digitOf (c : CChar) : Option ℕ :=
  if (chr '0').toNat ≤ c.toNat ∧ c.toNat ≤ (chr '9').toNat then some (c.toNat - (chr '0').toNat)
  else if c = chr 'b' ∨ c = chr 'B' then some 0x0b
  else if c = chr 'c' ∨ c = chr 'C' then some 0x0c
  else if c = chr 'e' ∨ c = chr 'E' then some 0x0e
  else none

/-- The `i`-th digit goes into the array. -/
def putDigit (param : List Octet) (i d : ℕ) : List Octet :=
  if i % 2 = 0 then param.set (2 + i / 2) (UInt8.ofNat d)
  else
    let place := 2 + (i - 1) / 2
    param.set place (param.getD place 0 ||| UInt8.ofNat (d <<< 4))

/-- `isup_phonenum_digits`, from the `i`-th digit on. -/
def isupPhonenumDigits (addSt : Bool) : CString → ℕ → List Octet → Option (List Octet)
  | [], i, param => some (if addSt then putDigit param i 0xf else param)
  | c :: number, i, param =>
    (digitOf c).bind fun d => isupPhonenumDigits addSt number (i + 1) (putDigit param i d)

/-- What the three encoders share: `counted` is 1 if the length is for one digit
more, `second` the second octet, `param` the array before. -/
def phonenumEncode (isMd addSt : Bool) (counted : ℕ) (second : Octet) (number : Option CString)
    (param : List Octet) : Option (List Octet) :=
  (isupPhonenumCheck number).bind fun (digits, isInternational) =>
    let nlen := digits.length
    let isOdd := (nlen + counted) % 2
    let resultLen := 2 + (nlen + counted + 1) / 2
    let exNc := if isMd then 1 else 3
    if resultLen > param.length then none
    else
      let first := (isOdd <<< 7) ||| if isInternational then 4 else exNc
      (isupPhonenumDigits addSt digits 0 ((param.set 0 (UInt8.ofNat first)).set 1 second)).map
        (·.take resultLen)

/-- `isup_called_party_num_encode` -/
def isupCalledPartyNumEncode (isMd : Bool) (number : CString) (param : List Octet) :
    Option (List Octet) :=
  phonenumEncode isMd (!isMd) 1 0x10 (some number) param

/-- `isup_called_party_num_encode_no_st` -/
def isupCalledPartyNumEncodeNoSt (isMd : Bool) (number : CString) (param : List Octet) :
    Option (List Octet) :=
  phonenumEncode isMd false 0 0x10 (some number) param

/-- `isup_calling_party_num_encode` -/
def isupCallingPartyNumEncode (isMd : Bool) (number : Option CString) (presRestr : Bool) (si : Octet)
    (param : List Octet) : Option (List Octet) :=
  let second : Octet := 0x10 ||| si
  phonenumEncode isMd false 0 (if presRestr then second ||| (0x1 : Octet) <<< 2 else second) number
    param

/-! ## Decoding -/

/-- `PHONENUM_MAX` -/
def phonenumMax : ℕ := 20

/-- `struct isup_phonenum`, by default as `clear_isup_phonenum` leaves it. -/
structure IsupPhonenum where
  present : Bool := false
  restricted : Bool := false
  complete : Bool := false
  num : CString := []
  deriving DecidableEq

/-- `digits` -/
def digitChar (dig : ℕ) : CChar := (str "0123456789ABCDE.").getD dig 0

/-- The loop of the decoders from the octet `j` on, with `left` digits to go:
what it reads, and whether it comes to an ST. -/
def decodeDigits (p : List Octet) : ℕ → ℕ → CString × Bool
  | 0, _ => ([], false)
  | 1, j =>
    let dig := (p.getD j 0).toNat &&& 0x0f
    if dig = 0xf then ([], true) else ([digitChar dig], false)
  | left + 2, j =>
    let dig := (p.getD j 0).toNat &&& 0x0f
    let high := ((p.getD j 0).toNat >>> 4) &&& 0xf
    if dig = 0xf then ([], true)
    else if high = 0xf then ([digitChar dig], true)
    else
      let rest := decodeDigits p left (j + 1)
      (digitChar dig :: digitChar high :: rest.1, rest.2)

/-- `decode_isup_sni`; `none` is 0. -/
def decodeIsupSni (p : List Octet) (n : IsupPhonenum) : Option IsupPhonenum :=
  if p.length < 2 then none
  else
    let numDig := (p.length - 1) * 2 - if (p.getD 0 0).toNat &&& 0x80 ≠ 0 then 1 else 0
    let digits := decodeDigits p (min numDig phonenumMax) 1
    some { n with complete := n.complete || digits.2, num := digits.1 }

/-- `decode_isup_phonenum` -/
def decodeIsupPhonenum (withPresentationRestrict : Bool) (p : List Octet) :
    Option IsupPhonenum :=
  if p.length < 2 then none
  else
    let restrict := ((p.getD 1 0).toNat >>> 2) &&& 0x3
    let n : IsupPhonenum :=
      if withPresentationRestrict then
        if restrict = 1 then { present := true, restricted := true }
        else if restrict = 2 then { complete := true }
        else { present := true }
      else { present := true }
    if p.length = 2 then some n
    else
      let numDig := (p.length - 2) * 2 - if (p.getD 0 0).toNat &&& 0x80 ≠ 0 then 1 else 0
      let read (before : CString) (numDig : ℕ) : IsupPhonenum :=
        let digits := decodeDigits p (min numDig phonenumMax - before.length) 2
        { n with complete := n.complete || digits.2, num := before ++ digits.1 }
      let natureOfAdrInd := (p.getD 0 0).toNat &&& 0x7f
      if natureOfAdrInd = 0x70 ∨ natureOfAdrInd = 0x03 ∨ natureOfAdrInd = 0x01 then
        some (read [] numDig)
      else if natureOfAdrInd = 0x02 ∨ natureOfAdrInd = 0x04 then
        some (read (str "00") (numDig + 2))
      else none

end Isup

end Trismedia
