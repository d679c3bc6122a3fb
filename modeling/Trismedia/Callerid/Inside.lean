import Mathlib.Data.List.Induction
import Mathlib.Logic.Function.Iterate
import Trismedia.Callerid.Model
/-!
# Caller ID — what is read and written

`callerid_feed` and `callerid_feed_jp` of `main/callerid.c` once more, with the
bounds of `rawdata`, `number` and `name`: an access behind them, or a loop over
elements with more rounds than `rawdata` has bytes, is `none`. An octet is what
the modem delivers. The memory of `oldstuff` and the samples are left out.
-/


namespace Trismedia

namespace Callerid

namespace Inside

open CString

/-! ## The memory -/

/-- `struct callerid_state`, but for the modem. -/
structure State extends CalleridState where
  skipflag : Bool
  crc : BitVec 16

/-- `callerid_new` -/
def calleridNew : State := { Callerid.calleridNew with skipflag := false, crc := 0 }

/-- `sizeof(cid->rawdata)`, and `sizeof(cid->number)` and `sizeof(cid->name)`. -/
def rawdataSize : ℕ := 256

def textSize : ℕ := 64

/-- `cid->rawdata[i]` is read. -/
def State.raw (cid : State) (i : ℤ) : Option CChar :=
  if 0 ≤ i ∧ i < rawdataSize then some (cid.rawdata i.toNat) else none

/-- It is written. -/
def State.setRaw (cid : State) (i : ℕ) (c : CChar) : Option State :=
  if i < rawdataSize then some { cid with rawdata := Function.update cid.rawdata i c } else none

/-- `memcpy(text, cid->rawdata + x, res)` and `text[res] = '\0'`, for a `number` or
`name`; a negative size is a huge one. -/
def State.memcpy (cid : State) (x res : ℤ) : Option CString :=
  if 0 ≤ res ∧ 0 ≤ x ∧ x + res ≤ rawdataSize ∧ res < textSize then
    some (cid.text x.toNat res.toNat)
  else none

/-- The loop of `tris_copy_string`. -/
def State.copyLoop (cid : State) : ℕ → ℤ → Option CString
  | 0, src => (cid.raw src).map fun _ => []
  | size + 1, src =>
    (cid.raw src).bind fun c =>
      if c = 0 then some [] else (State.copyLoop cid size (src + 1)).map fun s => c :: s

/-- `tris_copy_string(text, &cid->rawdata[src], size)`, for a `number` or `name`. -/
def State.copyString (cid : State) (src : ℤ) (size : ℕ) : Option CString :=
  (cid.copyLoop size src).bind fun s =>
    if s.length = size then if size = 0 ∨ textSize < size then none else some s.dropLast
    else if s.length < textSize then some s
    else none

/-! ## `callerid_feed` -/

/-- What one element says; its length is at `x`. -/
def element (cid : State) (tag : CChar) (x : ℤ) : Option State :=
  if tag = 2 ∨ tag = 3 ∨ tag = 4 then
    (cid.raw x).bind fun l =>
      if cid.number.isEmpty then
        (cid.memcpy (x + 1) (min l.toInt 32)).map fun s => { cid with number := s }
      else some cid
  else if tag = 7 ∨ tag = 8 then
    (cid.raw x).bind fun l =>
      (cid.memcpy (x + 1) (min l.toInt 32)).map fun s => { cid with name := s }
  else if tag = 11 then
    (cid.raw (x + 1)).map fun (res : CChar) => { cid with flags := cid.flags |||
      (if res ≠ 0 then cidMsgwaiting else cidNomsgwaiting) }
  else some cid

/-- `for (x = 0; x < cid->pos;)` -/
def elements : ℕ → State → ℤ → Option State
  | 0, _, _ => none
  | fuel + 1, cid, x =>
    if x < cid.pos then
      (cid.raw x).bind fun tag =>
        (element cid tag (x + 1)).bind fun cid =>
          (cid.raw (x + 1)).bind fun res =>
            if res.toInt < 0 then some { cid with sawflag := 0 }
            else elements fuel cid (x + 1 + res.toInt + 1)
    else some cid

/-- A message whose checksum is right. -/
def readMessage (cid : State) : Option State :=
  let cid := { cid with number := [], name := [], flags := 0 }
  (if cid.typ = 0x80 ∨ cid.typ = 0x82 then elements (rawdataSize + 1) cid 0
  else if cid.typ = 0x6 then
    (cid.raw 2).map fun c =>
      if c = byte 0x42 then { cid with flags := cid.flags ||| cidMsgwaiting }
      else if c = byte 0x6f then { cid with flags := cid.flags ||| cidNomsgwaiting }
      else cid
  else (cid.copyString 8 textSize).map fun s => { cid with number := s }).map fun cid =>
    let (number, numberFlag) := flagged cid.number cidPrivateNumber cidUnknownNumber
    let (name, nameFlag) := flagged cid.name cidPrivateName cidUnknownName
    { cid with number, name, flags := cid.flags ||| numberFlag ||| nameFlag }

/-- **`callerid_feed`**, an octet from the modem, with what is returned, where 0 is
to go on. -/
def feedOctet (cid : State) (o : BitVec 8) : Option (State × ℤ) :=
  let b := o.toNat
  match cid.sawflag with
  | 0 => some (if b = 0x55 then { cid with sawflag := 2 } else cid, 0)
  | 2 =>
    some (if b = 0x04 ∨ b = 0x80 ∨ b = 0x06 ∨ b = 0x82 then
      { cid with typ := b, sawflag := 3, cksum := b } else cid, 0)
  | 3 => some ({ cid with sawflag := 4, len := b, pos := 0, cksum := cid.cksum + b }, 0)
  | 4 =>
    if 128 ≤ cid.pos then some (cid, -1)
    else
      (cid.setRaw cid.pos o).bind fun cid =>
        let cid := { cid with pos := cid.pos + 1, len := cid.len - 1, cksum := cid.cksum + b }
        if cid.len = 0 then
          (cid.setRaw cid.pos 0).map fun cid => ({ cid with sawflag := 5 }, 0)
        else some (cid, 0)
  | 5 =>
    if b ≠ 256 - cid.cksum % 256 then some ({ cid with sawflag := 0 }, 0)
    else (readMessage cid).map fun cid => (cid, 1)
  | _ => some (cid, 0)

/-! ## `callerid_feed_jp` -/

/-- `calc_crc` -/
def calcCrc (crc : BitVec 16) (data : BitVec 8) : BitVec 16 :=
  (fun crc => if crc.msb then (crc <<< 1) ^^^ 0x1021 else crc <<< 1)^[8]
    (crc ^^^ (data.reverse.setWidth 16 <<< 8))

/-- `CID_UNKNOWN_NUMBER` is noted for a reason that is told. -/
def reasons : CString := str "POCS"

/-- What one element says, with what is behind its tag at `x`, and where the next
one is. -/
def elementJp (cid : State) (tag : CChar) (x : ℤ) : Option (State × ℤ) :=
  if tag = 0x02 then
    (cid.raw x).bind fun res =>
      (cid.copyString (x + 1) ((res.toInt + 1) % 2 ^ 64).toNat).map fun s =>
        ({ cid with number := s, name := [], flags := 0 }, x + 1 + res.toInt)
  else if tag = 0x21 ∨ tag = 0x22 then
    (cid.raw (x + 1)).bind fun _ => (cid.raw (x + 3)).map fun _ => (cid, x + 4)
  else if tag = 0x04 then
    (cid.raw (x + 1)).map fun c =>
      (if c ∈ reasons then { cid with flags := cid.flags ||| cidUnknownNumber } else cid, x + 2)
  else if tag = 0x09 then (cid.raw x).map fun res => (cid, x + 1 + res.toInt)
  else some (cid, x)

/-- `for (x = 0; x < cid->pos;)` -/
def elementsJp : ℕ → State → ℤ → Option State
  | 0, _, _ => none
  | fuel + 1, cid, x =>
    if x < cid.pos then
      (cid.raw x).bind fun tag =>
        (elementJp cid tag (x + 1)).bind fun r => elementsJp fuel r.1 r.2
    else some cid

/-- The switch on `sawflag`, for an octet without its parity. -/
def sawOctetJp (cid : State) (b : ℕ) : Option (State × ℤ) :=
  match cid.sawflag with
  | 0 =>
    some (if b = 0x10 then { cid with sawflag := 1, skipflag := false, crc := 0 } else cid, 0)
  | 1 => some (if b = 0x01 then { cid with sawflag := 2 } else cid, 0)
  | 2 => some (if b = 0x07 then { cid with sawflag := 3 } else cid, 0)
  | 3 => some (if b = 0x02 then { cid with sawflag := 4 } else cid, 0)
  | 4 => some (if b = 0x40 then { cid with sawflag := 5 } else cid, 0)
  | 5 => some ({ cid with sawflag := 6 }, 0)
  | 6 => (cid.setRaw 0 (byte b)).map fun cid => ({ cid with sawflag := 7, pos := 1 }, 0)
  | 7 =>
    if b + 2 ≥ rawdataSize then some ({ cid with sawflag := 8, len := b }, -1)
    else
      (cid.setRaw cid.pos (byte b)).map fun cid =>
        ({ cid with sawflag := 8, len := b, pos := cid.pos + 1 }, 0)
  | 8 =>
    (cid.setRaw cid.pos (byte b)).bind fun cid =>
      let cid := { cid with pos := cid.pos + 1, len := cid.len - 1 }
      if cid.len ≤ 0 then (cid.setRaw cid.pos 0).map fun cid => ({ cid with sawflag := 9 }, 0)
      else some (cid, 0)
  | 9 => some ({ cid with sawflag := 10 }, 0)
  | 10 => some ({ cid with sawflag := 11 }, 0)
  | 11 =>
    let cid := { cid with sawflag := 12 }
    if cid.crc ≠ 0 then some (cid, -1)
    else (elementsJp (rawdataSize + 1) cid 0).map fun cid => (cid, 1)
  | _ => some (cid, 0)

/-- **`callerid_feed_jp`**, an octet from the modem, with what is returned, where 0
is to go on. -/
def feedOctetJp (cid : State) (o : BitVec 8) : Option (State × ℤ) :=
  let b := o.toNat % 128
  let cid := if cid.sawflag > 1 then { cid with crc := calcCrc cid.crc o } else cid
  if 0 < cid.sawflag ∧ cid.sawflag ≠ 5 ∧ cid.skipflag = false ∧ b = 0x10 then
    some ({ cid with skipflag := true }, 0)
  else sawOctetJp { cid with skipflag := false } b

/-! ## What is asked of them -/

/-- The octets are fed, whatever is returned. -/
def feedAll (feed : State → BitVec 8 → Option (State × ℤ)) (os : List (BitVec 8)) : Option State :=
  os.foldlM (fun cid o => (feed cid o).map Prod.fst) calleridNew

/-- **The octets stay inside**: all that is read and written is in bounds, and the
loops end. -/
def StaysInside (feed : State → BitVec 8 → Option (State × ℤ)) (os : List (BitVec 8)) : Prop :=
  (feedAll feed os).isSome = true

/-- A property of every octet and the state it comes in. -/
def EveryOctet (feed : State → BitVec 8 → Option (State × ℤ)) (C : State → BitVec 8 → Prop)
    (os : List (BitVec 8)) : Prop :=
  ∀ os' o cid, os' ++ [o] <+: os → feedAll feed os' = some cid → C cid o

/-- The offsets of the elements of a message, up to one of negative length. -/
def offsets (rawdata : ℕ → CChar) (pos : ℕ) : ℕ → ℕ → List ℕ
  | 0, _ => []
  | fuel + 1, x =>
    if x < pos then
      x :: (if (rawdata (x + 1)).toInt < 0 then []
        else offsets rawdata pos fuel (x + 1 + (rawdata (x + 1)).toNat + 1))
    else []

def isNumber (tag : CChar) : Prop := tag = 2 ∨ tag = 3 ∨ tag = 4

def isName (tag : CChar) : Prop := tag = 7 ∨ tag = 8

instance : DecidablePred isNumber := fun _ => inferInstanceAs (Decidable (_ ∨ _ ∨ _))

instance : DecidablePred isName := fun _ => inferInstanceAs (Decidable (_ ∨ _))

/-- **An element of negative length is not copied**: it is no name, and no number
unless one was told. -/
def Copyable (rawdata : ℕ → CChar) : Bool → List ℕ → Prop
  | _, [] => True
  | told, x :: xs =>
    ((rawdata (x + 1)).toInt < 0 →
      ¬ isName (rawdata x) ∧ (isNumber (rawdata x) → told = true)) ∧
    Copyable rawdata (told || decide (isNumber (rawdata x) ∧ rawdata (x + 1) ≠ 0 ∧
      rawdata (x + 2) ≠ 0)) xs

/-- **An octet that completes no message, or one that can be copied.** -/
def Fair (cid : State) (o : BitVec 8) : Prop :=
  cid.sawflag = 5 → o.toNat = 256 - cid.cksum % 256 → cid.typ = 0x80 ∨ cid.typ = 0x82 →
    Copyable cid.rawdata false (offsets cid.rawdata cid.pos cid.pos 0)

/-- Where the next element is, by the tag. -/
def nextJp (rawdata : ℕ → CChar) (x : ℕ) : ℕ :=
  if rawdata x = 0x02 ∨ rawdata x = 0x09 then x + 2 + (rawdata (x + 1)).toNat
  else if rawdata x = 0x21 ∨ rawdata x = 0x22 then x + 5
  else if rawdata x = 0x04 then x + 3
  else x + 1

/-- The offsets of the elements of a message. -/
def offsetsJp (rawdata : ℕ → CChar) (pos : ℕ) : ℕ → ℕ → List ℕ
  | 0, _ => []
  | fuel + 1, x =>
    if x < pos then x :: offsetsJp rawdata pos fuel (nextJp rawdata x) else []

/-- A number of 64 characters at least, none of them a NUL. -/
def TooLong (rawdata : ℕ → CChar) (x : ℕ) : Prop :=
  rawdata x = 0x02 ∧ textSize ≤ (rawdata (x + 1)).toNat ∧
    ∀ i < textSize, rawdata (x + 2 + i) ≠ 0

/-- **An octet that completes no message, or one without such a number.** -/
def FairJp (cid : State) (o : BitVec 8) : Prop :=
  cid.sawflag = 11 → calcCrc cid.crc o = 0 →
    ¬ (cid.skipflag = false ∧ o.toNat % 128 = 0x10) →
      ∀ x ∈ offsetsJp cid.rawdata cid.pos cid.pos 0, ¬ TooLong cid.rawdata x

variable {cid cid' : State} {o : BitVec 8} {os : List (BitVec 8)} {x n size fuel : ℕ}
variable {feed : State → BitVec 8 → Option (State × ℤ)} {I : State → Prop}
variable {C : State → BitVec 8 → Prop} {l : CChar}

/-! ## Octet by octet -/

/-- **From an octet to all of them**: `I` holds of what is reached. -/
theorem staysInside_iff (h0 : I calleridNew)
    (hI : ∀ cid o cid', I cid → (feed cid o).map Prod.fst = some cid' → I cid')
    (hC : ∀ cid o, I cid → ((feed cid o).isSome = true ↔ C cid o)) (os : List (BitVec 8)) :
    StaysInside feed os ↔ EveryOctet feed C os := by
  have hall : (∀ cid, feedAll feed os = some cid → I cid) ∧
      (StaysInside feed os ↔ EveryOctet feed C os) := by
    unfold StaysInside
    induction os using List.reverseRecOn with
    | nil =>
      refine ⟨fun cid h => Option.some.inj h ▸ h0, iff_of_true rfl fun os' o cid hpre _ => ?_⟩
      exact absurd (List.prefix_nil.1 hpre) (List.append_ne_nil_of_right_ne_nil _ (List.cons_ne_nil o []))
    | append_singleton os o ih =>
      obtain ⟨hinv, hiff⟩ := ih
      have hstep : feedAll feed (os ++ [o]) =
          (feedAll feed os).bind fun cid => (feed cid o).map Prod.fst := by
        unfold feedAll
        rw [List.foldlM_append]
        refine congrArg _ (funext fun cid => ?_)
        rw [List.foldlM_cons]
        exact bind_pure _
      rw [hstep]
      constructor
      · intro cid hcid
        obtain ⟨mid, hmid, hlast⟩ := Option.bind_eq_some_iff.1 hcid
        exact hI mid o cid (hinv mid hmid) hlast
      · constructor
        · intro h os' o' cid hpre hcid
          obtain ⟨cid', hcid'⟩ := Option.isSome_iff_exists.1 h
          obtain ⟨mid, hmid, hlast⟩ := Option.bind_eq_some_iff.1 hcid'
          rcases List.prefix_concat_iff.1 hpre with heq | hpre
          · obtain ⟨rfl, ho⟩ := List.append_inj' heq rfl
            obtain rfl := List.head_eq_of_cons_eq ho
            rw [hmid] at hcid
            obtain rfl := Option.some.inj hcid
            obtain ⟨r, hr, -⟩ := Option.map_eq_some_iff.1 hlast
            exact (hC mid o' (hinv mid hmid)).1 (by rw [hr]; exact rfl)
          · exact hiff.1 (by rw [hmid]; exact rfl) os' o' cid hpre hcid
        · intro h
          have hbefore : EveryOctet feed C os := fun os' o' cid hpre hcid =>
            h os' o' cid (hpre.trans (List.prefix_append os [o])) hcid
          obtain ⟨mid, hmid⟩ := Option.isSome_iff_exists.1 (hiff.2 hbefore)
          have hlast := (hC mid o (hinv mid hmid)).2 (h os o mid (List.prefix_refl _) hmid)
          rw [hmid, Option.bind_some, Option.isSome_map]
          exact hlast
  exact hall.2

/-! ## Reading -/

theorem State.raw_of_lt (cid : State) (h : x < 256) : cid.raw x = some (cid.rawdata x) := by
  unfold State.raw rawdataSize
  rw [if_pos ⟨Int.natCast_nonneg x, by omega⟩, Int.toNat_natCast]

theorem toInt_of_lt (h : l.toNat < 128) : l.toInt = l.toNat := by
  rw [BitVec.toInt_eq_toNat_cond]
  split_ifs <;> omega

theorem toInt_nonneg_iff : 0 ≤ l.toInt ↔ l.toNat < 128 := by
  have hlt := l.isLt
  rw [BitVec.toInt_eq_toNat_cond]
  split_ifs <;> omega

/-- **What `tris_copy_string` takes**: up to `size` characters, none of them a
NUL, and fewer only in front of one. -/
theorem State.copyLoop_spec (cid : State) : ∀ (size x : ℕ),
    (x + size < 256 ∨ ∃ z, x ≤ z ∧ z < 256 ∧ cid.rawdata z = 0) →
      ∃ s, cid.copyLoop size x = some s ∧ s.length ≤ size ∧
        (∀ i < s.length, cid.rawdata (x + i) ≠ 0) ∧
          (s.length < size → cid.rawdata (x + s.length) = 0) := by
  intro size
  induction size with
  | zero =>
    intro x h
    have hx : x < 256 := by
      rcases h with h | ⟨z, hle, hlt, -⟩
      · omega
      · omega
    refine ⟨[], ?_, Nat.le_refl _, fun i hi => absurd hi (Nat.not_lt_zero i),
      fun h => absurd h (Nat.lt_irrefl _)⟩
    rw [State.copyLoop, cid.raw_of_lt hx, Option.map_some]
  | succ size ih =>
    intro x h
    have hx : x < 256 := by
      rcases h with h | ⟨z, hle, hlt, -⟩
      · omega
      · omega
    rw [State.copyLoop, cid.raw_of_lt hx, Option.bind_some]
    by_cases hnul : cid.rawdata x = 0
    · rw [if_pos hnul]
      refine ⟨[], rfl, Nat.zero_le _, fun i hi => absurd hi (Nat.not_lt_zero i), fun _ => hnul⟩
    · rw [if_neg hnul]
      obtain ⟨s, hs, hlen, hall, hend⟩ := ih (x + 1) (by
        rcases h with h | ⟨z, hle, hlt, hz⟩
        · exact Or.inl (by omega)
        · refine Or.inr ⟨z, ?_, hlt, hz⟩
          rcases Nat.lt_or_eq_of_le hle with hlt' | rfl
          · exact hlt'
          · exact absurd hz hnul)
      refine ⟨cid.rawdata x :: s, ?_, Nat.succ_le_succ hlen, fun i hi => ?_, fun hlt => ?_⟩
      · have hcast : ((x : ℤ) + 1) = ((x + 1 : ℕ) : ℤ) := rfl
        rw [hcast, hs, Option.map_some]
      · rcases i with _ | i
        · exact hnul
        · have := hall i (Nat.lt_of_succ_lt_succ hi)
          rwa [Nat.add_assoc, Nat.add_comm 1 i] at this
      · have := hend (Nat.lt_of_succ_lt_succ hlt)
        rwa [Nat.add_assoc, Nat.add_comm 1 s.length] at this

/-- A field is copied where what is taken fits. -/
theorem State.copyString_isSome_iff {s : CString} (hs : cid.copyLoop size x = some s)
    (hlen : s.length ≤ size) (hsize : 0 < size) :
    (cid.copyString x size).isSome = true ↔ size ≤ 64 ∨ s.length < 64 := by
  unfold State.copyString textSize
  rw [hs, Option.bind_some]
  split_ifs with hall hover hfit
  · exact iff_of_false Bool.false_ne_true (by omega)
  · exact iff_of_true rfl (by omega)
  · exact iff_of_true rfl (by omega)
  · exact iff_of_false Bool.false_ne_true (by omega)


/-! ## `callerid_feed` -/

theorem text_isEmpty_iff (cid : CalleridState) :
    (cid.text x n).isEmpty = true ↔ n = 0 ∨ cid.rawdata x = 0 := by
  unfold CalleridState.text
  rcases n with _ | n
  · exact iff_of_true rfl (Or.inl rfl)
  · rw [List.range_succ_eq_map, List.map_cons, Nat.add_zero, or_iff_right (Nat.succ_ne_zero n)]
    by_cases h : cid.rawdata x = 0
    · rw [List.takeWhile_cons, if_neg (by rw [h]; decide)]
      exact iff_of_true rfl h
    · rw [List.takeWhile_cons, if_pos (decide_eq_true h)]
      exact iff_of_false Bool.false_ne_true h

/-- **A text that is copied**, with its length at `x`. -/
theorem State.memcpy_spec (cid : State) (h : x ≤ 128) :
    (0 ≤ (cid.rawdata x).toInt → ∃ s, cid.memcpy (x + 1) (min (cid.rawdata x).toInt 32) = some s ∧
      (s.isEmpty = true ↔ cid.rawdata x = 0 ∨ cid.rawdata (x + 1) = 0)) ∧
    ((cid.rawdata x).toInt < 0 → cid.memcpy (x + 1) (min (cid.rawdata x).toInt 32) = none) := by
  unfold State.memcpy rawdataSize textSize
  constructor
  · intro hpos
    refine ⟨_, if_pos ⟨by omega, by omega, by omega, by omega⟩, ?_⟩
    rw [text_isEmpty_iff]
    have hzero : (min (cid.rawdata x).toInt 32).toNat = 0 ↔ cid.rawdata x = 0 := by
      have hint := toInt_of_lt (toInt_nonneg_iff.1 hpos)
      rw [hint]
      constructor
      · intro h
        exact BitVec.eq_of_toNat_eq (show (cid.rawdata x).toNat = 0 by omega)
      · intro h
        rw [h]
        decide
    rw [hzero]
    exact Iff.rfl
  · intro hneg
    exact if_neg fun h => by omega

/-- What a number element leaves of whether a number was told. -/
def tellsNumber (rawdata : ℕ → CChar) (x : ℕ) : Prop :=
  isNumber (rawdata x) ∧ rawdata (x + 1) ≠ 0 ∧ rawdata (x + 2) ≠ 0

/-- **An element**, with its tag at `x`. -/
theorem element_spec (cid : State) (h : x < 128) :
    (((cid.rawdata (x + 1)).toInt < 0 → ¬ isName (cid.rawdata x) ∧
        (isNumber (cid.rawdata x) → cid.number.isEmpty = false)) →
      ∃ cid', element cid (cid.rawdata x) (x + 1) = some cid' ∧ cid'.rawdata = cid.rawdata ∧
        cid'.pos = cid.pos ∧ cid'.sawflag = cid.sawflag ∧
          (0 ≤ (cid.rawdata (x + 1)).toInt → (cid'.number.isEmpty = false ↔
            cid.number.isEmpty = false ∨ tellsNumber cid.rawdata x))) ∧
    (¬ ((cid.rawdata (x + 1)).toInt < 0 → ¬ isName (cid.rawdata x) ∧
        (isNumber (cid.rawdata x) → cid.number.isEmpty = false)) →
      element cid (cid.rawdata x) (x + 1) = none) := by
  have hread : cid.raw ((x : ℤ) + 1) = some (cid.rawdata (x + 1)) :=
    cid.raw_of_lt (show x + 1 < 256 by omega)
  obtain ⟨hcopy, hover⟩ := @State.memcpy_spec (x + 1) cid (by omega)
  rw [show ((x + 1 : ℕ) : ℤ) = (x : ℤ) + 1 from rfl] at hcopy hover
  unfold element
  by_cases hnumber : isNumber (cid.rawdata x)
  · have hname : ¬ isName (cid.rawdata x) := by
      rintro (hn | hn)
      · rw [hn] at hnumber
        exact absurd hnumber (by decide)
      · rw [hn] at hnumber
        exact absurd hnumber (by decide)
    rw [if_pos (show _ ∨ _ ∨ _ from hnumber), hread, Option.bind_some]
    by_cases hempty : cid.number.isEmpty = true
    · rw [if_pos hempty]
      by_cases hneg : (cid.rawdata (x + 1)).toInt < 0
      · rw [hover hneg, Option.map_none]
        exact ⟨fun hc => absurd ((hc hneg).2 hnumber) (by rw [hempty]; exact Bool.noConfusion),
          fun _ => rfl⟩
      · obtain ⟨s, hs, hiff⟩ := hcopy (by omega)
        rw [hs, Option.map_some]
        refine ⟨fun _ => ⟨_, rfl, rfl, rfl, rfl, fun _ => ?_⟩, fun hc => absurd (fun h => absurd h hneg) hc⟩
        rw [hempty, or_iff_right Bool.noConfusion]
        show s.isEmpty = false ↔ _
        rw [← Bool.not_eq_true, hiff]
        unfold tellsNumber
        rw [and_iff_right hnumber, not_or]
    · rw [if_neg hempty]
      rw [Bool.not_eq_true] at hempty
      refine ⟨fun _ => ⟨cid, rfl, rfl, rfl, rfl, fun _ => ?_⟩,
        fun hc => absurd (fun _ => ⟨hname, fun _ => hempty⟩) hc⟩
      exact iff_of_true hempty (Or.inl hempty)
  · have htells : ¬ tellsNumber cid.rawdata x := fun h => hnumber h.1
    rw [if_neg (show ¬ (_ ∨ _ ∨ _) from hnumber)]
    by_cases hname : isName (cid.rawdata x)
    · rw [if_pos (show _ ∨ _ from hname), hread, Option.bind_some]
      by_cases hneg : (cid.rawdata (x + 1)).toInt < 0
      · rw [hover hneg, Option.map_none]
        exact ⟨fun hc => absurd hname (hc hneg).1, fun _ => rfl⟩
      · obtain ⟨s, hs, -⟩ := hcopy (by omega)
        rw [hs, Option.map_some]
        refine ⟨fun _ => ⟨_, rfl, rfl, rfl, rfl, fun _ => ?_⟩, fun hc => absurd (fun h => absurd h hneg) hc⟩
        exact (or_iff_left htells).symm
    · rw [if_neg (show ¬ (_ ∨ _) from hname)]
      have hfair : (cid.rawdata (x + 1)).toInt < 0 → ¬ isName (cid.rawdata x) ∧
          (isNumber (cid.rawdata x) → cid.number.isEmpty = false) :=
        fun _ => ⟨hname, fun h => absurd h hnumber⟩
      refine ⟨fun _ => ?_, fun hc => absurd hfair hc⟩
      by_cases htag : cid.rawdata x = 11
      · have hmore : cid.raw ((x : ℤ) + 1 + 1) = some (cid.rawdata (x + 2)) :=
          cid.raw_of_lt (show x + 2 < 256 by omega)
        rw [if_pos htag, hmore, Option.map_some]
        exact ⟨_, rfl, rfl, rfl, rfl, fun _ => (or_iff_left htells).symm⟩
      · rw [if_neg htag]
        exact ⟨cid, rfl, rfl, rfl, rfl, fun _ => (or_iff_left htells).symm⟩

theorem eq_not_of_iff {a b : Bool} (h : a = false ↔ b = true) : a = !b := by
  rcases a with _ | _
  · rw [h.1 rfl]
    exact rfl
  · rcases b with _ | _
    · exact rfl
    · exact (h.2 rfl).trans rfl

/-- **The elements of a message.** -/
theorem elements_spec : ∀ (n fuel : ℕ) (cid : State) (x : ℕ) (told : Bool), cid.pos ≤ 128 →
    cid.pos ≤ x + n → n < fuel → cid.number.isEmpty = !told →
      (Copyable cid.rawdata told (offsets cid.rawdata cid.pos n x) →
        ∃ cid', elements fuel cid x = some cid' ∧ cid'.pos = cid.pos ∧
          (cid'.sawflag = cid.sawflag ∨ cid'.sawflag = 0)) ∧
      (¬ Copyable cid.rawdata told (offsets cid.rawdata cid.pos n x) →
        elements fuel cid x = none) := by
  intro n
  induction n with
  | zero =>
    intro fuel cid x told hpos hx hfuel htold
    obtain ⟨fuel, rfl⟩ : ∃ m, fuel = m + 1 := ⟨fuel - 1, by omega⟩
    rw [elements, if_neg (by omega)]
    exact ⟨fun _ => ⟨cid, rfl, rfl, Or.inl rfl⟩, fun h => absurd trivial h⟩
  | succ n ih =>
    intro fuel cid x told hpos hx hfuel htold
    obtain ⟨fuel, rfl⟩ : ∃ m, fuel = m + 1 := ⟨fuel - 1, by omega⟩
    rw [elements, offsets]
    by_cases hlt : x < cid.pos
    · have hlt' : (x : ℤ) < cid.pos := by omega
      rw [if_pos hlt', if_pos hlt, cid.raw_of_lt (by omega), Option.bind_some]
      obtain ⟨hsome, hnone⟩ := @element_spec x cid (by omega)
      unfold Copyable
      have htold' : cid.number.isEmpty = false ↔ told = true := by
        rw [htold, Bool.not_eq_false']
      rw [htold'] at hsome hnone
      by_cases hfair : (cid.rawdata (x + 1)).toInt < 0 → ¬ isName (cid.rawdata x) ∧
          (isNumber (cid.rawdata x) → told = true)
      · obtain ⟨cid', hcid', hraw, hpos', hsaw, hnumber⟩ := hsome hfair
        have hread : cid'.raw ((x : ℤ) + 1) = some (cid.rawdata (x + 1)) := by
          have hread' := @State.raw_of_lt (x + 1) cid' (by omega)
          rw [hraw] at hread'
          exact hread'
        rw [hcid', Option.bind_some, hread, Option.bind_some, and_iff_right hfair]
        by_cases hneg : (cid.rawdata (x + 1)).toInt < 0
        · rw [if_pos hneg, if_pos hneg]
          exact ⟨fun _ => ⟨_, rfl, hpos', Or.inr rfl⟩, fun h => absurd trivial h⟩
        · have hlen : (cid.rawdata (x + 1)).toInt = (cid.rawdata (x + 1)).toNat :=
            toInt_of_lt (toInt_nonneg_iff.1 (by omega))
          rw [if_neg hneg, if_neg hneg, hlen]
          have hnext := ih fuel cid' (x + 1 + (cid.rawdata (x + 1)).toNat + 1)
            (told || decide (isNumber (cid.rawdata x) ∧ cid.rawdata (x + 1) ≠ 0 ∧
              cid.rawdata (x + 2) ≠ 0)) (by omega) (by omega) (by omega) (by
              refine eq_not_of_iff ?_
              rw [hnumber (by omega), Bool.or_eq_true, decide_eq_true_iff]
              exact Iff.rfl)
          rw [hraw, hpos', hsaw] at hnext
          exact hnext
      · rw [hnone hfair, Option.bind_none]
        exact ⟨fun h => absurd h.1 hfair, fun _ => rfl⟩
    · have hle' : ¬ (x : ℤ) < cid.pos := by omega
      rw [if_neg hle', if_neg hlt]
      exact ⟨fun _ => ⟨cid, rfl, rfl, Or.inl rfl⟩, fun h => absurd trivial h⟩


/-- What holds of a state while octets are fed. -/
def Bounded (cid : State) : Prop := cid.sawflag = 4 ∨ cid.sawflag = 5 → cid.pos ≤ 128

theorem Bounded.of_sawflag (h4 : cid.sawflag ≠ 4) (h5 : cid.sawflag ≠ 5) : Bounded cid :=
  fun h => absurd h (not_or.2 ⟨h4, h5⟩)

theorem readMessage_spec (hpos : cid.pos ≤ 128) :
    ((cid.typ = 0x80 ∨ cid.typ = 0x82 →
        Copyable cid.rawdata false (offsets cid.rawdata cid.pos cid.pos 0)) →
      ∃ cid', readMessage cid = some cid' ∧ cid'.pos = cid.pos) ∧
    (¬ (cid.typ = 0x80 ∨ cid.typ = 0x82 →
        Copyable cid.rawdata false (offsets cid.rawdata cid.pos cid.pos 0)) →
      readMessage cid = none) := by
  unfold readMessage
  dsimp only
  by_cases hmdmf : cid.typ = 0x80 ∨ cid.typ = 0x82
  · obtain ⟨hsome, hnone⟩ := elements_spec cid.pos (rawdataSize + 1)
      { cid with number := [], name := [], flags := 0 } 0 false hpos (by show cid.pos ≤ 0 + cid.pos; omega)
      (by unfold rawdataSize; omega) rfl
    rw [forall_prop_of_true hmdmf, if_pos hmdmf]
    constructor
    · intro h
      obtain ⟨cid', hcid', hpos', -⟩ := hsome h
      exact ⟨_, Option.map_eq_some_iff.2 ⟨cid', hcid', rfl⟩, hpos'⟩
    · intro h
      exact Option.map_eq_none_iff.2 (hnone h)
  · rw [if_neg hmdmf]
    refine ⟨fun _ => ?_, fun h => absurd (fun h => absurd h hmdmf) h⟩
    by_cases hvmwi : cid.typ = 0x6
    · rw [if_pos hvmwi]
      have hread := @State.raw_of_lt 2 { cid with number := [], name := [], flags := 0 } (by omega)
      rw [show ((2 : ℤ)) = ((2 : ℕ) : ℤ) from rfl, hread, Option.map_some, Option.map_some]
      refine ⟨_, rfl, ?_⟩
      dsimp only
      split_ifs <;> exact rfl
    · rw [if_neg hvmwi]
      obtain ⟨s, hs, hlen, -, -⟩ := State.copyLoop_spec
        { cid with number := [], name := [], flags := 0 } textSize 8 (Or.inl (by decide))
      have hfits := (State.copyString_isSome_iff hs hlen (by decide)).2 (Or.inl (by decide))
      obtain ⟨t, ht⟩ := Option.isSome_iff_exists.1 hfits
      rw [show ((8 : ℤ)) = ((8 : ℕ) : ℤ) from rfl, ht, Option.map_some, Option.map_some]
      exact ⟨_, rfl, rfl⟩

theorem State.setRaw_of_lt (cid : State) (h : x < 256) (c : CChar) :
    cid.setRaw x c = some { cid with rawdata := Function.update cid.rawdata x c } := if_pos h

/-- **An octet is taken exactly if it is fair.** -/
theorem feedOctet_spec (h : Bounded cid) :
    ((feedOctet cid o).isSome = true ↔ Fair cid o) ∧
      ∀ cid', (feedOctet cid o).map Prod.fst = some cid' → Bounded cid' := by
  unfold feedOctet Fair
  dsimp only
  rcases hs : cid.sawflag with _ | _ | _ | _ | _ | _ | k
  · refine ⟨iff_of_true rfl fun h => absurd h (by decide), fun cid' hcid' => ?_⟩
    obtain rfl := Option.some.inj hcid'
    dsimp only
    split_ifs
    · exact Bounded.of_sawflag (show 2 ≠ 4 by decide) (show 2 ≠ 5 by decide)
    · exact h
  · refine ⟨iff_of_true rfl fun h => absurd h (by decide), fun cid' hcid' => ?_⟩
    obtain rfl := Option.some.inj hcid'
    exact h
  · refine ⟨iff_of_true rfl fun h => absurd h (by decide), fun cid' hcid' => ?_⟩
    obtain rfl := Option.some.inj hcid'
    dsimp only
    split_ifs
    · exact Bounded.of_sawflag (show 3 ≠ 4 by decide) (show 3 ≠ 5 by decide)
    · exact h
  · refine ⟨iff_of_true rfl fun h => absurd h (by decide), fun cid' hcid' => ?_⟩
    obtain rfl := Option.some.inj hcid'
    exact fun _ => Nat.zero_le _
  · have hpos := h (Or.inl hs)
    by_cases hfull : 128 ≤ cid.pos
    · rw [if_pos hfull]
      refine ⟨iff_of_true rfl fun h => absurd h (by decide), fun cid' hcid' => ?_⟩
      obtain rfl := Option.some.inj hcid'
      exact h
    · rw [if_neg hfull, cid.setRaw_of_lt (by omega), Option.bind_some]
      dsimp only
      by_cases hlen : cid.len - 1 = 0
      · rw [if_pos hlen, State.setRaw_of_lt _ (by omega), Option.map_some]
        refine ⟨iff_of_true rfl fun h => absurd h (by decide), fun cid' hcid' => ?_⟩
        obtain rfl := Option.some.inj hcid'
        exact fun _ => show cid.pos + 1 ≤ 128 by omega
      · rw [if_neg hlen]
        refine ⟨iff_of_true rfl fun h => absurd h (by decide), fun cid' hcid' => ?_⟩
        obtain rfl := Option.some.inj hcid'
        exact fun _ => show cid.pos + 1 ≤ 128 by omega
  · have hpos := h (Or.inr hs)
    by_cases hsum : o.toNat ≠ 256 - cid.cksum % 256
    · rw [if_pos hsum]
      refine ⟨iff_of_true rfl fun _ h => absurd h hsum, fun cid' hcid' => ?_⟩
      obtain rfl := Option.some.inj hcid'
      exact Bounded.of_sawflag (show 0 ≠ 4 by decide) (show 0 ≠ 5 by decide)
    · rw [if_neg hsum, forall_prop_of_true rfl, forall_prop_of_true (not_not.1 hsum)]
      obtain ⟨hsome, hnone⟩ := readMessage_spec hpos
      by_cases hfair : cid.typ = 0x80 ∨ cid.typ = 0x82 →
          Copyable cid.rawdata false (offsets cid.rawdata cid.pos cid.pos 0)
      · obtain ⟨cid', hcid', hpos'⟩ := hsome hfair
        rw [hcid', Option.map_some]
        refine ⟨iff_of_true rfl hfair, fun cid'' hcid'' => ?_⟩
        obtain rfl := Option.some.inj hcid''
        exact fun _ => Nat.le_trans (Nat.le_of_eq hpos') hpos
      · rw [hnone hfair, Option.map_none]
        exact ⟨iff_of_false Bool.false_ne_true hfair,
          fun cid' hcid' => absurd hcid' (Option.some_ne_none cid').symm⟩
  · refine ⟨iff_of_true rfl fun h => absurd h (by omega), fun cid' hcid' => ?_⟩
    obtain rfl := Option.some.inj hcid'
    exact h

/-- **`callerid_feed` stays inside exactly where every message is fair.** -/
theorem feed_iff (os : List (BitVec 8)) :
    StaysInside feedOctet os ↔ EveryOctet feedOctet Fair os :=
  staysInside_iff (I := Bounded) (fun h => absurd h (by decide))
    (fun _ _ cid' h hcid' => (feedOctet_spec h).2 cid' hcid') (fun _ _ h => (feedOctet_spec h).1) os

end Inside

end Callerid

end Trismedia
