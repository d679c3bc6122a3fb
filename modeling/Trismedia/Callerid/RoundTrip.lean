import Mathlib.Data.List.TakeWhile
import Trismedia.Common.Reads
import Trismedia.Callerid.Model
/-!
# Caller ID — what is put is what is read

What `callerid_generate` puts for a number and a name, and what
`callerid_feed` and `callerid_get` make of it. The one condition is on the
checksum: the sender puts `256 - (sum & 255)` as a byte, the reader compares
the byte with that number itself, and where the sum is a multiple of 256 the
byte is 0 and the number 256.
-/


namespace Trismedia

namespace Callerid

open CString

variable {cid cid' : CalleridState} {value number name : Option CString} {flags : BitVec 32}
variable {tm : Tm} {plain hidden : ℕ}

/-! ## What is to be told -/

/-- What is told of a number or name. -/
def told (value : Option CString) (isUnknown isPrivate : Bool) : Option CString :=
  if trisStrlenZero value || isUnknown || isPrivate then none else value.map (·.take 16)

/-- The flag for a number or name that is not told. -/
def toldFlag (unknown priv : BitVec 32) (value : Option CString) (isUnknown isPrivate : Bool) :
    BitVec 32 :=
  if trisStrlenZero value || isUnknown then unknown else if isPrivate then priv else 0

/-- What `callerid_get` is to give: name, number and flags. -/
def answer (number name : Option CString) (flags : BitVec 32) :
    Option CString × Option CString × BitVec 32 :=
  let noNumber : Bool := flags &&& cidUnknownNumber ≠ 0
  let privNumber : Bool := flags &&& cidPrivateNumber ≠ 0
  let noName : Bool := flags &&& cidUnknownName ≠ 0
  let privName : Bool := flags &&& cidPrivateName ≠ 0
  (told name noName privName, told number noNumber privNumber,
    toldFlag cidUnknownNumber cidPrivateNumber number noNumber privNumber |||
      toldFlag cidUnknownName cidPrivateName name noName privName)

/-- A number or name that can be told: no NUL, and not the single letter that
stands for one that is not told. -/
def Tellable (value : Option CString) : Prop :=
  value ≠ some (str "P") ∧ value ≠ some (str "O") ∧ ∀ s ∈ value, 0 ∉ s

instance : Decidable (Tellable value) :=
  inferInstanceAs
    (Decidable (value ≠ some (str "P") ∧ value ≠ some (str "O") ∧ ∀ s ∈ value, 0 ∉ s))

/-- **The round trip.** A reader that looks for a message reads this one, returns
1, and then gives the number and the name. -/
def RoundTrip (tm : Tm) (number name : Option CString) (flags : BitVec 32) : Prop :=
  ∀ cid : CalleridState, cid.sawflag = 0 →
    ∃ cid', calleridFeed cid (calleridGenerate tm number name flags false) = some (cid', 1) ∧
      calleridGet cid' = answer number name flags

/-! ## The sum, from what is to be told -/

/-- The length of an element and the sum of its bytes, added. -/
def elementSum (plain hidden : ℕ) (value : Option CString) (isUnknown isPrivate : Bool) : ℕ :=
  if trisStrlenZero value || isUnknown then 3 + hidden + 1 + 79
  else if isPrivate then 3 + hidden + 1 + 80
  else
    let told := (value.getD []).take 16
    2 + told.length + plain + told.length + (told.map BitVec.toNat).sum

/-- The digits of a number below 100, added. -/
def digitSum (n : ℕ) : ℕ := n / 10 + n % 10

/-- **The sum that is checked**: the type of the message, its length, and its bytes. -/
def checkSum (tm : Tm) (number name : Option CString) (flags : BitVec 32) : ℕ :=
  0x80 + (10 + 1 + 8 + 8 * 48 + digitSum (tm.mon + 1) + digitSum tm.mday + digitSum tm.hour +
    digitSum tm.min) +
    elementSum 2 4 number (flags &&& cidUnknownNumber ≠ 0) (flags &&& cidPrivateNumber ≠ 0) +
    elementSum 7 8 name (flags &&& cidUnknownName ≠ 0) (flags &&& cidPrivateName ≠ 0)

/-! ## The message -/

/-- What an element says. -/
def sent (value : Option CString) (isUnknown isPrivate : Bool) : CString :=
  if trisStrlenZero value || isUnknown then str "O"
  else if isPrivate then str "P"
  else (value.getD []).take 16

/-- The tag of an element. -/
def sentTag (plain hidden : ℕ) (value : Option CString) (isUnknown isPrivate : Bool) : ℕ :=
  if trisStrlenZero value || isUnknown || isPrivate then hidden else plain

section Element

variable {isUnknown isPrivate : Bool}

theorem genElement_eq : genElement plain hidden value isUnknown isPrivate =
    byte (sentTag plain hidden value isUnknown isPrivate) ::
      byte (sent value isUnknown isPrivate).length :: sent value isUnknown isPrivate := by
  unfold genElement sentTag sent
  by_cases hno : trisStrlenZero value || isUnknown
  · simp [hno, str]
  · cases isPrivate with
    | true => simp [hno, str]
    | false => simp [hno, Nat.min_comm]

theorem sent_length_le : (sent value isUnknown isPrivate).length ≤ 16 := by
  unfold sent
  by_cases hno : trisStrlenZero value || isUnknown
  · simp [hno, str]
  · cases isPrivate with
    | true => simp [hno, str]
    | false => simp [hno, Nat.min_le_left]

theorem sent_nonzero (h : Tellable value) : 0 ∉ sent value isUnknown isPrivate := by
  unfold sent
  by_cases hno : trisStrlenZero value || isUnknown
  · rw [if_pos hno]
    decide
  · rw [if_neg hno]
    cases isPrivate with
    | true =>
      rw [if_pos rfl]
      decide
    | false =>
      intro hmem
      cases value with
      | none => exact hno rfl
      | some s => exact h.2.2 s rfl (List.mem_of_mem_take hmem)

theorem sent_ne_nil : sent value isUnknown isPrivate ≠ [] := by
  unfold sent
  by_cases hno : trisStrlenZero value || isUnknown
  · rw [if_pos hno]
    decide
  · rw [if_neg hno]
    cases isPrivate with
    | true =>
      rw [if_pos rfl]
      decide
    | false =>
      cases value with
      | none => exact absurd rfl hno
      | some s =>
        intro hnil
        have hs : s = [] := by simpa using hnil
        exact hno (by rw [hs]; rfl)

/-- What is read of an element is what was to be told. -/
theorem flagged_sent (h : Tellable value) (unknown priv : BitVec 32) :
    flagged (sent value isUnknown isPrivate) priv unknown =
      ((told value isUnknown isPrivate).getD [],
        toldFlag unknown priv value isUnknown isPrivate) := by
  unfold sent told toldFlag
  by_cases hno : trisStrlenZero value || isUnknown
  · simp only [hno, Bool.true_or, if_true]
    rfl
  · cases isPrivate with
    | true =>
      simp only [hno, Bool.or_true, if_true]
      rfl
    | false =>
      cases value with
      | none => exact absurd rfl hno
      | some s =>
        have hs : s ≠ [] := by
          rintro rfl
          exact hno rfl
        have hletter : ∀ c : CChar, s.take 16 = [c] → s = [c] := by
          intro c hc
          have hlen := congrArg List.length hc
          rw [List.length_take, List.length_singleton] at hlen
          rwa [List.take_of_length_le (by omega)] at hc
        have hne : s.take 16 ≠ [] := by
          intro hnil
          rw [List.take_eq_nil_iff] at hnil
          simp [hs] at hnil
        have hP : s.take 16 ≠ str "P" := fun hc => h.1 (congrArg some (hletter _ hc))
        have hO : s.take 16 ≠ str "O" := fun hc => h.2.1 (congrArg some (hletter _ hc))
        simp [hno, flagged, hP, hO, hs]

/-- A number or name is told, or one flag says why it is not. -/
def Settled (told : Option CString) (flag unknown priv : BitVec 32) : Prop :=
  told = none ∧ (flag = unknown ∨ flag = priv) ∨ ∃ s, told = some s ∧ flag = 0

theorem told_settled (unknown priv : BitVec 32) :
    Settled (told value isUnknown isPrivate) (toldFlag unknown priv value isUnknown isPrivate)
      unknown priv := by
  unfold Settled told toldFlag
  by_cases hno : trisStrlenZero value || isUnknown
  · simp [hno]
  · cases isPrivate with
    | true => simp [hno]
    | false =>
      cases value with
      | none => exact absurd rfl hno
      | some s => simp [hno]

end Element

/-- What `callerid_get` gives of what was read. -/
theorem calleridGet_eq {toldNumber toldName : Option CString} {flag flag' : BitVec 32}
    (hnumber : Settled toldNumber flag cidUnknownNumber cidPrivateNumber)
    (hname : Settled toldName flag' cidUnknownName cidPrivateName)
    (hcid : cid.number = toldNumber.getD [] ∧ cid.name = toldName.getD [] ∧
      cid.flags = flag ||| flag') :
    calleridGet cid = (toldName, toldNumber, flag ||| flag') := by
  unfold calleridGet
  rw [hcid.1, hcid.2.1, hcid.2.2]
  rcases hnumber with ⟨rfl, rfl | rfl⟩ | ⟨s, rfl, rfl⟩
  all_goals
    rcases hname with ⟨rfl, rfl | rfl⟩ | ⟨s', rfl, rfl⟩
    all_goals rfl

/-! ## The bytes of the message -/

theorem byte_toNat {n : ℕ} (h : n < 256) : (byte n).toNat = n := by
  rw [byte, BitVec.toNat_ofNat]
  omega

theorem byte_ne_zero {n : ℕ} (h : n < 256) (hpos : 0 < n) : (0 : CChar) ≠ byte n := by
  intro hzero
  have hnat := congrArg BitVec.toNat hzero
  rw [byte_toNat h] at hnat
  change 0 = n at hnat
  omega

theorem putClid_toInt (c : CChar) : putClid c.toInt = c.toNat := by
  have hc := c.isLt
  rw [putClid, BitVec.toInt_eq_toNat_cond]
  split <;> omega

/-- Signed or not, the bytes have the same sum modulo 256. -/
theorem sum_toInt (msg : CString) :
    (msg.map BitVec.toInt).sum % 256 = ((msg.map BitVec.toNat).sum : ℤ) % 256 := by
  induction msg with
  | nil => rfl
  | cons c msg ih =>
    have hc : c.toInt % 256 = (c.toNat : ℤ) % 256 := by
      rw [BitVec.toInt_eq_toNat_cond]
      split <;> omega
    rw [List.map_cons, List.sum_cons, List.map_cons, List.sum_cons]
    omega

theorem twoDigits_sum {n : ℕ} (h : n < 100) :
    ((twoDigits n).map BitVec.toNat).sum = 96 + digitSum n := by
  have hhigh : (byte (48 + n / 10)).toNat = 48 + n / 10 := byte_toNat (by omega)
  have hlow : (byte (48 + n % 10)).toNat = 48 + n % 10 := byte_toNat (by omega)
  unfold twoDigits digitSum
  simp only [List.map_cons, List.map_nil, List.sum_cons, List.sum_nil, hhigh, hlow]
  omega

theorem twoDigits_nonzero {n : ℕ} (h : n < 100) : 0 ∉ twoDigits n := by
  have hhigh := byte_ne_zero (n := 48 + n / 10) (by omega) (by omega)
  have hlow := byte_ne_zero (n := 48 + n % 10) (by omega) (by omega)
  simp only [twoDigits, List.mem_cons, List.not_mem_nil, or_false, not_or]
  exact ⟨hhigh, hlow⟩

theorem genElement_sum {isUnknown isPrivate : Bool} (hplain : plain < 256) (hhidden : hidden < 256) :
    (genElement plain hidden value isUnknown isPrivate).length +
        ((genElement plain hidden value isUnknown isPrivate).map BitVec.toNat).sum =
      elementSum plain hidden value isUnknown isPrivate := by
  have hO : (chr 'O').toNat = 79 := rfl
  have hP : (chr 'P').toNat = 80 := rfl
  unfold genElement elementSum
  by_cases hno : trisStrlenZero value || isUnknown
  · rw [if_pos hno, if_pos hno]
    simp only [List.length_cons, List.length_nil, List.map_cons, List.map_nil, List.sum_cons,
      List.sum_nil, byte_toNat hhidden, byte_toNat (by omega : 1 < 256), hO]
    omega
  · rw [if_neg hno, if_neg hno]
    cases isPrivate with
    | true =>
      rw [if_pos rfl, if_pos rfl]
      simp only [List.length_cons, List.length_nil, List.map_cons, List.map_nil, List.sum_cons,
        List.sum_nil, byte_toNat hhidden, byte_toNat (by omega : 1 < 256), hP]
      omega
    | false =>
      have hlen : ((value.getD []).take 16).length = min (value.getD []).length 16 := by
        rw [List.length_take, Nat.min_comm]
      have htake : (value.getD []).take (min (value.getD []).length 16) =
          (value.getD []).take 16 := by
        rw [Nat.min_comm, ← List.take_take, List.take_length]
      rw [if_neg Bool.false_ne_true, if_neg Bool.false_ne_true]
      dsimp only
      rw [htake, ← hlen]
      have hlt : ((value.getD []).take 16).length < 256 := by omega
      simp only [List.length_cons, List.map_cons, List.sum_cons, byte_toNat hplain,
        byte_toNat hlt]
      omega

theorem genElement_nonzero {isUnknown isPrivate : Bool} (h : Tellable value)
    (hplain : plain < 256 ∧ 0 < plain) (hhidden : hidden < 256 ∧ 0 < hidden) :
    0 ∉ genElement plain hidden value isUnknown isPrivate := by
  have hlen : (sent value isUnknown isPrivate).length ≤ 16 := sent_length_le
  have hpos : 0 < (sent value isUnknown isPrivate).length := List.length_pos_iff.2 sent_ne_nil
  have htag : sentTag plain hidden value isUnknown isPrivate = plain ∨
      sentTag plain hidden value isUnknown isPrivate = hidden := by
    unfold sentTag
    split
    · exact Or.inr rfl
    · exact Or.inl rfl
  rw [genElement_eq, List.mem_cons, List.mem_cons, not_or, not_or]
  refine ⟨byte_ne_zero ?_ ?_, byte_ne_zero (by omega) hpos, sent_nonzero h⟩
  all_goals omega

/-- The date in the message. -/
def dateElement (tm : Tm) : CString :=
  [byte 1, byte 8] ++ twoDigits (tm.mon + 1) ++ twoDigits tm.mday ++ twoDigits tm.hour ++
    twoDigits tm.min

theorem calleridGenmsg_eq : calleridGenmsg tm number name flags = dateElement tm ++
    genElement 2 4 number (flags &&& cidUnknownNumber ≠ 0) (flags &&& cidPrivateNumber ≠ 0) ++
    genElement 7 8 name (flags &&& cidUnknownName ≠ 0) (flags &&& cidPrivateName ≠ 0) := rfl

theorem dateElement_length : (dateElement tm).length = 10 := rfl

theorem dateElement_sum : ((dateElement tm).map BitVec.toNat).sum =
    1 + 8 + 8 * 48 + digitSum (tm.mon + 1) + digitSum tm.mday + digitSum tm.hour +
      digitSum tm.min := by
  have hmon := tm.mon_lt
  have hmday := tm.mday_lt
  have hhour := tm.hour_lt
  have hmin := tm.min_lt
  have h1 := twoDigits_sum (by omega : tm.mon + 1 < 100)
  have h2 := twoDigits_sum (by omega : tm.mday < 100)
  have h3 := twoDigits_sum (by omega : tm.hour < 100)
  have h4 := twoDigits_sum (by omega : tm.min < 100)
  have htags : (([byte 1, byte 8] : CString).map BitVec.toNat).sum = 9 := rfl
  unfold dateElement
  simp only [List.map_append, List.sum_append, h1, h2, h3, h4, htags]
  omega

theorem dateElement_nonzero : 0 ∉ dateElement tm := by
  have hmon := tm.mon_lt
  have hmday := tm.mday_lt
  have hhour := tm.hour_lt
  have hmin := tm.min_lt
  have h1 := twoDigits_nonzero (by omega : tm.mon + 1 < 100)
  have h2 := twoDigits_nonzero (by omega : tm.mday < 100)
  have h3 := twoDigits_nonzero (by omega : tm.hour < 100)
  have h4 := twoDigits_nonzero (by omega : tm.min < 100)
  have htags : (0 : CChar) ∉ ([byte 1, byte 8] : CString) := by decide
  unfold dateElement
  simp only [List.mem_append, not_or]
  exact ⟨⟨⟨⟨htags, h1⟩, h2⟩, h3⟩, h4⟩

theorem calleridGenmsg_nonzero (hnumber : Tellable number) (hname : Tellable name) :
    0 ∉ calleridGenmsg tm number name flags := by
  rw [calleridGenmsg_eq, List.mem_append, List.mem_append, not_or, not_or]
  exact ⟨⟨dateElement_nonzero, genElement_nonzero hnumber (by omega) (by omega)⟩,
    genElement_nonzero hname (by omega) (by omega)⟩

theorem genElement_length_le {isUnknown isPrivate : Bool} :
    (genElement plain hidden value isUnknown isPrivate).length ≤ 18 := by
  have hlen : (sent value isUnknown isPrivate).length ≤ 16 := sent_length_le
  rw [genElement_eq, List.length_cons, List.length_cons]
  omega

theorem calleridGenmsg_length_le : (calleridGenmsg tm number name flags).length ≤ 46 := by
  rw [calleridGenmsg_eq, List.length_append, List.length_append, dateElement_length]
  show _ ≤ 10 + 18 + 18
  exact Nat.add_le_add (Nat.add_le_add_left genElement_length_le 10) genElement_length_le

theorem checkSum_eq : checkSum tm number name flags =
    0x80 + (calleridGenmsg tm number name flags).length +
      ((calleridGenmsg tm number name flags).map BitVec.toNat).sum := by
  rw [calleridGenmsg_eq, List.length_append, List.length_append, List.map_append, List.map_append,
    List.sum_append, List.sum_append, dateElement_length, dateElement_sum]
  unfold checkSum
  rw [← genElement_sum (by omega) (by omega), ← genElement_sum (by omega) (by omega)]
  omega

/-- The bytes that are put. -/
theorem calleridGenerate_eq (hnumber : Tellable number) (hname : Tellable name) :
    calleridGenerate tm number name flags false = List.replicate 30 0x55 ++
      (0x80 :: (calleridGenmsg tm number name flags).length ::
        ((calleridGenmsg tm number name flags).map BitVec.toNat ++
          [(256 - checkSum tm number name flags % 256) % 256])) := by
  have hlen : (calleridGenmsg tm number name flags).length ≤ 46 := calleridGenmsg_length_le
  have hzero : 0 ∉ calleridGenmsg tm number name flags := calleridGenmsg_nonzero hnumber hname
  have hsum := sum_toInt (calleridGenmsg tm number name flags)
  unfold calleridGenerate
  rw [checkSum_eq]
  generalize calleridGenmsg tm number name flags = msg at hlen hzero hsum ⊢
  have hstrlen : msg.takeWhile (· ≠ 0) = msg := by
    rw [List.takeWhile_eq_self_iff]
    intro c hc
    simpa using fun hcz : c = 0 => hzero (hcz ▸ hc)
  have hput : putClid msg.length = msg.length := by
    rw [putClid]
    omega
  have hbytes : msg.map (fun c => putClid c.toInt) = msg.map BitVec.toNat :=
    List.map_congr_left fun c _ => putClid_toInt c
  dsimp only
  rw [hstrlen, hput, hbytes]
  have hcheck : putClid (256 - (0x80 + msg.length + (msg.map BitVec.toInt).sum) % 256) =
      (256 - (0x80 + msg.length + (msg.map BitVec.toNat).sum) % 256) % 256 := by
    rw [putClid]
    omega
  rw [hcheck]
  rfl
/-! ## Reading the bytes -/

theorem text_eq {x : ℕ} {data : CString} (h : Reads cid.rawdata x data) (hzero : 0 ∉ data) :
    cid.text x data.length = data := by
  have hmap : (List.range data.length).map (fun k => cid.rawdata (x + k)) = data := h.slice_eq
  rw [CalleridState.text, hmap, List.takeWhile_eq_self_iff]
  intro c hc
  simpa using fun hcz : c = 0 => hzero (hcz ▸ hc)

/-- One byte that is read, and the rest. -/
theorem calleridFeed_cons {b : ℕ} {bs : List ℕ} (hb : b ≤ 0xff)
    (h : feedByte cid b = some (cid', 0)) :
    calleridFeed cid (b :: bs) = calleridFeed cid' bs := by
  rw [calleridFeed, if_neg (by omega), h]
  rfl

/-- The channel seizure is passed over. -/
theorem calleridFeed_seizure (n : ℕ) (bs : List ℕ) (h : cid.sawflag = 2) :
    calleridFeed cid (List.replicate n 0x55 ++ bs) = calleridFeed cid bs := by
  induction n with
  | zero => rfl
  | succ n ih =>
    have hbyte : feedByte cid 0x55 = some (cid, 0) := by simp [feedByte, h]
    rw [List.replicate_succ, List.cons_append, calleridFeed_cons (by omega) hbyte, ih]

/-- The state when the message `msg` has been read. -/
structure GotMessage (cid cid' : CalleridState) (msg : CString) : Prop where
  sawflag : cid'.sawflag = 5
  typ : cid'.typ = cid.typ
  pos : cid'.pos = cid.pos + msg.length
  cksum : cid'.cksum = cid.cksum + (msg.map BitVec.toNat).sum
  reads : Reads cid'.rawdata cid.pos msg
  frame : ∀ i, i < cid.pos → cid'.rawdata i = cid.rawdata i

/-- The state with one more byte of the message. -/
def kept (cid : CalleridState) (b : ℕ) : CalleridState :=
  { cid with
    rawdata := fun i => if i = cid.pos then byte b else cid.rawdata i
    pos := cid.pos + 1
    len := cid.len - 1
    cksum := cid.cksum + b }

/-- The state with the message ended. -/
def ended (cid : CalleridState) : CalleridState :=
  { cid with rawdata := fun i => if i = cid.pos then 0 else cid.rawdata i, sawflag := 5 }

theorem feedByte_message {b : ℕ} (hsaw : cid.sawflag = 4) (hpos : cid.pos < 128) :
    feedByte cid b = some (if cid.len = 1 then ended (kept cid b) else kept cid b, 0) := by
  have hroom : ¬ 128 ≤ cid.pos := by omega
  by_cases hlen : cid.len = 1
  · have hlast : cid.len - 1 = 0 := by omega
    simp only [feedByte, hsaw, hroom, hlen, if_true, if_false, ended, kept]
    rfl
  · have hlast : ¬ cid.len - 1 = 0 := by omega
    simp only [feedByte, hsaw, hroom, hlast, hlen, if_false, kept]

/-- **The bytes of the message** are kept and added. -/
theorem calleridFeed_message {msg : CString} (bs : List ℕ) (hsaw : cid.sawflag = 4)
    (hlen : cid.len = msg.length) (hne : msg ≠ []) (hpos : cid.pos + msg.length ≤ 128) :
    ∃ cid', calleridFeed cid (msg.map BitVec.toNat ++ bs) = calleridFeed cid' bs ∧
      GotMessage cid cid' msg := by
  induction msg generalizing cid with
  | nil => exact absurd rfl hne
  | cons c msg ih =>
    rw [List.length_cons] at hlen hpos
    have hc : c.toNat < 256 := c.isLt
    have hbyte : byte c.toNat = c := by
      apply BitVec.eq_of_toNat_eq
      rw [byte_toNat hc]
    have hfeed := feedByte_message (b := c.toNat) hsaw (by omega)
    rw [List.map_cons, List.cons_append, calleridFeed_cons (by omega) hfeed]
    by_cases hlast : msg = []
    · -- the last byte, which ends the message
      rw [hlast] at hlen ⊢
      rw [if_pos (by simpa using hlen)]
      refine ⟨_, rfl, rfl, rfl, rfl, by simp [ended, kept], ⟨?_, trivial⟩, fun i hi => ?_⟩
      · show (if cid.pos = cid.pos + 1 then (0 : CChar) else
          if cid.pos = cid.pos then byte c.toNat else cid.rawdata cid.pos) = c
        rw [if_neg (by omega), if_pos rfl, hbyte]
      · show (if i = cid.pos + 1 then (0 : CChar) else
          if i = cid.pos then byte c.toNat else cid.rawdata i) = cid.rawdata i
        rw [if_neg (by omega), if_neg (by omega)]
    · have hmsg : 0 < msg.length := List.length_pos_iff.2 hlast
      rw [if_neg (by omega)]
      have hkept : (kept cid c.toNat).sawflag = 4 := hsaw
      have hlen' : (kept cid c.toNat).len = msg.length := by
        show cid.len - 1 = _
        omega
      have hpos' : (kept cid c.toNat).pos + msg.length ≤ 128 := by
        show cid.pos + 1 + _ ≤ _
        omega
      obtain ⟨cid', heq, hgot⟩ := ih hkept hlen' hlast hpos'
      refine ⟨cid', heq, hgot.sawflag, hgot.typ, ?_, ?_, ⟨?_, hgot.reads⟩, fun i hi => ?_⟩
      · rw [hgot.pos, List.length_cons]
        show cid.pos + 1 + _ = _
        omega
      · rw [hgot.cksum, List.map_cons, List.sum_cons]
        show cid.cksum + _ + _ = _
        omega
      · rw [hgot.frame _ (Nat.lt_succ_self _)]
        show (if cid.pos = cid.pos then byte c.toNat else cid.rawdata cid.pos) = c
        rw [if_pos rfl, hbyte]
      · rw [hgot.frame _ (Nat.lt_succ_of_lt hi)]
        show (if i = cid.pos then byte c.toNat else cid.rawdata i) = cid.rawdata i
        rw [if_neg (by omega)]

/-- The state when a message is to come. -/
def begun (cid : CalleridState) (len : ℕ) : CalleridState :=
  { cid with typ := 0x80, sawflag := 4, len := len, pos := 0, cksum := 0x80 + len }

/-- **A message up to its checksum.** -/
theorem calleridFeed_upTo {msg : CString} (bs : List ℕ) (hsaw : cid.sawflag = 0) (hne : msg ≠ [])
    (hlen : msg.length ≤ 128) :
    ∃ cid', calleridFeed cid (List.replicate 30 0x55 ++
        (0x80 :: msg.length :: (msg.map BitVec.toNat ++ bs))) = calleridFeed cid' bs ∧
      cid'.sawflag = 5 ∧ cid'.typ = 0x80 ∧ cid'.pos = msg.length ∧
      cid'.cksum = 0x80 + msg.length + (msg.map BitVec.toNat).sum ∧ Reads cid'.rawdata 0 msg := by
  have hflag : feedByte cid 0x55 = some ({ cid with sawflag := 2 }, 0) := by simp [feedByte, hsaw]
  have hlead : feedByte { cid with sawflag := 2 } 0x80 =
      some ({ cid with typ := 0x80, sawflag := 3, cksum := 0x80 }, 0) := rfl
  have hlength : feedByte { cid with typ := 0x80, sawflag := 3, cksum := 0x80 } msg.length =
      some (begun cid msg.length, 0) := rfl
  have hroom : (begun cid msg.length).pos + msg.length ≤ 128 := by
    show 0 + _ ≤ _
    omega
  have hbegun : (begun cid msg.length).sawflag = 4 := rfl
  obtain ⟨cid', heq, hgot⟩ := calleridFeed_message bs hbegun rfl hne hroom
  refine ⟨cid', ?_, hgot.sawflag, hgot.typ, ?_, hgot.cksum, hgot.reads⟩
  · rw [show (30 : ℕ) = 29 + 1 from rfl, List.replicate_succ, List.cons_append,
      calleridFeed_cons (by omega) hflag, calleridFeed_seizure 29 _ rfl,
      calleridFeed_cons (by omega) hlead, calleridFeed_cons (by omega) hlength, heq]
  · rw [hgot.pos]
    show 0 + _ = _
    omega
/-! ## Reading the elements -/

theorem byte_toInt {n : ℕ} (h : n < 128) : (byte n).toInt = n := by
  rw [BitVec.toInt_eq_toNat_cond, byte_toNat (by omega), if_pos (by omega)]

/-- One element, and the rest. -/
theorem elements_next {x n tag : ℕ} (hx : x < cid.pos) (htag : cid.rawdata x = byte tag)
    (htag' : tag < 256) (hlen : cid.rawdata (x + 1) = byte n) (hn : n < 128)
    (h : element cid tag (x + 1) = some cid') (hpos : cid'.pos = cid.pos) :
    elements cid x = elements cid' (x + (2 + n)) := by
  have hnat : (cid.rawdata x).toNat = tag := by rw [htag, byte_toNat htag']
  have hint : (cid.rawdata (x + 1)).toInt = n := by rw [hlen, byte_toInt hn]
  have hsame : ({ cid' with pos := cid.pos } : CalleridState) = cid' := by
    rw [← hpos]
  have hnext : x + 1 + (n : ℤ).toNat + 1 = x + (2 + n) := by
    rw [Int.toNat_natCast]
    omega
  rw [elements, if_pos hx]
  split
  · next hnone =>
      rw [hnat, h] at hnone
      cases hnone
  · next found hsome =>
      rw [hnat, h] at hsome
      obtain rfl := Option.some.inj hsome
      dsimp only
      rw [hint, if_neg (by omega), hsame, hnext]

theorem elements_end {x : ℕ} (h : cid.pos ≤ x) : elements cid x = some cid := by
  rw [elements, if_neg (by omega)]

/-- The date says nothing. -/
theorem elements_date (h : Reads cid.rawdata 0 (dateElement tm)) (hpos : 0 < cid.pos) :
    elements cid 0 = elements cid 10 :=
  elements_next hpos h.1 (by omega) h.2.1 (by omega) rfl rfl

/-- What an element says stands behind its tag and its length. -/
theorem element_res {x : ℕ} {data : CString} (h : Reads cid.rawdata x (byte data.length :: data))
    (hzero : 0 ∉ data) (hlen : data.length ≤ 16) :
    min (cid.rawdata x).toInt 32 = data.length ∧ cid.text (x + 1) data.length = data := by
  refine ⟨?_, text_eq h.2 hzero⟩
  rw [h.1, byte_toInt (by omega)]
  omega

theorem elements_number {x tag : ℕ} {data : CString} (hx : x < cid.pos) (htag : tag = 2 ∨ tag = 4)
    (h : Reads cid.rawdata x (byte tag :: byte data.length :: data)) (hzero : 0 ∉ data)
    (hlen : data.length ≤ 16) (hnumber : cid.number = []) :
    elements cid x = elements { cid with number := data } (x + (2 + data.length)) := by
  obtain ⟨hres, htext⟩ := element_res h.2 hzero hlen
  refine elements_next hx h.1 (by omega) h.2.1 (by omega) ?_ rfl
  have hread : tag = 2 ∨ tag = 3 ∨ tag = 4 := by omega
  have hempty : cid.number.isEmpty = true := by
    rw [hnumber]
    rfl
  unfold element
  dsimp only
  rw [if_pos hread, if_pos hempty, hres, if_neg (by omega), Int.toNat_natCast, htext]

theorem elements_name {x tag : ℕ} {data : CString} (hx : x < cid.pos) (htag : tag = 7 ∨ tag = 8)
    (h : Reads cid.rawdata x (byte tag :: byte data.length :: data)) (hzero : 0 ∉ data)
    (hlen : data.length ≤ 16) :
    elements cid x = elements { cid with name := data } (x + (2 + data.length)) := by
  obtain ⟨hres, htext⟩ := element_res h.2 hzero hlen
  refine elements_next hx h.1 (by omega) h.2.1 (by omega) ?_ rfl
  have hother : ¬ (tag = 2 ∨ tag = 3 ∨ tag = 4) := by omega
  unfold element
  dsimp only
  rw [if_neg hother, if_pos htag, hres, if_neg (by omega), Int.toNat_natCast, htext]

theorem sentTag_cases {isUnknown isPrivate : Bool} :
    sentTag plain hidden value isUnknown isPrivate = plain ∨
      sentTag plain hidden value isUnknown isPrivate = hidden := by
  unfold sentTag
  split
  · exact Or.inr rfl
  · exact Or.inl rfl

/-- **The elements of a message** give the number and the name that were sent. -/
theorem elements_genmsg (hnumber : Tellable number) (hname : Tellable name)
    (h : Reads cid.rawdata 0 (calleridGenmsg tm number name flags))
    (hpos : cid.pos = (calleridGenmsg tm number name flags).length) (hcid : cid.number = []) :
    elements cid 0 = some { cid with
      number := sent number (flags &&& cidUnknownNumber ≠ 0) (flags &&& cidPrivateNumber ≠ 0)
      name := sent name (flags &&& cidUnknownName ≠ 0) (flags &&& cidPrivateName ≠ 0) } := by
  rw [calleridGenmsg_eq] at h hpos
  rw [List.length_append, List.length_append, dateElement_length] at hpos
  obtain ⟨hboth, hreadName⟩ := reads_append.1 h
  obtain ⟨hreadDate, hreadNumber⟩ := reads_append.1 hboth
  rw [List.length_append, dateElement_length, Nat.zero_add] at hreadName
  rw [dateElement_length, Nat.zero_add] at hreadNumber
  generalize hunk : decide (flags &&& cidUnknownNumber ≠ 0) = noNumber at *
  generalize hpriv : decide (flags &&& cidPrivateNumber ≠ 0) = privNumber at *
  generalize hunk' : decide (flags &&& cidUnknownName ≠ 0) = noName at *
  generalize hpriv' : decide (flags &&& cidPrivateName ≠ 0) = privName at *
  rw [genElement_eq, genElement_eq, List.length_cons, List.length_cons, List.length_cons,
    List.length_cons] at hpos
  rw [genElement_eq] at hreadNumber
  rw [genElement_eq, genElement_eq, List.length_cons, List.length_cons] at hreadName
  have hafter : 10 + (2 + (sent number noNumber privNumber).length) =
      10 + ((sent number noNumber privNumber).length + 1 + 1) := by omega
  rw [elements_date hreadDate (by omega),
    elements_number (by omega) sentTag_cases hreadNumber (sent_nonzero hnumber) sent_length_le hcid]
  rw [← hafter] at hreadName
  generalize hmid : ({ cid with number := sent number noNumber privNumber } : CalleridState) = mid
  have hraw : mid.rawdata = cid.rawdata := by rw [← hmid]
  have hmidPos : mid.pos = cid.pos := by rw [← hmid]
  rw [← hraw] at hreadName
  rw [← hmidPos] at hpos
  have hend : mid.pos ≤ 10 + (2 + (sent number noNumber privNumber).length) +
      (2 + (sent name noName privName).length) := by omega
  rw [elements_name (by omega) sentTag_cases hreadName (sent_nonzero hname) sent_length_le,
    elements_end (by exact hend), ← hmid]
/-! ## The round trip -/

/-- **A message that is read** says what `callerid_get` is to give. -/
theorem readMessage_genmsg (hnumber : Tellable number) (hname : Tellable name)
    (h : Reads cid.rawdata 0 (calleridGenmsg tm number name flags))
    (hpos : cid.pos = (calleridGenmsg tm number name flags).length) (htyp : cid.typ = 0x80) :
    ∃ cid', readMessage cid = some cid' ∧ calleridGet cid' = answer number name flags := by
  generalize hclear : ({ cid with number := [], name := [], flags := 0 } : CalleridState) = clear
  have hraw : clear.rawdata = cid.rawdata := by rw [← hclear]
  have hclearPos : clear.pos = cid.pos := by rw [← hclear]
  have hclearNumber : clear.number = [] := by rw [← hclear]
  have hclearFlags : clear.flags = 0 := by rw [← hclear]
  have hclearTyp : clear.typ = 0x80 := by rw [← hclear, htyp]
  rw [← hraw] at h
  rw [← hclearPos] at hpos
  have helems := elements_genmsg hnumber hname h hpos hclearNumber
  unfold readMessage
  rw [hclear]
  dsimp only
  rw [if_pos (Or.inl hclearTyp), helems]
  refine ⟨_, rfl, ?_⟩
  dsimp only
  rw [flagged_sent hnumber, flagged_sent hname, hclearFlags]
  refine calleridGet_eq (told_settled _ _) (told_settled _ _) ⟨rfl, rfl, ?_⟩
  exact congrArg (· ||| _) BitVec.zero_or

/-- **The checksum byte** is accepted, and what was sent is read, exactly where the sum is
not a multiple of 256. -/
theorem calleridFeed_checksum {sum : ℕ} (hsaw : cid.sawflag = 5) (hsum : cid.cksum = sum) :
    calleridFeed cid [(256 - sum % 256) % 256] =
      if sum % 256 = 0 then some ({ cid with sawflag := 0 }, 0)
      else (readMessage cid).map fun cid => (cid, 1) := by
  have hbyte : (256 - sum % 256) % 256 ≤ 0xff := by omega
  by_cases hmul : sum % 256 = 0
  · have hrefused : feedByte cid ((256 - sum % 256) % 256) = some ({ cid with sawflag := 0 }, 0) := by
      simp [feedByte, hsaw, hsum, hmul]
    rw [if_pos hmul, calleridFeed_cons hbyte hrefused]
    rfl
  · have hright : feedByte cid ((256 - sum % 256) % 256) =
        (readMessage cid).map fun cid => (cid, 1) := by
      have heq : (256 - sum % 256) % 256 = 256 - sum % 256 := by omega
      simp only [feedByte, hsaw, hsum, heq]
      rw [if_neg (by simp)]
    rw [if_neg hmul, calleridFeed, if_neg (by omega), hright]
    cases readMessage cid with
    | none => rfl
    | some cid' => rfl

/-- **Caller ID is read back exactly where the sum of the message is not a multiple of
256.** -/
theorem roundTrip_iff (tm : Tm) (flags : BitVec 32) (hnumber : Tellable number)
    (hname : Tellable name) :
    RoundTrip tm number name flags ↔ checkSum tm number name flags % 256 ≠ 0 := by
  have hlen : (calleridGenmsg tm number name flags).length ≤ 46 := calleridGenmsg_length_le
  have hne : calleridGenmsg tm number name flags ≠ [] := by
    rw [calleridGenmsg_eq]
    exact List.cons_ne_nil _ _
  have hrun : ∀ cid : CalleridState, cid.sawflag = 0 → ∃ cid' : CalleridState,
      calleridFeed cid (calleridGenerate tm number name flags false) =
        (if checkSum tm number name flags % 256 = 0 then some ({ cid' with sawflag := 0 }, 0)
          else (readMessage cid').map fun cid => (cid, 1)) ∧
      cid'.typ = 0x80 ∧ cid'.pos = (calleridGenmsg tm number name flags).length ∧
      Reads cid'.rawdata 0 (calleridGenmsg tm number name flags) := by
    intro cid hsaw
    obtain ⟨cid', hfeed, hsaw', htyp, hpos, hsum, hreads⟩ := calleridFeed_upTo
      [(256 - checkSum tm number name flags % 256) % 256] hsaw hne (by omega)
    rw [← checkSum_eq] at hsum
    refine ⟨cid', ?_, htyp, hpos, hreads⟩
    rw [calleridGenerate_eq hnumber hname, hfeed, calleridFeed_checksum hsaw' hsum]
  constructor
  · intro htrip hmul
    obtain ⟨cid', hfeed, -⟩ := hrun calleridNew rfl
    obtain ⟨cid'', hread, -⟩ := htrip calleridNew rfl
    rw [hfeed, if_pos hmul] at hread
    have hres : (0 : ℤ) = 1 := congrArg Prod.snd (Option.some.inj hread)
    omega
  · intro hmul cid hsaw
    obtain ⟨cid', hfeed, htyp, hpos, hreads⟩ := hrun cid hsaw
    obtain ⟨cid'', hread, hget⟩ := readMessage_genmsg hnumber hname hreads hpos htyp
    refine ⟨cid'', ?_, hget⟩
    rw [hfeed, if_neg hmul, hread]
    rfl
/-- The first of January, at midnight. -/
def newYear : Tm := ⟨0, 1, 0, 0, by decide, by decide, by decide, by decide⟩

/-- The eighteenth of September, at six. -/
def september : Tm := ⟨8, 18, 18, 0, by decide, by decide, by decide, by decide⟩

theorem roundTrip_iff_smith :
    checkSum newYear (some (str "2025550123")) (some (str "SMITH")) 0 % 256 ≠ 0 ∧
      RoundTrip newYear (some (str "2025550123")) (some (str "SMITH")) 0 := by
  have hsum : checkSum newYear (some (str "2025550123")) (some (str "SMITH")) 0 % 256 ≠ 0 := by
    decide
  exact ⟨hsum, (roundTrip_iff newYear 0 (by decide) (by decide)).2 hsum⟩

/-- A caller whose number and name are put with a checksum of 0, which is refused. -/
theorem not_roundTrip : ¬ ∀ (tm : Tm) (number name : Option CString) (flags : BitVec 32),
    Tellable number → Tellable name → RoundTrip tm number name flags := by
  intro hall
  have htrip := hall september (some (str "2025550123")) (some (str "OFFICE")) 0 (by decide)
    (by decide)
  obtain ⟨cid, hfeed, -⟩ := htrip calleridNew rfl
  have hrefused : (calleridFeed calleridNew (calleridGenerate september (some (str "2025550123"))
      (some (str "OFFICE")) 0 false)).map Prod.snd = some 0 := by decide +kernel
  rw [hfeed] at hrefused
  have hres : (1 : ℤ) = 0 := Option.some.inj hrefused
  omega

end Callerid

end Trismedia
