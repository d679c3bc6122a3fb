import Trismedia.Common.LastBy
import Trismedia.Iax.Model
/-!
# The fields and the elements

A call of the encoder, the octets it appends, and what each of them says of
a field. For every field of the decoder: what one element makes of it.
-/


namespace Trismedia

namespace Iax

open CString

/-! ## Calls of the encoder -/

/-- **A call of the encoder.** The string of `iax_ie_append_str` has no NUL. -/
inductive Call where
  | raw (ie : CChar) (data : List CChar)
  | addr (ie : CChar) (sin : List.Vector CChar 16)
  | int (ie : CChar) (value : BitVec 32)
  | short (ie : CChar) (value : BitVec 16)
  | str (ie : CChar) (s : {s : CString // (0 : CChar) ∉ s})
  | byte (ie dat : CChar)
  | empty (ie : CChar)

namespace Call

/-- What the call does. The length of raw data is an `int` too. -/
def append (ied : IaxIeData) : Call → Option (ℤ × IaxIeData)
  | raw ie data => iaxIeAppendRaw ied ie data (CInt.wrapInt data.length)
  | addr ie sin => iaxIeAppendAddr ied ie sin
  | int ie value => iaxIeAppendInt ied ie value
  | short ie value => iaxIeAppendShort ied ie value
  | str ie s => iaxIeAppendStr ied ie s
  | byte ie dat => iaxIeAppendByte ied ie dat
  | empty ie => iaxIeAppend ied ie

/-- Its type. -/
def ie : Call → CChar
  | raw ie _ => ie
  | addr ie _ => ie
  | int ie _ => ie
  | short ie _ => ie
  | str ie _ => ie
  | byte ie _ => ie
  | empty ie => ie

/-- Its data. -/
def payload : Call → List CChar
  | raw _ data => data
  | addr _ sin => sin.toList
  | int _ value => htonl value
  | short _ value => htons value
  | str _ s => s
  | byte _ dat => [dat]
  | empty _ => []

/-- Its data as a number, with the width of the number. -/
def number : Call → ℕ × ℕ
  | raw _ data => (data.length, ntoh data)
  | addr _ sin => (16, ntoh sin.toList)
  | int _ value => (4, value.toNat)
  | short _ value => (2, value.toNat)
  | str _ s => (s.1.length, ntoh s.1)
  | byte _ dat => (1, dat.toNat)
  | empty _ => (0, 0)

end Call

theorem ntoh_htonl (value : BitVec 32) : ntoh (htonl value) = value.toNat := by
  have hlt := value.isLt
  simp only [ntoh, htonl, List.foldl_cons, List.foldl_nil, BitVec.extractLsb'_toNat,
    Nat.shiftRight_eq_div_pow]
  omega

theorem ntoh_htons (value : BitVec 16) : ntoh (htons value) = value.toNat := by
  have hlt := value.isLt
  simp only [ntoh, htons, List.foldl_cons, List.foldl_nil, BitVec.extractLsb'_toNat,
    Nat.shiftRight_eq_div_pow]
  omega

namespace Call

/-- **The octets of a number are read back.** -/
theorem number_eq (call : Call) : call.number = (call.payload.length, ntoh call.payload) := by
  cases call with
  | raw ie data => rfl
  | addr ie sin => rw [payload, number, sin.toList_length]
  | int ie value => rw [payload, number, ntoh_htonl]; rfl
  | short ie value => rw [payload, number, ntoh_htons]; rfl
  | str ie s => rfl
  | byte ie dat => simp [payload, number, ntoh]
  | empty ie => rfl

/-! ## What a call says of a field -/

/-- The data a pointer field gets. -/
def ptr? (f : PtrField) (call : Call) : Option (List CChar) :=
  if ieKind call.ie = .ptr f then some call.payload else none

/-- The number a field gets; data of another width are none. -/
def word? (f : WordField) (call : Call) : Option ℕ :=
  match ieKind call.ie with
  | .word g width => if g = f ∧ call.number.1 = width then some call.number.2 else none
  | .provver => if .provver = f ∧ call.number.1 = 4 then some call.number.2 else none
  | _ => none

/-- Whether a field is set to 1. -/
def sets (f : FlagField) (call : Call) : Prop :=
  match ieKind call.ie with
  | .flag g => g = f
  | .provver => f = .provverpres ∧ call.number.1 = 4
  | .calltoken => f = .calltoken
  | _ => False

/-- The data a block field gets. -/
def block? (f : BlockField) (call : Call) : Option (List CChar) :=
  if ieKind call.ie = .block f then some call.payload else none

/-- The block of an OSP token with the index `i`. -/
def osp? (i : Fin 4) (call : Call) : Option (List CChar) :=
  match ieKind call.ie, call.payload with
  | .osptoken, c :: block => if c.toNat = i then some block else none
  | _, _ => none

/-- A call token. -/
def token? (call : Call) : Option (List CChar) :=
  if ieKind call.ie = .calltoken then some call.payload else none

/-- A call token that is not empty. -/
def tokenData? (call : Call) : Option (List CChar) := call.token?.filter (· ≠ [])

/-- The name and the value of a variable. -/
def var? (call : Call) : Option (CString × CString) :=
  if ieKind call.ie = .var then some (splitVariable (call.payload.takeWhile (· ≠ 0)))
  else none

variable {f : PtrField} {g : BlockField} {i : Fin 4} {call : Call} {p : List CChar}

theorem payload_of_ptr? (h : call.ptr? f = some p) : call.payload = p := by
  obtain ⟨-, hp⟩ := Option.ite_none_right_eq_some.1 h
  exact Option.some.inj hp

theorem payload_of_block? (h : call.block? g = some p) : call.payload = p := by
  obtain ⟨-, hp⟩ := Option.ite_none_right_eq_some.1 h
  exact Option.some.inj hp

theorem payload_of_tokenData? (h : call.tokenData? = some p) : call.payload = p := by
  obtain ⟨htoken, -⟩ := Option.filter_eq_some_iff.1 h
  obtain ⟨-, hp⟩ := Option.ite_none_right_eq_some.1 htoken
  exact Option.some.inj hp

/-- Behind its index. -/
theorem payload_of_osp? (h : call.osp? i = some p) : ∃ c, call.payload = c :: p := by
  unfold osp? at h
  split at h
  · rename_i c block _ hp
    obtain ⟨-, hb⟩ := Option.ite_none_right_eq_some.1 h
    exact ⟨c, by rw [hp, Option.some.inj hb]⟩
  · exact absurd h (by simp)

end Call

/-! ## One element -/

/-- The element of a call stands in the memory. -/
structure StandsAt (mem : ℕ → CChar) (data : ℕ) (call : Call) : Prop where
  ie : mem data = call.ie
  len : (mem (data + 1)).toNat = call.payload.length
  payload : octets mem (data + 2) call.payload.length = call.payload

/-- The fields after the element at `data`. -/
def takeCall (ies : IaxIes) (mem : ℕ → CChar) (data : ℕ) (call : Call) : IaxIes :=
  takeElement ies mem data call.ie call.payload.length

variable {mem : ℕ → CChar} {data : ℕ} {call : Call} {ies : IaxIes}

/-! What the elements with a check change at most. -/

theorem takeCall_word {f : WordField} {width : ℕ} (ies : IaxIes) (mem : ℕ → CChar) (data : ℕ)
    (h : ieKind call.ie = .word f width) :
    ∃ w, takeCall ies mem data call = { ies with word := w } := by
  unfold takeCall takeElement
  rw [h]
  dsimp only
  split_ifs
  · exact ⟨ies.word, rfl⟩
  · exact ⟨_, rfl⟩

theorem takeCall_provver (ies : IaxIes) (mem : ℕ → CChar) (data : ℕ)
    (h : ieKind call.ie = .provver) :
    ∃ fl w, takeCall ies mem data call = { ies with flag := fl, word := w } := by
  unfold takeCall takeElement
  rw [h]
  dsimp only
  split_ifs
  · exact ⟨ies.flag, ies.word, rfl⟩
  · exact ⟨_, _, rfl⟩

theorem takeCall_osptoken (ies : IaxIes) (mem : ℕ → CChar) (data : ℕ)
    (h : ieKind call.ie = .osptoken) :
    ∃ b l, takeCall ies mem data call = { ies with osptokenblock := b, ospblocklength := l } := by
  unfold takeCall takeElement
  rw [h]
  dsimp only
  split_ifs
  · exact ⟨_, _, rfl⟩
  · exact ⟨ies.osptokenblock, ies.ospblocklength, rfl⟩

/-! What an element does to each field. -/

theorem ptr_takeCall (f : PtrField) :
    (takeCall ies mem data call).ptr f = ((call.ptr? f).map fun _ => data + 2).or (ies.ptr f) := by
  unfold Call.ptr?
  cases h : ieKind call.ie with
  | ptr g =>
    by_cases hg : g = f
    · simp [takeCall, takeElement, h, hg]
    · have hne : f ≠ g := Ne.symm hg
      simp [takeCall, takeElement, h, hg, hne]
  | word g width =>
    obtain ⟨w, hw⟩ := takeCall_word ies mem data h
    simp [hw]
  | provver =>
    obtain ⟨fl, w, hw⟩ := takeCall_provver ies mem data h
    simp [hw]
  | osptoken =>
    obtain ⟨b, l, hw⟩ := takeCall_osptoken ies mem data h
    simp [hw]
  | _ => simp [takeCall, takeElement, h]

theorem word_takeCall (h : StandsAt mem data call) (f : WordField) :
    (takeCall ies mem data call).word f = ((call.word? f).map Nat.cast).getD (ies.word f) := by
  have hpay := h.payload
  unfold Call.word?
  rw [call.number_eq]
  cases hk : ieKind call.ie with
  | word g width =>
    by_cases hw : call.payload.length = width
    · subst hw
      by_cases hg : g = f
      · simp [takeCall, takeElement, hk, hg, hpay]
      · have hne : f ≠ g := Ne.symm hg
        simp [takeCall, takeElement, hk, hg, hne]
    · simp [takeCall, takeElement, hk, hw]
  | provver =>
    by_cases hw : call.payload.length = 4
    · rw [hw] at hpay
      by_cases hg : WordField.provver = f
      · simp [takeCall, takeElement, hk, ← hg, hpay, hw]
      · have hne : f ≠ .provver := Ne.symm hg
        simp [takeCall, takeElement, hk, hg, hne, hw]
    · simp [takeCall, takeElement, hk, hw]
  | osptoken =>
    obtain ⟨b, l, hw⟩ := takeCall_osptoken ies mem data hk
    simp [hw]
  | _ => simp [takeCall, takeElement, hk]

theorem flag_takeCall (f : FlagField) :
    (takeCall ies mem data call).flag f = true ↔ call.sets f ∨ ies.flag f = true := by
  unfold Call.sets
  rw [call.number_eq]
  cases hk : ieKind call.ie with
  | flag g =>
    by_cases hg : g = f
    · simp [takeCall, takeElement, hk, hg]
    · have hne : f ≠ g := Ne.symm hg
      simp [takeCall, takeElement, hk, hg, hne]
  | provver =>
    by_cases hw : call.payload.length = 4
    · by_cases hf : f = .provverpres
      · simp [takeCall, takeElement, hk, hw, hf]
      · simp [takeCall, takeElement, hk, hw, hf]
    · simp [takeCall, takeElement, hk, hw]
  | calltoken =>
    by_cases hf : f = .calltoken
    · simp [takeCall, takeElement, hk, hf]
    · simp [takeCall, takeElement, hk, hf]
  | word g width =>
    obtain ⟨w, hw⟩ := takeCall_word ies mem data hk
    simp [hw]
  | osptoken =>
    obtain ⟨b, l, hw⟩ := takeCall_osptoken ies mem data hk
    simp [hw]
  | _ => simp [takeCall, takeElement, hk]

theorem block_takeCall (f : BlockField) :
    (takeCall ies mem data call).block f =
        ((call.block? f).map fun _ => data + 2).or (ies.block f) ∧
      (takeCall ies mem data call).blocklen f =
        ((call.block? f).map List.length).getD (ies.blocklen f) := by
  unfold Call.block?
  cases h : ieKind call.ie with
  | block g =>
    by_cases hg : g = f
    · simp [takeCall, takeElement, h, hg]
    · have hne : f ≠ g := Ne.symm hg
      simp [takeCall, takeElement, h, hg, hne]
  | word g width =>
    obtain ⟨w, hw⟩ := takeCall_word ies mem data h
    simp [hw]
  | provver =>
    obtain ⟨fl, w, hw⟩ := takeCall_provver ies mem data h
    simp [hw]
  | osptoken =>
    obtain ⟨b, l, hw⟩ := takeCall_osptoken ies mem data h
    simp [hw]
  | _ => simp [takeCall, takeElement, h]

theorem token_takeCall :
    (takeCall ies mem data call).calltokendata =
      (call.tokenData?.map fun _ => data + 2).or ies.calltokendata := by
  unfold Call.tokenData? Call.token?
  cases h : ieKind call.ie with
  | calltoken =>
    cases hp : call.payload with
    | nil => simp [takeCall, takeElement, h, hp, Option.filter]
    | cons c l => simp [takeCall, takeElement, h, hp, Option.filter]
  | word g width =>
    obtain ⟨w, hw⟩ := takeCall_word ies mem data h
    simp [hw]
  | provver =>
    obtain ⟨fl, w, hw⟩ := takeCall_provver ies mem data h
    simp [hw]
  | osptoken =>
    obtain ⟨b, l, hw⟩ := takeCall_osptoken ies mem data h
    simp [hw]
  | _ => simp [takeCall, takeElement, h]

theorem vars_takeCall (h : StandsAt mem data call) :
    (takeCall ies mem data call).vars =
      (call.var?.map (assignVariable ies.vars)).getD ies.vars := by
  have hpay := h.payload
  unfold Call.var?
  cases hk : ieKind call.ie with
  | var => simp [takeCall, takeElement, hk, copyString, hpay]
  | word g width =>
    obtain ⟨w, hw⟩ := takeCall_word ies mem data hk
    simp [hw]
  | provver =>
    obtain ⟨fl, w, hw⟩ := takeCall_provver ies mem data hk
    simp [hw]
  | osptoken =>
    obtain ⟨b, l, hw⟩ := takeCall_osptoken ies mem data hk
    simp [hw]
  | _ => simp [takeCall, takeElement, hk]

/-- An OSP token that has its index sets the block of the index. -/
theorem osp_takeCall (h : StandsAt mem data call) (i : Fin 4)
    (hne : ieKind call.ie = .osptoken → call.payload ≠ []) :
    (takeCall ies mem data call).osptokenblock i =
        ((call.osp? i).map fun _ => data + 3).or (ies.osptokenblock i) ∧
      (takeCall ies mem data call).ospblocklength i =
        ((call.osp? i).map List.length).getD (ies.ospblocklength i) := by
  have hlen := (mem (data + 1)).isLt
  have hl := h.len
  have hpay := h.payload
  unfold Call.osp?
  cases hk : ieKind call.ie with
  | osptoken =>
    cases hp : call.payload with
    | nil => exact absurd hp (hne hk)
    | cons c block =>
      rw [hp] at hl hpay
      have hc : mem (data + 2) = c := by
        simp only [octets, List.length_cons, List.range_succ_eq_map, List.map_cons,
          List.cons.injEq] at hpay
        exact hpay.1
      rw [List.length_cons] at hl
      have hmod : (block.length + 1 + (2 ^ 32 - 1)) % 2 ^ 32 = block.length := by omega
      unfold takeCall takeElement
      simp only [hk, hp, hc, List.length_cons, hmod]
      by_cases hi : c.toNat = i
      · have h4 : c.toNat < 4 := by omega
        have hii : (⟨c.toNat, h4⟩ : Fin 4) = i := Fin.ext hi
        rw [dif_pos h4, if_pos hi, hii]
        simp
      · rw [if_neg hi]
        split_ifs with h4
        · have hii : i ≠ ⟨c.toNat, h4⟩ := fun hx => hi (congrArg Fin.val hx).symm
          simp [hii]
        · simp
  | word g width =>
    obtain ⟨w, hw⟩ := takeCall_word ies mem data hk
    simp [hw]
  | provver =>
    obtain ⟨fl, w, hw⟩ := takeCall_provver ies mem data hk
    simp [hw]
  | _ => simp [takeCall, takeElement, hk]

end Iax

end Trismedia
