import Trismedia.Isup.Digits
/-!
# A number there and back

The three encoders of `channels/ss7/l4isup.c` and the decoder of
`channels/ss7/isup.c`. An encoder writes to an array on the stack, so an octet
is defined if it is the same whatever the array held. The called party number
is one digit longer than it is, for an ST that is not sent where the linkset
is of that kind.
-/


namespace Trismedia

namespace Isup

open Mtp2 CString

/-! ## What is asked -/

/-- The encoders, one with its presentation and screening. -/
inductive Encoder
  | called
  | calledNoSt
  | calling (presRestr : Bool) (si : Octet)

/-- The number encoded to an array. -/
def Encoder.encode : Encoder → Bool → CString → List Octet → Option (List Octet)
  | .called, isMd, number, param => isupCalledPartyNumEncode isMd number param
  | .calledNoSt, isMd, number, param => isupCalledPartyNumEncodeNoSt isMd number param
  | .calling presRestr si, isMd, number, param =>
    isupCallingPartyNumEncode isMd (some number) presRestr si param

/-- The digits that a number may have. -/
def numberDigits : CString := str "0123456789bBcCeE"

/-- The number as it is to be decoded: its prefix as `00`, its letters in upper
case. -/
def asDecoded (intlPrefix number : CString) : CString :=
  (if intlPrefix = [] then [] else str "00") ++ number.map toupper

/-- **A number comes back**: the octets are the same over any array, the number
is decoded of them, and it is complete if there is an ST among the digits. -/
def Encoder.Returns (e : Encoder) (isMd : Bool) (intlPrefix number : CString) : Prop :=
  ∃ p : List Octet,
    (∀ param : List Octet, param.length = 2 + phonenumMax →
      e.encode isMd (intlPrefix ++ number) param = some p) ∧
    ∀ withPresentationRestrict, ∃ n, decodeIsupPhonenum withPresentationRestrict p = some n ∧
      n.num = asDecoded intlPrefix number ∧ (n.complete = true ↔ 0xf ∈ halves (p.drop 2))

/-- No ST that is not sent is counted; without one, the number is not only the
prefix `00`; and a presentation is not that of an address not available. -/
def Encoder.Meets : Encoder → Bool → CString → CString → Prop
  | .called, isMd, _, _ => isMd = false
  | .calledNoSt, _, intlPrefix, number => ¬(intlPrefix = [] ∧ number = str "00")
  | .calling presRestr si, _, intlPrefix, number =>
    ¬(intlPrefix = [] ∧ number = str "00") ∧
      ((if presRestr then (0x10 ||| si) ||| 0x04 else 0x10 ||| si).toNat >>> 2) &&& 0x3 ≠ 2

/-! ## The digits -/

variable {intlPrefix number digits : CString} {isMd isInternational : Bool} {ds : List ℕ}
variable {second : Octet} {e : Encoder}

theorem digitOf_numberDigits : ∀ c ∈ numberDigits,
    (digitOf c).any (fun d => decide (d < 15 ∧ digitChar d = toupper c)) = true ∧ c ≠ chr '+' := by
  decide

/-- **The digits of a number**, with the characters they are decoded to. -/
theorem mapM_numberDigits (h : ∀ c ∈ digits, c ∈ numberDigits) :
    ∃ ds, digits.mapM digitOf = some ds ∧ (∀ d ∈ ds, d < 15) ∧
      ds.map digitChar = digits.map toupper := by
  induction digits with
  | nil => exact ⟨[], rfl, fun d hd => absurd hd List.not_mem_nil, rfl⟩
  | cons c digits ih =>
    obtain ⟨hc, hrest⟩ := List.forall_mem_cons.1 h
    obtain ⟨ds, hds, hlt, hback⟩ := ih hrest
    obtain ⟨d, hd, hgood⟩ := (Option.any_eq_true _ _).1 (digitOf_numberDigits c hc).1
    obtain ⟨hdlt, hchar⟩ := of_decide_eq_true hgood
    refine ⟨d :: ds, ?_, List.forall_mem_cons.2 ⟨hdlt, hlt⟩, ?_⟩
    · rw [List.mapM_cons, hd, hds]
      rfl
    · rw [List.map_cons, List.map_cons, hchar, hback]

/-- **What is left of the number** behind its prefix. -/
theorem check_number (hpre : intlPrefix = [] ∨ intlPrefix = str "+" ∨ intlPrefix = str "00")
    (hne : number ≠ []) (hdigits : ∀ c ∈ number, c ∈ numberDigits) :
    ∃ digits isInternational,
      isupPhonenumCheck (some (intlPrefix ++ number)) = some (digits, isInternational) ∧
        (∀ c ∈ digits, c ∈ numberDigits) ∧ digits.length ≤ number.length ∧
        (if isInternational then str "00" else []) ++ digits.map toupper =
          asDecoded intlPrefix number ∧
        (digits = [] ↔ intlPrefix = [] ∧ number = str "00") := by
  rcases hpre with rfl | rfl | rfl
  · have hlen : ¬([] ++ number).length = 0 := fun h => hne (List.length_eq_zero_iff.1 h)
    by_cases hzeros : number.take 2 = str "00"
    · have hsplit : number = str "00" ++ number.drop 2 := by
        rw [← hzeros, List.take_append_drop]
      refine ⟨number.drop 2, true, ?_, fun c hc => hdigits c (List.mem_of_mem_drop hc), ?_, ?_, ?_⟩
      · rw [isupPhonenumCheck, if_neg hlen, List.nil_append, if_pos hzeros]
      · rw [List.length_drop]
        omega
      · have hupper : (str "00").map toupper = str "00" := by decide
        have hmap := congrArg (List.map toupper) hsplit
        rw [List.map_append, hupper] at hmap
        exact hmap.symm
      · constructor
        · intro hnil
          rw [hnil, List.append_nil] at hsplit
          exact ⟨rfl, hsplit⟩
        · rintro ⟨-, rfl⟩
          rfl
    · have hplus : ¬number.take 1 = str "+" := by
        intro h
        have hmem : chr '+' ∈ number.take 1 := by
          rw [h]
          exact List.mem_cons_self
        exact (digitOf_numberDigits _ (hdigits _ (List.mem_of_mem_take hmem))).2 rfl
      refine ⟨number, false, ?_, hdigits, le_refl _, rfl, ?_⟩
      · rw [isupPhonenumCheck, if_neg hlen, List.nil_append, if_neg hzeros, if_neg hplus]
      · refine iff_of_false hne fun h => hzeros ?_
        rw [h.2]
        rfl
  · refine ⟨number, true, rfl, hdigits, le_refl _, rfl, iff_of_false hne fun h => ?_⟩
    exact absurd h.1 (by decide)
  · refine ⟨number, true, rfl, hdigits, le_refl _, rfl, iff_of_false hne fun h => ?_⟩
    exact absurd h.1 (by decide)

/-! ## Each way to encode -/

section Ways

variable (hcheck : isupPhonenumCheck (some (intlPrefix ++ number)) = some (digits, isInternational))
  (hds : digits.mapM digitOf = some ds) (hlt : ∀ d ∈ ds, d < 15)
  (hback : (if isInternational then str "00" else []) ++ ds.map digitChar =
    asDecoded intlPrefix number)
  (hfew : digits.length ≤ 17)

include hcheck hds hlt hback hfew

/-- With an ST the number comes back. -/
theorem returns_st : (∃ p : List Octet,
    (∀ param : List Octet, param.length = 2 + phonenumMax →
      phonenumEncode isMd true 1 0x10 (some (intlPrefix ++ number)) param = some p) ∧
    ∀ withPresentationRestrict, ∃ n, decodeIsupPhonenum withPresentationRestrict p = some n ∧
      n.num = asDecoded intlPrefix number ∧ (n.complete = true ↔ 0xf ∈ halves (p.drop 2))) := by
  have hencode : ∀ param : List Octet, param.length = 2 + phonenumMax → _ :=
    fun param hparam => @phonenumEncode_st ds param _ digits isMd isInternational 0x10 hcheck hds hlt
      hparam hfew
  have hlength := length_of_mapM hds
  obtain ⟨-, hlen, tail, hhalves⟩ := hencode (List.replicate 22 0) rfl
  refine ⟨_, fun param hparam => (hencode param hparam).1, fun withPresentationRestrict => ?_⟩
  obtain ⟨n, hdecode, hnum, hcomplete⟩ := @decodeIsupPhonenum_eq _ _ isMd isInternational 0x10
    withPresentationRestrict hlen (by omega)
  have hshown : presentation withPresentationRestrict 0x10 = false := by
    cases withPresentationRestrict <;> rfl
  have hmem : 0xf ∈ (ds ++ 0xf :: tail).take (digits.length + 1) := by
    rw [List.take_append, hlength, List.take_of_length_le (by omega), Nat.add_sub_cancel_left,
      List.take_succ_cons]
    exact List.mem_append_right _ List.mem_cons_self
  have hall : 0xf ∈ ds ++ 0xf :: tail := List.mem_append_right _ List.mem_cons_self
  refine ⟨n, hdecode, ?_, ?_⟩
  · rw [hnum, if_neg (by omega), hhalves, read_st hlt (by omega), hback]
  · rw [hcomplete, hshown, hhalves, decide_eq_true hmem]
    refine iff_of_true rfl ?_
    rw [← hhalves] at hall
    exact hall

/-- Without one it does if there is a digit, and the presentation does not say
that it is complete. -/
theorem returns_noSt_iff (hne : number ≠ []) : (∃ p : List Octet,
    (∀ param : List Octet, param.length = 2 + phonenumMax →
      phonenumEncode isMd false 0 second (some (intlPrefix ++ number)) param = some p) ∧
    ∀ withPresentationRestrict, ∃ n, decodeIsupPhonenum withPresentationRestrict p = some n ∧
      n.num = asDecoded intlPrefix number ∧ (n.complete = true ↔ 0xf ∈ halves (p.drop 2))) ↔
    digits ≠ [] ∧ (second.toNat >>> 2) &&& 0x3 ≠ 2 := by
  have hencode : ∀ param : List Octet, param.length = 2 + phonenumMax →
      phonenumEncode isMd false 0 second (some (intlPrefix ++ number)) param =
        some (firstOctet ((digits.length + 0) % 2) (natureSent isMd isInternational) ::
          second :: pack ds) := by
    intro param hparam
    obtain ⟨q, n, hq, -, -, hpack⟩ := @phonenumEncode_noSt ds param _ digits isMd isInternational 0
      second hcheck hds hlt hparam hfew (Nat.zero_le _) (Or.inl rfl)
    rw [hq, hpack rfl]
  have hlength := length_of_mapM hds
  have hsmall : ∀ d ∈ ds, d < 16 := by
    intro d hd
    have := hlt d hd
    omega
  have hhalves := halves_pack hsmall
  have hlen : (pack ds).length = (digits.length + 0 + 1) / 2 := by
    rw [length_pack, hlength, Nat.add_zero]
  have hnot : 0xf ∉ halves (pack ds) := by
    rw [hhalves]
    intro hmem
    rcases List.mem_append.1 hmem with hd | hzero
    · have := hlt _ hd
      omega
    · exact absurd (List.eq_of_mem_replicate hzero) (by decide)
  have hdecode : ∀ withPresentationRestrict, ∃ n, decodeIsupPhonenum withPresentationRestrict
      (firstOctet ((digits.length + 0) % 2) (natureSent isMd isInternational) ::
        second :: pack ds) = some n ∧
      n.num = (if digits = [] then [] else asDecoded intlPrefix number) ∧
      n.complete = presentation withPresentationRestrict second := by
    intro withPresentationRestrict
    obtain ⟨n, hdecode, hnum, hcomplete⟩ := @decodeIsupPhonenum_eq _ _ isMd isInternational second
      withPresentationRestrict hlen (by omega)
    refine ⟨n, hdecode, ?_, ?_⟩
    · have hread := @read_zeros ds (digits.length + 0) (ds.length % 2) hlt (by omega) (by omega)
      have hzero : digits.length + 0 - ds.length = 0 := by omega
      rw [hzero, List.replicate_zero, List.append_nil, Nat.add_zero] at hread
      rw [hnum, hhalves, hread, hback]
      simp
    · have hsub : ¬0xf ∈ (halves (pack ds)).take digits.length :=
        fun h => hnot (List.mem_of_mem_take h)
      rw [hcomplete, decide_eq_false hsub, Bool.or_false]
  have hdrop : ∀ x : Octet, (x :: second :: pack ds).drop 2 = pack ds := fun _ => rfl
  constructor
  · rintro ⟨p, hp, hall⟩
    obtain rfl := Option.some.inj ((hencode _ (List.length_replicate (n := 22) (a := 0))).symm.trans
      (hp _ List.length_replicate))
    constructor
    · rintro rfl
      obtain ⟨n, hn, hnum, -⟩ := hdecode false
      obtain ⟨n', hn', hnum', -⟩ := hall false
      obtain rfl := Option.some.inj (hn.symm.trans hn')
      rw [if_pos rfl, hnum'] at hnum
      exact hne (List.map_eq_nil_iff.1 (List.append_eq_nil_iff.1 hnum).2)
    · intro hshown
      obtain ⟨n, hn, -, hcomplete⟩ := hdecode true
      obtain ⟨n', hn', -, hiff⟩ := hall true
      obtain rfl := Option.some.inj (hn.symm.trans hn')
      have hpresent : presentation true second = true := decide_eq_true hshown
      rw [hdrop] at hiff
      exact hnot (hiff.1 (hcomplete.trans hpresent))
  · rintro ⟨hsome, hshown⟩
    refine ⟨_, hencode, fun withPresentationRestrict => ?_⟩
    obtain ⟨n, hn, hnum, hcomplete⟩ := hdecode withPresentationRestrict
    have hpresent : presentation withPresentationRestrict second = false := by
      rw [presentation, decide_eq_false hshown, Bool.and_false]
    refine ⟨n, hn, ?_, ?_⟩
    · rw [hnum, if_neg hsome]
    · rw [hcomplete, hpresent, hdrop]
      exact iff_of_false Bool.false_ne_true hnot

/-- With an ST counted that is not sent it does not. -/
theorem not_returns_counted : ¬∃ p : List Octet,
    (∀ param : List Octet, param.length = 2 + phonenumMax →
      phonenumEncode isMd false 1 0x10 (some (intlPrefix ++ number)) param = some p) ∧
    ∀ withPresentationRestrict, ∃ n, decodeIsupPhonenum withPresentationRestrict p = some n ∧
      n.num = asDecoded intlPrefix number ∧ (n.complete = true ↔ 0xf ∈ halves (p.drop 2)) := by
  rintro ⟨p, hp, hall⟩
  -- over an array that is clear there is a 0 more
  obtain ⟨q, m, hq, hlen, hhalves, -⟩ := @phonenumEncode_noSt ds (List.replicate 22 0) _ digits isMd
    isInternational 1 0x10 hcheck hds hlt rfl hfew le_rfl
    (Or.inr fun o ho => List.eq_of_mem_replicate ho)
  obtain rfl := Option.some.inj (hq.symm.trans (hp _ rfl))
  obtain ⟨n, hn, hnum, -⟩ := @decodeIsupPhonenum_eq q _ isMd isInternational 0x10 false hlen
    (by omega)
  obtain ⟨n', hn', hnum', -⟩ := hall false
  obtain rfl := Option.some.inj (hn.symm.trans hn')
  have hlength := length_of_mapM hds
  have hcount := congrArg List.length hhalves
  rw [length_halves, hlen, List.length_append, List.length_replicate] at hcount
  have hmore : digits.length + 1 - ds.length = 1 := by omega
  rw [if_neg (by omega), hhalves, read_zeros hlt (by omega) (by omega), hmore, List.map_append,
    ← List.append_assoc, hback] at hnum
  have hsame := congrArg List.length (hnum.symm.trans hnum')
  rw [List.length_append] at hsame
  exact absurd hsame (by simp)

end Ways

/-! ## All of them -/

/-- **Exactly when a number comes back.** -/
theorem returns_iff (e : Encoder) (isMd : Bool) (intlPrefix number : CString)
    (hpre : intlPrefix = [] ∨ intlPrefix = str "+" ∨ intlPrefix = str "00")
    (hne : 1 ≤ number.length) (hfew : number.length ≤ 17)
    (hdigits : ∀ c ∈ number, c ∈ numberDigits) :
    e.Returns isMd intlPrefix number ↔ e.Meets isMd intlPrefix number := by
  have hsome : number ≠ [] := List.ne_nil_of_length_pos hne
  obtain ⟨digits, isInternational, hcheck, hall, hshort, hfront, hnil⟩ :=
    check_number hpre hsome hdigits
  obtain ⟨ds, hds, hlt, hchars⟩ := mapM_numberDigits hall
  rw [← hchars] at hfront
  have hle := hshort.trans hfew
  cases e with
  | called =>
    cases isMd with
    | false => exact iff_of_true (returns_st hcheck hds hlt hfront hle) rfl
    | true =>
      exact iff_of_false (not_returns_counted hcheck hds hlt hfront hle) Bool.noConfusion
  | calledNoSt =>
    refine (returns_noSt_iff hcheck hds hlt hfront hle hsome).trans ?_
    rw [Ne, hnil]
    exact and_iff_left (by decide)
  | calling presRestr si =>
    refine (returns_noSt_iff hcheck hds hlt hfront hle hsome).trans ?_
    rw [Ne, hnil]
    exact Iff.rfl

theorem returns_iff_letters : (str "+" = str "+" ∧ 1 ≤ (str "12b").length ∧
      (str "12b").length ≤ 17 ∧ ∀ c ∈ str "12b", c ∈ numberDigits) ∧
    (Encoder.called.Returns false (str "+") (str "12b") ↔
      Encoder.called.Meets false (str "+") (str "12b")) :=
  ⟨by decide, returns_iff .called false (str "+") (str "12b") (Or.inr (Or.inl rfl)) (by decide)
    (by decide) (by decide)⟩

/-- `5` is decoded as `50` where the ST is not sent. -/
theorem not_returns : ¬∀ (e : Encoder) (isMd : Bool) (intlPrefix number : CString),
    (intlPrefix = [] ∨ intlPrefix = str "+" ∨ intlPrefix = str "00") → 1 ≤ number.length →
      number.length ≤ 17 → (∀ c ∈ number, c ∈ numberDigits) → e.Returns isMd intlPrefix number := by
  intro hall
  obtain ⟨p, hp, hdecode⟩ := hall .called true [] (str "5") (Or.inl rfl) (by decide) (by decide)
    (by decide)
  have hoctets : Encoder.called.encode true ([] ++ str "5") (List.replicate 22 0) =
      some [0x01, 0x10, 0x05] := by decide
  obtain rfl := Option.some.inj ((hp _ List.length_replicate).symm.trans hoctets)
  obtain ⟨n, hn, hnum, -⟩ := hdecode false
  have hback : decodeIsupPhonenum false [0x01, 0x10, 0x05] =
      some { present := true, num := str "50" } := by decide
  obtain rfl := Option.some.inj (hn.symm.trans hback)
  exact absurd hnum (by decide)

end Isup

end Trismedia
