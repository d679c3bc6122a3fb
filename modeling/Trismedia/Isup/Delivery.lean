import Trismedia.Isup.Call
import Trismedia.Isup.Digits
/-!
# What arrives of the messages of a call

An IAM and an SAM are decoded to what was encoded in them: the number of the
IAM is what `decode_isup_phonenum` makes of its octets, whatever the optional
parameters are, and that of an SAM what `decode_isup_sni` makes of its own, with
the 0 that ends an optional part the message does not have.
-/


namespace Trismedia

namespace Isup

open Mtp2 CString

variable {s : Setup} {stack : Stack} {called p q : List Octet} {rdni : CString}

/-! ## Other numbers -/

theorem putDigit_keeps (param : List Octet) (i d : ℕ) :
    (putDigit param i d).length = param.length ∧ (putDigit param i d).take 2 = param.take 2 := by
  unfold putDigit
  split_ifs
  · exact ⟨List.length_set, List.take_set_of_le (Nat.le_add_right 2 _)⟩
  · exact ⟨List.length_set, List.take_set_of_le (Nat.le_add_right 2 _)⟩

theorem isupPhonenumDigits_keeps {addSt : Bool} {number : CString} : ∀ {i : ℕ} {param : List Octet},
    isupPhonenumDigits addSt number i param = some q →
      q.length = param.length ∧ q.take 2 = param.take 2 := by
  induction number with
  | nil =>
    intro i param h
    rw [isupPhonenumDigits, Option.some.injEq] at h
    rw [← h]
    split_ifs
    · exact putDigit_keeps param i 0xf
    · exact ⟨rfl, rfl⟩
  | cons c number ih =>
    intro i param h
    obtain ⟨d, -, h⟩ := Option.bind_eq_some_iff.1 h
    obtain ⟨hlen, htake⟩ := ih h
    obtain ⟨hlen', htake'⟩ := putDigit_keeps param i d
    exact ⟨hlen.trans hlen', htake.trans htake'⟩

/-- **Any number encoded** is one that its decoder accepts. -/
theorem phonenumEncode_accepted {isMd addSt : Bool} {counted : ℕ} {second : Octet}
    {number : Option CString} {param : List Octet} (hparam : param.length = 2 + phonenumMax)
    (h : phonenumEncode isMd addSt counted second number param = some p) :
    p.length ≤ 22 ∧ ∀ restrict, (decodeIsupPhonenum restrict p).isSome = true := by
  obtain ⟨⟨digits, isInternational⟩, -, h⟩ := Option.bind_eq_some_iff.1 h
  by_cases hlong : 2 + (digits.length + counted + 1) / 2 > param.length
  · exact absurd ((if_pos hlong).symm.trans h) (Option.some_ne_none p).symm
  replace h := (if_neg hlong).symm.trans h
  obtain ⟨array, harray, rfl⟩ := Option.map_eq_some_iff.1 h
  obtain ⟨hlen, htake⟩ := isupPhonenumDigits_keeps harray
  obtain ⟨a, b, rest, rfl⟩ : ∃ a b rest, param = a :: b :: rest :=
    match param, hparam with
    | a :: b :: rest, _ => ⟨a, b, rest, rfl⟩
  obtain ⟨x, y, array, rfl⟩ : ∃ x y rest, array = x :: y :: rest :=
    match array, hlen with
    | x :: y :: rest, _ => ⟨x, y, rest, rfl⟩
  obtain ⟨rfl, rfl⟩ : x = firstOctet ((digits.length + counted) % 2)
      (natureSent isMd isInternational) ∧ y = second := by
    simpa [firstOctet, natureSent] using htake
  have htwo : 2 + (digits.length + counted + 1) / 2 = (digits.length + counted + 1) / 2 + 1 + 1 := by
    omega
  have hmod : (digits.length + counted) % 2 < 2 := Nat.mod_lt _ Nat.two_pos
  obtain ⟨hnature, -⟩ := firstOctet_odd hmod
    (natureSent_lt isMd isInternational)
  rw [htwo, List.take_succ_cons, List.take_succ_cons]
  refine ⟨?_, fun restrict => ?_⟩
  · rw [hparam] at hlong
    simp only [List.length_cons, List.length_take, phonenumMax] at hlong ⊢
    omega
  · unfold decodeIsupPhonenum
    rw [if_neg (by simp)]
    simp only [List.getD_cons_zero, hnature]
    -- the natures that are sent are known to the decoder
    have hknown : ¬(natureSent isMd isInternational = 0x70 ∨ natureSent isMd isInternational = 0x03 ∨
        natureSent isMd isInternational = 0x01) → natureSent isMd isInternational = 0x02 ∨
          natureSent isMd isInternational = 0x04 := by
      cases isMd <;> cases isInternational <;> decide
    by_cases hnational : natureSent isMd isInternational = 0x70 ∨
        natureSent isMd isInternational = 0x03 ∨ natureSent isMd isInternational = 0x01
    · simp only [if_pos hnational]
      split_ifs <;> rfl
    · simp only [if_neg hnational, if_pos (hknown hnational)]
      split_ifs <;> rfl

/-! ## The IAM -/

/-- An optional parameter of the IAM, if its number was encoded. -/
def encodedParam (code : ParameterCode) (d : IamDecoder) :
    Option (List Octet) → List (Param IamDecoder)
  | none => []
  | some p => [⟨code, p, some d⟩]

/-- The optional part of the IAM. -/
def iamOptional (s : Setup) (stack : Stack) (rdni : CString) : List (Param IamDecoder) :=
  encodedParam .callingPartyNumber .ani
      (isupCallingPartyNumEncode s.isMd s.cidNum s.presRestr 0x3 stack.param) ++
    (if s.h324mUsi then [⟨.userServiceInformation, [0x88, 0x90, 0xA6], none⟩] else []) ++
    (if s.h324mLlc then [⟨.accessTransport, [0x7C, 0x03, 0x88, 0x90, 0xA6], none⟩] else []) ++
    if rdni.length > 0 then
      encodedParam .redirectingNumber .rni
          (isupCallingPartyNumEncode s.isMd (some rdni) s.presRestr 0 stack.param) ++
        [⟨.redirectionInformation, [0x04, 0x31], some .redirInf⟩]
    else []

/-- The IAM with the called party number `called`. -/
def iamMessage (s : Setup) (stack : Stack) (rdni : CString) (called : List Octet) :
    Message IamDecoder where
  variant := s.variant
  opc := s.opc
  dpc := s.peerpc
  cic := s.cic
  typ := isupIam
  fixed :=
    [⟨.natureOfConnectionIndicators, [0x00], some .nociContcheck⟩,
      ⟨.forwardCallIndicators, [if s.h324mUsi || s.h324mLlc then 0xA0 else 0x60, 0x01], none⟩,
      ⟨.callingPartysCategory, [0x0a], none⟩,
      ⟨.transmissionMediumRequirement, [if s.h324mUsi || s.h324mLlc then 0x02 else 0x00],
        some .transmissionMedium⟩]
  varying := [⟨.calledPartyNumber, called, some .dni⟩]
  optionalAllowed := true
  started := true
  optional := iamOptional s stack rdni

/-- The called party number of the IAM. -/
def encodedDni (s : Setup) (stack : Stack) (dni : CString) (dnilimit : ℕ) : Option (List Octet) :=
  if dnilimit > 0 ∧ dni.length > dnilimit then
    isupCalledPartyNumEncodeNoSt s.isMd
      (stringIn ((strncpy stack.iamDnicpy dni dnilimit).set dnilimit 0)) stack.param
  else if s.isSt then isupCalledPartyNumEncode s.isMd dni stack.param
  else isupCalledPartyNumEncodeNoSt s.isMd dni stack.param

theorem addEncoded_eq (b : Building) (code : ParameterCode) (d : IamDecoder)
    (o : Option (List Octet)) : addEncoded b code o =
      (encodedParam code d o).foldl (fun b p => isupMsgAddOptional mtpMaxPckSize b p.code p.data) b := by
  cases o <;> rfl

theorem isupSendIam_eq (s : Setup) (stack : Stack) (dni rdni : CString) (dnilimit : ℕ) :
    isupSendIam s stack dni rdni dnilimit =
      (encodedDni s stack dni dnilimit).map fun called =>
        (iamMessage s stack rdni called).build mtpMaxPckSize := by
  unfold isupSendIam encodedDni
  refine Option.map_congr fun called _ => ?_
  simp only [Message.build, iamMessage, iamOptional, reduceIte,
    addEncoded_eq _ .callingPartyNumber .ani, addEncoded_eq _ .redirectingNumber .rni]
  split_ifs <;> simp only [List.foldl_append, List.foldl_cons, List.foldl_nil, List.length_singleton]

/-- What is in the optional part. -/
theorem mem_iamOptional {o : Param IamDecoder} (h : o ∈ iamOptional s stack rdni) :
    o.data.length ≤ 22 ∧
      ((iamSignature.optional.find? fun d => d.1.code = o.code.code).bind Prod.snd = o.decoder) ∧
        ∀ d, o.decoder = some d → d ≠ .dni ∧ (d.decode o.data {}).isSome = true := by
  have hnumber : ∀ (code : ParameterCode) (d : IamDecoder) (number : Option CString) (si : Octet),
      ((iamSignature.optional.find? fun d => d.1.code = code.code).bind Prod.snd = some d) →
        d ≠ .dni → (∀ p, (decodeIsupPhonenum true p).isSome = true → (d.decode p {}).isSome = true) →
          o ∈ encodedParam code d
            (isupCallingPartyNumEncode s.isMd number s.presRestr si stack.param) →
            o.data.length ≤ 22 ∧
              ((iamSignature.optional.find? fun d => d.1.code = o.code.code).bind Prod.snd =
                o.decoder) ∧
                ∀ d, o.decoder = some d → d ≠ .dni ∧ (d.decode o.data {}).isSome = true := by
    intro code d number si hfind hne hdecode ho
    cases hp : isupCallingPartyNumEncode s.isMd number s.presRestr si stack.param with
    | none =>
      rw [hp] at ho
      exact absurd ho List.not_mem_nil
    | some p =>
      rw [hp] at ho
      obtain rfl := List.mem_singleton.1 ho
      simp only [isupCallingPartyNumEncode] at hp
      obtain ⟨hlen, haccepted⟩ := phonenumEncode_accepted stack.length_param hp
      refine ⟨hlen, hfind, fun d' hd' => ?_⟩
      obtain rfl := Option.some.inj hd'
      exact ⟨hne, hdecode p (haccepted true)⟩
  have hmap : ∀ (p : List Octet) (f : IsupPhonenum → Iam),
      (decodeIsupPhonenum true p).isSome = true →
        ((decodeIsupPhonenum true p).map f).isSome = true := by
    intro p f hp
    rwa [Option.isSome_map]
  unfold iamOptional at h
  simp only [List.mem_append] at h
  rcases h with ((h | h) | h) | h
  · exact hnumber _ .ani _ _ (by decide) (by decide) (fun p hp => hmap p _ hp) h
  · split_ifs at h
    · obtain rfl := List.mem_singleton.1 h
      exact ⟨by decide, by decide, fun d hd => absurd hd (Option.some_ne_none d).symm⟩
    · exact absurd h List.not_mem_nil
  · split_ifs at h
    · obtain rfl := List.mem_singleton.1 h
      exact ⟨by decide, by decide, fun d hd => absurd hd (Option.some_ne_none d).symm⟩
    · exact absurd h List.not_mem_nil
  · split_ifs at h
    · rcases List.mem_append.1 h with h | h
      · exact hnumber _ .rni _ _ (by decide) (by decide) (fun p hp => hmap p _ hp) h
      · obtain rfl := List.mem_singleton.1 h
        refine ⟨by decide, by decide, fun d hd => ?_⟩
        obtain rfl := Option.some.inj hd
        exact ⟨by decide, by decide⟩
    · exact absurd h List.not_mem_nil

theorem length_iamOptional (s : Setup) (stack : Stack) (rdni : CString) :
    (iamOptional s stack rdni).length ≤ 5 := by
  have hone : ∀ code d o, (encodedParam code d o).length ≤ 1 := by
    intro code d o
    cases o <;> simp [encodedParam]
  have hani := hone .callingPartyNumber .ani
    (isupCallingPartyNumEncode s.isMd s.cidNum s.presRestr 0x3 stack.param)
  have hrni := hone .redirectingNumber .rni
    (isupCallingPartyNumEncode s.isMd (some rdni) s.presRestr 0 stack.param)
  unfold iamOptional
  split_ifs <;> simp only [List.length_append, List.length_singleton, List.length_nil] <;> omega

theorem length_optionalOctets {ps : List (Param IamDecoder)} (h : ∀ o ∈ ps, o.data.length ≤ 22) :
    (optionalOctets ps).length ≤ 24 * ps.length := by
  induction ps with
  | nil => exact le_rfl
  | cons o ps ih =>
    obtain ⟨ho, hps⟩ := List.forall_mem_cons.1 h
    have hcons : optionalOctets (o :: ps) =
        (o.code.code :: UInt8.ofNat o.data.length :: o.data) ++ optionalOctets ps := rfl
    rw [hcons, List.length_append, List.length_cons, List.length_cons, List.length_cons]
    have := ih hps
    omega

theorem iamMessage_valid (hcalled : called.length ≤ 22) : (iamMessage s stack rdni called).Valid where
  opc_lt := s.opc_lt
  dpc_lt := s.peerpc_lt
  cic_lt := s.cic_lt
  short := by
    intro o ho
    simp only [iamMessage, List.mem_append, List.mem_cons, List.not_mem_nil, or_false] at ho
    rcases ho with ((rfl | rfl | rfl | rfl) | rfl) | ho
    · exact Nat.le_of_ble_eq_true rfl
    · exact Nat.le_of_ble_eq_true rfl
    · exact Nat.le_of_ble_eq_true rfl
    · exact Nat.le_of_ble_eq_true rfl
    · exact hcalled.trans (by omega)
    · exact (mem_iamOptional ho).1.trans (by omega)
  pointer_le := by
    intro x hx
    obtain rfl := List.mem_singleton.1 hx
    exact Nat.le_of_ble_eq_true rfl
  optional_le := by
    intro _
    have hlen : (fixedOctets (iamMessage s stack rdni called).varying).length = called.length := by
      simp [iamMessage, fixedOctets]
    have hslots : (iamMessage s stack rdni called).slots = 2 := rfl
    unfold nextPointer
    omega
  started := fun _ => rfl
  allowed := fun _ => rfl

theorem iamMessage_room (hcalled : called.length ≤ 22) :
    ((iamMessage s stack rdni called).label ++ (iamMessage s stack rdni called).body).length ≤
      mtpMaxPckSize := by
  have hlabel : (iamMessage s stack rdni called).label.length ≤ 10 := by
    unfold Message.label
    cases (iamMessage s stack rdni called).variant <;> simp [mtp3PutLabel]
  have hoptional := length_optionalOctets fun o (ho : o ∈ iamOptional s stack rdni) =>
    (mem_iamOptional ho).1
  have hfew := length_iamOptional s stack rdni
  have hbody : (iamMessage s stack rdni called).body.length =
      5 + 2 + (1 + called.length + ((optionalOctets (iamOptional s stack rdni)).length + 1)) := by
    unfold Message.body Message.optionalPointer Message.optionalPart
    simp [iamMessage, fixedOctets, varyingOctets, pointers]
    omega
  rw [List.length_append, hbody, mtpMaxPckSize]
  omega

/-- The decoders behind the number leave it. -/
theorem foldl_dni (calls : List (IamDecoder × List Octet)) : ∀ iam : Iam,
    (∀ call ∈ calls, call.1 ≠ .dni) →
      (calls.foldl (fun iam call => (call.1.decode call.2 iam).getD iam) iam).dni = iam.dni := by
  have hone : ∀ (d : IamDecoder) (p : List Octet) (iam : Iam), d ≠ .dni →
      ((d.decode p iam).getD iam).dni = iam.dni := by
    intro d p iam hd
    cases d with
    | dni => exact absurd rfl hd
    | nociContcheck =>
      simp only [IamDecoder.decode]
      split_ifs <;> rfl
    | transmissionMedium =>
      simp only [IamDecoder.decode]
      split_ifs <;> rfl
    | redirInf =>
      simp only [IamDecoder.decode]
      split_ifs <;> rfl
    | ani =>
      simp only [IamDecoder.decode]
      cases decodeIsupPhonenum true p <;> rfl
    | rni =>
      simp only [IamDecoder.decode]
      cases decodeIsupPhonenum true p <;> rfl
  induction calls with
  | nil => exact fun _ _ => rfl
  | cons call calls ih =>
    intro iam h
    obtain ⟨hcall, hcalls⟩ := List.forall_mem_cons.1 h
    rw [List.foldl_cons, ih _ hcalls, hone _ _ _ hcall]

theorem sls_lt (cic : ℕ) : cic &&& 0x000f < 16 := by
  rw [Nat.and_two_pow_sub_one_eq_mod cic 4]
  omega

/-- **The IAM arrives** with the number that was encoded. -/
theorem decode_iam {n : IsupPhonenum} (hcalled : called.length ≤ 22)
    (hn : decodeIsupPhonenum false called = some n) :
    ∃ header iam, decodeIsupMsg s.variant
        ((iamMessage s stack rdni called).build mtpMaxPckSize) = some (header, .iam iam) ∧
      iam.dni = n := by
  have hvalid : (iamMessage s stack rdni called).Valid := iamMessage_valid hcalled
  have hcalls : (iamMessage s stack rdni called).calls =
      [(.nociContcheck, [0x00]),
        (.transmissionMedium, [if s.h324mUsi || s.h324mLlc then 0x02 else 0x00]),
        (.dni, called)] ++ callsOf (iamOptional s stack rdni) := by
    unfold Message.calls
    rw [callsOf_append]
    rfl
  have hoptional : ∀ call ∈ callsOf (iamOptional s stack rdni),
      call.1 ≠ .dni ∧ (call.1.decode call.2 {}).isSome = true := by
    intro call hcall
    obtain ⟨o, ho, hsome⟩ := List.mem_filterMap.1 hcall
    obtain ⟨d, hd, rfl⟩ := Option.map_eq_some_iff.1 hsome
    exact (mem_iamOptional ho).2.2 d hd
  have haccepts : ∀ call ∈ (iamMessage s stack rdni called).calls,
      (call.1.decode call.2 {}).isSome = true := by
    intro call hcall
    rw [hcalls, List.mem_append] at hcall
    rcases hcall with hcall | hcall
    · simp only [List.mem_cons, List.not_mem_nil, or_false] at hcall
      rcases hcall with rfl | rfl | rfl
      · rfl
      · rfl
      · simp [IamDecoder.decode, hn]
    · exact (hoptional call hcall).2
  have hparam := @paramDecode_body IamDecoder (fun d p => (d.decode p {}).isSome)
    (iamMessage s stack rdni called) iamSignature hvalid haccepts rfl rfl
    (fun o ho => (mem_iamOptional ho).2.1) (by decide) (fun _ => rfl)
  have hheader := decodeHeader_label s.variant isupIam (iamMessage s stack rdni called).body
    s.opc_lt s.peerpc_lt s.cic_lt (sls_lt s.cic)
  have hlabel : (iamMessage s stack rdni called).label =
      mtp3PutLabel (s.cic &&& 0x000f) s.variant s.opc s.peerpc ++
        [UInt8.ofNat (s.cic &&& 0xff), UInt8.ofNat ((s.cic &&& 0x0f00) >>> 8), isupIam] := rfl
  rw [build_eq _ hvalid (iamMessage_room hcalled), hlabel]
  unfold decodeIsupMsg
  simp only [hheader, hparam, Option.bind_eq_bind, Option.bind_some, reduceIte]
  refine ⟨_, _, rfl, ?_⟩
  rw [hcalls, List.foldl_append, foldl_dni _ _ fun call hcall => (hoptional call hcall).1]
  simp [IamDecoder.decode, hn]

/-! ## The SAM -/

/-- The label of an SAM. -/
def samLabel (s : Setup) : List Octet :=
  mtp3PutLabel (s.cic &&& 0x000f) s.variant s.opc s.peerpc ++
    [UInt8.ofNat (s.cic &&& 0xff), UInt8.ofNat ((s.cic &&& 0x0f00) >>> 8), isupSam]

/-- **The SAM sent.** It begins an optional part for which it has no pointer:
that is written over the length of the number. -/
theorem isupSendSam_eq {param : List Octet} {addr : CString} {first second : Octet}
    (h : isupCalledPartyNumEncode s.isMd addr param = some (first :: second :: q))
    (hq : q.length ≤ 20) : isupSendSam s param addr true =
      samLabel s ++ (1 :: UInt8.ofNat (q.length + 2) :: first :: (q ++ [0])) := by
  have hlabel : (samLabel s).length ≤ 10 := by
    unfold samLabel
    cases s.variant <;> simp [mtp3PutLabel]
  have hinit : isupMsgInit mtpMaxPckSize s.variant s.opc s.peerpc s.cic isupSam ⟨[], 0⟩ =
      ⟨samLabel s, 0⟩ := rfl
  have hstart : isupMsgStartVariablePart mtpMaxPckSize ⟨samLabel s, 0⟩ 1 false =
      ⟨samLabel s ++ [0], (samLabel s).length⟩ := by
    unfold isupMsgStartVariablePart
    simp only [Bool.false_eq_true, reduceIte, mtpMaxPckSize]
    rw [if_neg (by omega)]
    rfl
  have hvariable : isupMsgAddVariable mtpMaxPckSize ⟨samLabel s ++ [0], (samLabel s).length⟩
      (first :: q) =
        ⟨(samLabel s ++ [1]) ++ UInt8.ofNat (q.length + 1) :: first :: q,
          (samLabel s ++ [(1 : Octet)]).length⟩ := by
    have hlen : (samLabel s ++ [(0 : Octet)]).length = (samLabel s).length + 1 := by
      rw [List.length_append, List.length_singleton]
    unfold isupMsgAddVariable
    simp only [hlen, set_mid, Nat.add_sub_cancel_left, List.length_cons, mtpMaxPckSize]
    rw [if_neg (by omega), if_neg (by omega), if_neg (by omega), if_neg (by omega)]
    simp
  have hoptional := @startOptionalPart_eq mtpMaxPckSize (samLabel s ++ [1]) (first :: q)
    (UInt8.ofNat (q.length + 1)) (by rw [List.length_cons]; omega) (by
      simp only [List.length_append, List.length_cons, List.length_nil, mtpMaxPckSize]
      omega)
  unfold isupSendSam
  simp only [reduceIte, h, hinit, hstart, hvariable, hoptional]
  unfold isupMsgEndOptionalPart
  rw [if_neg (by
    simp only [List.length_append, List.length_cons, List.length_nil, mtpMaxPckSize]
    omega)]
  simp only [List.append_assoc, List.cons_append, List.nil_append, List.length_cons]

/-- **The SAM arrives** with the number and the 0 behind it. -/
theorem decode_sam {param : List Octet} {addr : CString} {first second : Octet} {n : IsupPhonenum}
    (h : isupCalledPartyNumEncode s.isMd addr param = some (first :: second :: q))
    (hq : q.length ≤ 20) (hn : decodeIsupSni (first :: (q ++ [0])) {} = some n) :
    ∃ header, decodeIsupMsg s.variant (isupSendSam s param addr true) = some (header, .sam n) := by
  have hlen : (UInt8.ofNat (q.length + 2)).toNat = q.length + 2 := Nat.mod_eq_of_lt (by omega)
  rw [isupSendSam_eq h hq]
  generalize UInt8.ofNat (q.length + 2) = len at hlen
  have hheader := decodeHeader_label s.variant isupSam (1 :: len :: first :: (q ++ [0])) s.opc_lt
    s.peerpc_lt s.cic_lt (sls_lt s.cic)
  have hlabel : samLabel s = mtp3PutLabel (s.cic &&& 0x000f) s.variant s.opc s.peerpc ++
        [UInt8.ofNat (s.cic &&& 0xff), UInt8.ofNat ((s.cic &&& 0x0f00) >>> 8), isupSam] := rfl
  have hdata : (first :: (q ++ [0])).length = q.length + 2 := by simp
  have hparam : paramDecode (fun _ p => (decodeIsupSni p {}).isSome)
      (1 :: len :: first :: (q ++ [0])) samSignature = some ([((), first :: (q ++ [0]))], true) := by
    have hone : (1 : Octet).toNat = 1 := rfl
    have htake : (first :: (q ++ [0])).take (q.length + 2) = first :: (q ++ [0]) := by
      rw [← hdata, List.take_length]
    have hroom : ¬q.length + 1 + 1 + 1 + 1 < 2 + (q.length + 2) := by omega
    simp [paramDecode, samSignature, decodeFixed, decodeVariable, hone, hlen, callDecoder, htake, hn,
      hroom]
  have hne : ¬isupSam = isupIam := by decide
  have hget : [((), first :: (q ++ [0]))].foldl
      (fun n call => (decodeIsupSni call.2 n).getD n) {} = n := by
    simp [hn]
  unfold decodeIsupMsg
  rw [hlabel]
  simp only [hheader, hparam, Option.bind_eq_bind, Option.bind_some, if_neg hne, reduceIte, hget]
  exact ⟨_, rfl⟩

end Isup

end Trismedia
