import Trismedia.Isup.Number
/-!
# A call to a number

The side that calls, `ss7_call` of `channels/ss7/l4isup.c`: an IAM, and where
the number is longer than `dni_chunk_limit` an SAM for each piece of it. The
side that is called: `process_iam` and `process_sam` on a circuit.

An exchange fills arrays on its stack; what they hold before is in `Stack`. The
string of an array goes on behind it here, where the code would write over what
is next to it.
-/


namespace Trismedia

namespace Isup

open Mtp2 CString

/-- `MTP_MAX_PCK_SIZE` -/
def mtpMaxPckSize : ℕ := 280

/-- `ISUP_IAM` -/
def isupIam : Octet := 0x01

/-- `ISUP_SAM` -/
def isupSam : Octet := 0x02

/-! ## Strings in arrays -/

/-- `strncpy` to an array. -/
def strncpy (dst : List CChar) (src : CString) (n : ℕ) : List CChar :=
  src.take n ++ List.replicate (n - src.length) 0 ++ dst.drop n

/-- The string in an array. -/
def stringIn (a : List CChar) : CString := a.takeWhile (· ≠ 0)

/-! ## The side that calls -/

/-- What is read of the circuit, its linkset and the channel. The caller's
number is restricted or not, and `ISDN_H324M` of the channel may name `USI` and
`LLC`. -/
structure Setup where
  variant : Ss7Variant
  opc : ℕ
  peerpc : ℕ
  cic : ℕ
  isMd : Bool
  isSt : Bool
  dniChunkLimit : ℕ
  cidNum : Option CString
  cidRdnis : Option CString
  presRestr : Bool
  h324mUsi : Bool
  h324mLlc : Bool
  opc_lt : opc < 2 ^ (if variant = .itu then 14 else 24)
  peerpc_lt : peerpc < 2 ^ (if variant = .itu then 14 else 24)
  cic_lt : cic < 4096

/-- What is on the stack: `param` and `dnicpy` of `isup_send_iam`, `dnicpy` of
`ss7_call`, and `param` of each `isup_send_sam`. -/
structure Stack where
  param : List Octet
  iamDnicpy : List CChar
  dnicpy : List CChar
  samParam : ℕ → List Octet
  length_param : param.length = 2 + phonenumMax
  length_iamDnicpy : iamDnicpy.length = 100
  length_dnicpy : dnicpy.length = 100
  length_samParam : ∀ n, (samParam n).length = 2 + phonenumMax

/-- `isup_send_sam`: the message. -/
def isupSendSam (s : Setup) (param : List Octet) (addr : CString) (complete : Bool) : List Octet :=
  let b := isupMsgInit mtpMaxPckSize s.variant s.opc s.peerpc s.cic isupSam ⟨[], 0⟩
  let encoded :=
    if complete then isupCalledPartyNumEncode s.isMd addr param
    else isupCalledPartyNumEncodeNoSt s.isMd addr param
  let b := isupMsgStartVariablePart mtpMaxPckSize b 1 false
  -- the second octet is not used with SAM
  let b :=
    match encoded with
    | some (first :: _ :: digits) => isupMsgAddVariable mtpMaxPckSize b (first :: digits)
    | _ => b
  let b := isupMsgStartOptionalPart mtpMaxPckSize b
  (isupMsgEndOptionalPart mtpMaxPckSize b).buf

/-- An optional parameter, left out where there is none. -/
def addEncoded (b : Building) (paramType : ParameterCode) : Option (List Octet) → Building
  | none => b
  | some param => isupMsgAddOptional mtpMaxPckSize b paramType param

/-- `isup_send_iam`: the message, `none` if it is -1. What one number leaves in
`param` does not show in the next, of which every octet is written. -/
def isupSendIam (s : Setup) (stack : Stack) (dni rdni : CString) (dnilimit : ℕ) :
    Option (List Octet) :=
  let h324m := s.h324mUsi || s.h324mLlc
  let b := isupMsgInit mtpMaxPckSize s.variant s.opc s.peerpc s.cic isupIam ⟨[], 0⟩
  let b := isupMsgAddFixed mtpMaxPckSize b [0x00]
  let b := isupMsgAddFixed mtpMaxPckSize b [if h324m then 0xA0 else 0x60, 0x01]
  let b := isupMsgAddFixed mtpMaxPckSize b [0x0a]
  let b := isupMsgAddFixed mtpMaxPckSize b [if h324m then 0x02 else 0x00]
  let b := isupMsgStartVariablePart mtpMaxPckSize b 1 true
  let encoded :=
    if dnilimit > 0 ∧ dni.length > dnilimit then
      let dnicpy := (strncpy stack.iamDnicpy dni dnilimit).set dnilimit 0
      isupCalledPartyNumEncodeNoSt s.isMd (stringIn dnicpy) stack.param
    else if s.isSt then isupCalledPartyNumEncode s.isMd dni stack.param
    else isupCalledPartyNumEncodeNoSt s.isMd dni stack.param
  encoded.map fun called =>
    let b := isupMsgAddVariable mtpMaxPckSize b called
    let b := isupMsgStartOptionalPart mtpMaxPckSize b
    let b := addEncoded b .callingPartyNumber
      (isupCallingPartyNumEncode s.isMd s.cidNum s.presRestr 0x3 stack.param)
    let b :=
      if s.h324mUsi then
        isupMsgAddOptional mtpMaxPckSize b .userServiceInformation [0x88, 0x90, 0xA6]
      else b
    let b :=
      if s.h324mLlc then
        isupMsgAddOptional mtpMaxPckSize b .accessTransport [0x7C, 0x03, 0x88, 0x90, 0xA6]
      else b
    let b :=
      if rdni.length > 0 then
        let b := addEncoded b .redirectingNumber
          (isupCallingPartyNumEncode s.isMd (some rdni) s.presRestr 0 stack.param)
        isupMsgAddOptional mtpMaxPckSize b .redirectionInformation [0x04, 0x31]
      else b
    (isupMsgEndOptionalPart mtpMaxPckSize b).buf

/-- The loop of `ss7_call`: the strings that `dnicpy` has when it is sent. -/
def dniChunks (chunkLimit : ℕ) (dni : CString) (dnicpy : List CChar) (chunkSofar : ℕ) :
    List CString :=
  if chunkSofar < dni.length ∧ 0 < chunkLimit then
    let dnicpy := strncpy dnicpy (dni.drop chunkSofar) chunkLimit
    let next := chunkSofar + chunkLimit
    let dnicpy := dnicpy.set next 0
    stringIn dnicpy :: dniChunks chunkLimit dni dnicpy next
  else []
  termination_by dni.length - chunkSofar
  decreasing_by omega

/-- The address of a call: the number behind a `/` up to a `:`, and the
redirecting number behind that. -/
def splitAddr (addr : CString) : CString × Option CString :=
  let addr := ((strchr (chr '/') addr).map Prod.snd).getD addr
  match strchr (chr ':') addr with
  | none => (addr, none)
  | some (dni, rdni) => (dni, some rdni)

/-- `ss7_call`: the messages it sends. -/
def ss7Call (s : Setup) (stack : Stack) (addr : CString) : List (List Octet) :=
  let (dni, given) := splitAddr addr
  let rdni := given.getD (s.cidRdnis.getD [])
  match isupSendIam s stack dni rdni s.dniChunkLimit with
  | none => []
  | some iam =>
    let chunks :=
      if s.dniChunkLimit > 0 ∧ dni.length > s.dniChunkLimit then
        dniChunks s.dniChunkLimit dni stack.dnicpy 0
      else []
    iam :: chunks.mapIdx fun n chunk => isupSendSam s (stack.samParam n) chunk true

/-! ## The side that is called -/

/-- `struct isup_redir_info` -/
structure IsupRedirInfo where
  isRedirect : Bool := false
  reason : ℕ := 0
  deriving DecidableEq

/-- `struct iam` -/
structure Iam where
  dni : IsupPhonenum := {}
  ani : IsupPhonenum := {}
  rni : IsupPhonenum := {}
  redirInf : IsupRedirInfo := {}
  contcheck : Bool := false
  echocontrol : ℕ := 0
  transMedium : Octet := 0
  deriving DecidableEq

/-- The decoders of an IAM, with where they decode it. -/
inductive IamDecoder where
  | nociContcheck
  | transmissionMedium
  | dni
  | ani
  | rni
  | redirInf
  deriving DecidableEq

/-- What a decoder makes of its octets; `none` is 0. -/
def IamDecoder.decode (p : List Octet) (iam : Iam) : IamDecoder → Option Iam
  | nociContcheck =>
    if p.length < 1 then none
    else
      some { iam with
        contcheck := ((p.getD 0 0).toNat >>> 2) &&& 0x3 = 0x1
        echocontrol := ((p.getD 0 0).toNat >>> 4) &&& 0x1 }
  | transmissionMedium =>
    if p.length < 1 then none else some { iam with transMedium := p.getD 0 0 }
  | dni => (decodeIsupPhonenum false p).map fun n => { iam with dni := n }
  | ani => (decodeIsupPhonenum true p).map fun n => { iam with ani := n }
  | rni => (decodeIsupPhonenum true p).map fun n => { iam with rni := n }
  | redirInf =>
    if p.length < 1 then none
    else
      some { iam with
        redirInf := ⟨true, if p.length ≥ 2 then ((p.getD 1 0).toNat >>> 4) &&& 0xf else 0⟩ }

def iamSignature : Signature IamDecoder where
  fixed :=
    [(.natureOfConnectionIndicators, 1, some .nociContcheck), (.forwardCallIndicators, 2, none),
      (.callingPartysCategory, 1, none),
      (.transmissionMediumRequirement, 1, some .transmissionMedium)]
  varying := [(.calledPartyNumber, some .dni)]
  optional :=
    [(.callingPartyNumber, some .ani), (.redirectingNumber, some .rni),
      (.redirectionInformation, some .redirInf)]

def samSignature : Signature Unit where
  fixed := []
  varying := [(.subsequentNumber, some ())]
  optional := []

/-- What `decode_isup_msg` makes of these two types. -/
inductive Decoded where
  | iam (iam : Iam)
  | sam (sni : IsupPhonenum)
  deriving DecidableEq

/-- `decode_isup_msg`, for these two types. -/
def decodeIsupMsg (variant : Ss7Variant) (buf : List Octet) : Option (Header × Decoded) := do
  let (header, rest) ← decodeHeader variant buf
  if header.typ = isupIam then
    let (calls, ok) ← paramDecode (fun d p => (d.decode p {}).isSome) rest iamSignature
    if ok then
      some (header, .iam (calls.foldl (fun iam call => (call.1.decode call.2 iam).getD iam) {}))
    else none
  else if header.typ = isupSam then
    let (calls, ok) ← paramDecode (fun _ p => (decodeIsupSni p {}).isSome) rest samSignature
    if ok then
      some (header, .sam (calls.foldl (fun n call => (decodeIsupSni call.2 n).getD n) {}))
    else none
  else none

/-- `enum circuit_states` -/
inductive CircuitState where
  | idle
  | gotIam
  | sentIam
  | sentAcm
  | gotAcm
  | connected
  | concheck
  | gotRel
  | sentRel
  deriving DecidableEq

/-- What of a circuit is changed here: its state, the number in `iam`, and
whether T35 runs. -/
structure Called where
  state : CircuitState
  iam : Iam
  t35 : Bool

/-- `check_iam_sam`, where `complete` is set to 0. `canmatch` is the answer of
the dialplan to the number and the redirecting number. -/
def checkIamSam (canmatch : CString → CString → Bool) (pvt : Called) : Called :=
  if canmatch pvt.iam.dni.num pvt.iam.rni.num then { pvt with t35 := true }
  else { pvt with state := .sentRel }

/-- Whether this end keeps the circuit in a dual seizure. -/
def iscontrolling (inmsg : Header) : Bool :=
  if inmsg.dpc > inmsg.opc then inmsg.cic &&& 1 = 0 else inmsg.cic &&& 1 ≠ 0

/-- `process_iam`. A call of this end on the circuit that gives way is moved to
another, one received before is ended. -/
def processIam (canmatch : CString → CString → Bool) (inmsg : Header) (iam : Iam) (pvt : Called) :
    Called :=
  if pvt.state = .sentIam ∧ iscontrolling inmsg then pvt
  else if pvt.state ≠ .sentIam ∧ pvt.state ≠ .gotIam ∧ pvt.state ≠ .idle then pvt
  else checkIamSam canmatch { pvt with state := .gotIam, iam := iam }

/-- `process_sam` -/
def processSam (canmatch : CString → CString → Bool) (sni : IsupPhonenum) (pvt : Called) :
    Called :=
  if pvt.state ≠ .gotIam then pvt
  else
    let pvt := { pvt with t35 := false }
    if sni.num.length = phonenumMax - 1 then { pvt with state := .sentRel }
    else
      let dni := { pvt.iam.dni with
        num := pvt.iam.dni.num ++ sni.num
        complete := pvt.iam.dni.complete || sni.complete }
      checkIamSam canmatch { pvt with iam := { pvt.iam with dni := dni } }

/-- A message that comes for the circuit. -/
def receive (canmatch : CString → CString → Bool) (variant : Ss7Variant) (pvt : Called)
    (msg : List Octet) : Called :=
  match decodeIsupMsg variant msg with
  | none => pvt
  | some (inmsg, .iam iam) => processIam canmatch inmsg iam pvt
  | some (_, .sam sni) => processSam canmatch sni pvt

/-- **The number dialled is the number that arrives**, whatever the stack held,
at a circuit that is idle, where the number can still match. -/
def Setup.Delivers (s : Setup) (addr : CString) : Prop :=
  ∀ (stack : Stack) (pvt : Called), pvt.state = .idle →
    ((ss7Call s stack addr).foldl (receive (fun _ _ => true) s.variant) pvt).iam.dni.num =
      (splitAddr addr).1

end Isup

end Trismedia
