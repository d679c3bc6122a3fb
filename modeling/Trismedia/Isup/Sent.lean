import Trismedia.Isup.Group
/-!
# Messages that are sent for circuits

A reset of a circuit or of a group, the acknowledgement of one, and a blocking of
a group, as `channels/ss7/l4isup.c` builds them, and what is received of each.
-/


namespace Trismedia

namespace Isup

namespace Group

open Mtp2 Memory Isup.Union

variable {ls : Linkset} {cic dpc n : ℕ} {typ : MsgType} {status : List Octet}

/-! ## What they are received as -/

/-- **A message that is built is received**, without an optional part, as what
its decoders make of its parameters. -/
theorem received_build {buflen : ℕ} {m : Message Entry} (typ : MsgType)
    (ws : List (List (ParameterCode × Write))) (hm : m.Valid)
    (hroom : (m.label ++ m.body).length ≤ buflen) (htyp : MsgType.ofCode m.typ = some typ)
    (hfixed : typ.signature.fixed = m.fixed.map fun p => (p.code, p.data.length, p.decoder))
    (hvarying : typ.signature.varying = m.varying.map fun p => (p.code, p.decoder))
    (hoptional : typ.signature.optional = []) (hnone : m.optional = [])
    (haccepts : ∀ call ∈ m.calls, Entry.accepts call.1 call.2 = true)
    (hws : m.calls.mapM (fun (call : Entry × List Octet) => call.1.writes call.2) = some ws) :
    received m.variant (m.build buflen) =
      some ⟨⟨m.dpc, m.opc, m.cic &&& 0x000f, m.cic, m.typ⟩, typ, stored ws.flatten⟩ := by
  have hsls : m.cic &&& 0x000f < 16 := by
    rw [Nat.and_two_pow_sub_one_eq_mod m.cic 4]
    omega
  have hheader := decodeHeader_label m.variant m.typ m.body hm.opc_lt hm.dpc_lt hm.cic_lt hsls
  have hbody := paramDecode_body hm haccepts hfixed hvarying
    (fun p hp => absurd (hnone ▸ hp) List.not_mem_nil) (by rw [hoptional]; exact Nat.zero_le _)
    fun h => absurd hoptional h
  unfold received
  rw [build_eq m hm hroom, Message.label, hheader, Option.bind_some, htyp, Option.bind_some,
    decodeParams, hbody, Option.bind_some, hws]
  rfl

/-- A number in an `int`. -/
theorem intAt_putInt {m : ℕ → Octet} {a v : ℕ} (h : v < 2 ^ 32) :
    intAt (store m (putInt a v).address (putInt a v).octets) a = v := by
  have hoct : ∀ k, k < 4 → store m (putInt a v).address (putInt a v).octets (a + k) =
      UInt8.ofNat (v >>> (8 * k)) := by
    intro k hk
    have hplace : a + k - a = k := by omega
    show store m a _ (a + k) = _
    rw [store, if_pos (by omega), hplace]
    obtain rfl | rfl | rfl | rfl : k = 0 ∨ k = 1 ∨ k = 2 ∨ k = 3 := by omega
    all_goals rfl
  have hzero := hoct 0 (by omega)
  rw [Nat.add_zero] at hzero
  unfold intAt
  rw [hzero, hoct 1 (by omega), hoct 2 (by omega), hoct 3 (by omega)]
  simp only [Nat.shiftRight_eq_div_pow]
  show v / 2 ^ 0 % 256 + 256 * (v / 2 ^ 8 % 256 + 256 * (v / 2 ^ 16 % 256 + 256 * (v / 2 ^ 24 % 256))) = v
  omega

theorem ofCode_code (typ : MsgType) : MsgType.ofCode typ.code = some typ := by
  cases typ <;> decide

/-- A message of the linkset to a point code, with at most one parameter of each
kind. -/
def plainMessage (ls : Linkset) (dpc cic : ℕ) (typ : MsgType) (fixed varying : Option (Param Entry)) :
    Message Entry where
  variant := ls.variant
  opc := ls.opc
  dpc := dpc
  cic := cic
  typ := typ.code
  fixed := fixed.toList
  varying := varying.toList
  optionalAllowed := false
  started := false
  optional := []

/-- **It fits** as long as its parameters are not long. -/
theorem plainMessage_fits {fixed varying : Option (Param Entry)}
    (hdpc : dpc < 2 ^ (if ls.variant = .itu then 14 else 24)) (hcic : cic < maxCic)
    (hfixed : ∀ p ∈ fixed, p.data.length ≤ 100) (hvarying : ∀ p ∈ varying, p.data.length ≤ 100) :
    (plainMessage ls dpc cic typ fixed varying).Valid ∧
      ((plainMessage ls dpc cic typ fixed varying).label ++
        (plainMessage ls dpc cic typ fixed varying).body).length ≤ mtpMaxPckSize := by
  have hshort : ∀ p ∈ fixed.toList ++ varying.toList ++ [], p.data.length ≤ 255 := by
    intro p hp
    rw [List.append_nil] at hp
    rcases List.mem_append.1 hp with hp | hp
    · exact (hfixed p (Option.mem_toList.1 hp)).trans (by omega)
    · exact (hvarying p (Option.mem_toList.1 hp)).trans (by omega)
  have hpointer : ∀ x ∈ pointers (varying.toList.length + 0) varying.toList, x ≤ 255 := by
    cases varying with
    | none => exact fun x hx => absurd hx List.not_mem_nil
    | some p =>
      intro x hx
      rw [List.mem_singleton.1 hx]
      show 1 ≤ 255
      omega
  refine ⟨⟨ls.opc_lt, hdpc, hcic, hshort, hpointer, fun h => absurd h Bool.false_ne_true,
    fun h => absurd rfl h, fun h => absurd h Bool.false_ne_true⟩, ?_⟩
  have hlabel : (plainMessage ls dpc cic typ fixed varying).label.length ≤ 10 := by
    unfold Message.label
    show (mtp3PutLabel _ ls.variant _ _ ++ _).length ≤ 10
    cases ls.variant <;> simp [mtp3PutLabel]
  have hone : ∀ q : Option (Param Entry), (∀ p ∈ q, p.data.length ≤ 100) →
      (fixedOctets q.toList).length ≤ 100 ∧ (varyingOctets q.toList).length ≤ 101 ∧
        q.toList.length ≤ 1 := by
    intro q hq
    cases q with
    | none => exact ⟨Nat.zero_le _, Nat.zero_le _, Nat.zero_le _⟩
    | some p =>
      have hp := hq p rfl
      refine ⟨?_, ?_, Nat.le_refl 1⟩
      · simpa [fixedOctets] using hp
      · have hlen : (varyingOctets (some p).toList).length = p.data.length + 1 := by
          simp [varyingOctets]
        rw [hlen]
        exact Nat.succ_le_succ hp
  have hf := hone fixed hfixed
  have hv := hone varying hvarying
  have hbody : (plainMessage ls dpc cic typ fixed varying).body.length =
      (fixedOctets fixed.toList).length + varying.toList.length +
        (varyingOctets varying.toList).length := by
    simp [Message.body, plainMessage, Message.optionalPointer, Message.optionalPart,
      length_pointers, Nat.add_assoc]
  rw [List.length_append, hbody, mtpMaxPckSize]
  omega

/-! ## Resets -/

/-- The message that `isup_send_rsc` sends. -/
def rscMessage (ls : Linkset) (cic : ℕ) : List Octet :=
  let b := isupMsgInit mtpMaxPckSize ls.variant ls.opc ls.dpc cic MsgType.rsc.code ⟨[], 0⟩
  (isupMsgStartVariablePart mtpMaxPckSize b 0 false).buf

/-- The message that `isup_send_grs` sends. -/
def grsMessage (ls : Linkset) (cic count : ℕ) : List Octet :=
  let b := isupMsgInit mtpMaxPckSize ls.variant ls.opc ls.dpc cic MsgType.grs.code ⟨[], 0⟩
  let b := isupMsgStartVariablePart mtpMaxPckSize b 1 false
  (isupMsgAddVariable mtpMaxPckSize b [UInt8.ofNat (count - 1)]).buf

theorem received_rsc (hcic : cic < maxCic) : ∃ r, received ls.variant (rscMessage ls cic) = some r ∧
    r.typ = .rsc ∧ r.header.cic = cic := by
  obtain ⟨hm, hroom⟩ := @plainMessage_fits ls cic ls.dpc .rsc none none ls.dpc_lt hcic
    (fun _ h => absurd h (Option.not_mem_none _)) fun _ h => absurd h (Option.not_mem_none _)
  exact ⟨_, received_build .rsc [] hm hroom (ofCode_code .rsc) rfl rfl rfl rfl
    (fun call hcall => absurd hcall List.not_mem_nil) rfl, rfl, rfl⟩

/-- The entry of a group reset. -/
def grsEntry : Entry := ⟨.rangeAndStatus, .rangeNoStatus, grsRange.base⟩

theorem received_grs (hcic : cic < maxCic) (hn : n < 256) :
    ∃ r, received ls.variant (grsMessage ls cic (n + 1)) = some r ∧ r.typ = .grs ∧
      r.header.cic = cic ∧ intAt r.union grsRange.base = n := by
  obtain ⟨hm, hroom⟩ := @plainMessage_fits ls cic ls.dpc .grs none
    (some ⟨.rangeAndStatus, [UInt8.ofNat n], some grsEntry⟩) ls.dpc_lt hcic
    (fun _ h => absurd h (Option.not_mem_none _)) fun p hp => by
      rw [← Option.some.inj hp]
      show 1 ≤ 100
      omega
  have hoctet : (UInt8.ofNat n).toNat = n := Nat.mod_eq_of_lt hn
  refine ⟨_, received_build .grs [[(.rangeAndStatus,
    putInt grsRange.base (UInt8.ofNat n).toNat)]] hm hroom (ofCode_code .grs) rfl rfl rfl rfl
    ?_ ?_, rfl, rfl, ?_⟩
  · intro call hcall
    rw [List.mem_singleton.1 hcall]
    rfl
  · rfl
  · rw [hoctet]
    show intAt (store (fun _ => 0) (putInt grsRange.base n).address (putInt grsRange.base n).octets)
      grsRange.base = n
    exact intAt_putInt (Nat.lt_trans hn (by decide))

/-! ## The answer to a group reset -/

/-- The acknowledgement of a group reset. -/
def graMessage (ls : Linkset) (dpc cic : ℕ) (param : List Octet) : List Octet :=
  let b := isupMsgInit mtpMaxPckSize ls.variant ls.opc dpc cic MsgType.gra.code ⟨[], 0⟩
  let b := isupMsgStartVariablePart mtpMaxPckSize b 1 false
  (isupMsgAddVariable mtpMaxPckSize b param).buf

/-- The blocking in front of it: its variable part is started, and nothing is
added to it. -/
def hwBlockMessage (ls : Linkset) (dpc cic : ℕ) : List Octet :=
  let b := isupMsgInit mtpMaxPckSize ls.variant ls.opc dpc cic MsgType.cgb.code ⟨[], 0⟩
  let b := isupMsgAddFixed mtpMaxPckSize b [0x01]
  (isupMsgStartVariablePart mtpMaxPckSize b 1 false).buf

/-- The entry of an acknowledgement. -/
def graEntry : Entry := ⟨.rangeAndStatus, .rangeAndStatus, graRangeStatus.base⟩

theorem mapM_getElem? (l pre : List Octet) :
    (List.range' pre.length l.length).mapM (fun k => (pre ++ l)[k]?) = some l := by
  induction l generalizing pre with
  | nil => rfl
  | cons o l ih =>
    have hrest := ih (pre ++ [o])
    have hfirst : (pre ++ o :: l)[pre.length]? = some o := by
      rw [List.getElem?_append_right (Nat.le_refl _), Nat.sub_self]
      rfl
    rw [List.append_assoc, List.singleton_append, List.length_append, List.length_singleton] at hrest
    rw [List.length_cons, List.range'_succ, List.mapM_cons, hfirst, hrest]
    rfl

/-- The decoder of a range and its status. -/
theorem decodeRangeAndStatus_eq {data : ℕ} (hn : 1 ≤ n) (hlt : n < 256)
    (hstatus : status.length = (n + 8) / 8) :
    decodeRangeAndStatus data (UInt8.ofNat n :: status) =
      some (true, [putInt data n, ⟨data + 4, status⟩]) := by
  have hoctet : (UInt8.ofNat n).toNat = n := Nat.mod_eq_of_lt hlt
  have hlength : (UInt8.ofNat n :: status).length = status.length + 1 := rfl
  have hall : (List.range status.length).mapM (fun k => (UInt8.ofNat n :: status)[1 + k]?) =
      some status := by
    have hshift : (fun k => (UInt8.ofNat n :: status)[1 + k]?) = fun k => ([] ++ status)[k]? := by
      funext k
      rw [Nat.add_comm, List.getElem?_cons_succ, List.nil_append]
    rw [hshift, List.range_eq_range']
    exact mapM_getElem? status []
  unfold decodeRangeAndStatus
  rw [if_neg (by omega), List.getElem?_cons_zero, Option.bind_some]
  dsimp only
  rw [hoctet, if_neg (by omega), if_neg (by omega), show (n + 1 + 7) / 8 = status.length by omega, hall]
  rfl

/-- **An acknowledgement is received** with the range and the status that were
put into it. -/
theorem received_gra (hdpc : dpc < 2 ^ (if ls.variant = .itu then 14 else 24)) (hcic : cic < maxCic)
    (hn : 1 ≤ n) (hle : n ≤ 31) (hstatus : status.length = (n + 8) / 8) :
    ∃ r, received ls.variant (graMessage ls dpc cic (UInt8.ofNat n :: status)) = some r ∧
      r.typ = .gra ∧ r.header.cic = cic ∧ rangeAt r.union graRangeStatus.base = n ∧
        ∀ j (h : j < status.length), statusAt r.union graRangeStatus.base j = status[j] := by
  obtain ⟨hm, hroom⟩ := @plainMessage_fits ls cic dpc .gra none
    (some ⟨.rangeAndStatus, UInt8.ofNat n :: status, some graEntry⟩) hdpc hcic
    (fun _ h => absurd h (Option.not_mem_none _)) fun p hp => by
      rw [← Option.some.inj hp]
      show status.length + 1 ≤ 100
      omega
  have hdecode := @decodeRangeAndStatus_eq n status graRangeStatus.base hn (by omega) hstatus
  refine ⟨_, received_build .gra [[(.rangeAndStatus, putInt graRangeStatus.base n),
    (.rangeAndStatus, ⟨graRangeStatus.base + 4, status⟩)]] hm hroom (ofCode_code .gra) rfl rfl rfl rfl
    ?_ ?_, rfl, rfl, ?_, ?_⟩
  · intro call hcall
    rw [List.mem_singleton.1 hcall]
    show ((decodeRangeAndStatus graRangeStatus.base (UInt8.ofNat n :: status)).map Prod.fst).getD false =
      true
    rw [hdecode]
    rfl
  · show List.mapM (fun (call : Entry × List Octet) => call.1.writes call.2)
      [(graEntry, UInt8.ofNat n :: status)] = _
    have hwrites : graEntry.writes (UInt8.ofNat n :: status) =
        some [(.rangeAndStatus, putInt graRangeStatus.base n),
          (.rangeAndStatus, ⟨graRangeStatus.base + 4, status⟩)] := by
      show (decodeRangeAndStatus graRangeStatus.base (UInt8.ofNat n :: status)).map _ = _
      rw [hdecode]
      rfl
    rw [List.mapM_cons, hwrites]
    rfl
  · -- the status is behind the range
    let m : ℕ → Octet := store (fun _ => 0) (putInt graRangeStatus.base n).address
      (putInt graRangeStatus.base n).octets
    have hkeep : ∀ k, k < 4 → store m (graRangeStatus.base + 4) status (graRangeStatus.base + k) =
        m (graRangeStatus.base + k) := fun k hk => store_before (by omega)
    have hint : intAt m graRangeStatus.base = n := intAt_putInt (by omega)
    show intAt (store m (graRangeStatus.base + 4) status) graRangeStatus.base = n
    unfold intAt at hint ⊢
    rw [hkeep 1 (by omega), hkeep 2 (by omega), hkeep 3 (by omega)]
    have hzero : store m (graRangeStatus.base + 4) status graRangeStatus.base =
        m graRangeStatus.base := store_before (by omega)
    rw [hzero]
    exact hint
  · intro j h
    have hplace : graRangeStatus.base + 4 + j - (graRangeStatus.base + 4) = j := by omega
    show store _ (graRangeStatus.base + 4) status (graRangeStatus.base + 4 + j) = _
    rw [store, if_pos (by omega), hplace, List.getElem?_eq_getElem h]
    rfl

/-! ## What is not accepted -/

/-- Behind a label that is read, the parameters decide. -/
theorem received_label {body : List Octet} (hdpc : dpc < 2 ^ (if ls.variant = .itu then 14 else 24))
    (hcic : cic < maxCic) : received ls.variant ((plainMessage ls dpc cic typ none none).label ++ body) =
      (decodeParams typ body).bind fun d =>
        if d.ok then some ⟨⟨dpc, ls.opc, cic &&& 0x000f, cic, typ.code⟩, typ, stored d.writes⟩
        else none := by
  have hsls : cic &&& 0x000f < 16 := by
    rw [Nat.and_two_pow_sub_one_eq_mod cic 4]
    omega
  have hheader := decodeHeader_label ls.variant typ.code body ls.opc_lt hdpc hcic hsls
  have hread : decodeHeader ls.variant ((plainMessage ls dpc cic typ none none).label ++ body) =
      some (⟨dpc, ls.opc, cic &&& 0x000f, cic, typ.code⟩, body) := hheader
  unfold received
  rw [hread, Option.bind_some]
  dsimp only
  rw [ofCode_code, Option.bind_some]

theorem length_plain_label : (plainMessage ls dpc cic typ none none).label.length ≤ 10 := by
  unfold Message.label
  show (mtp3PutLabel _ ls.variant _ _ ++ _).length ≤ 10
  cases ls.variant <;> simp [mtp3PutLabel]

/-- **The blocking is not accepted**: the pointer to its range is 0. -/
theorem received_hwBlock (hdpc : dpc < 2 ^ (if ls.variant = .itu then 14 else 24))
    (hcic : cic < maxCic) : received ls.variant (hwBlockMessage ls dpc cic) = none := by
  have hlabel := @length_plain_label ls cic dpc .cgb
  have hbuilt : hwBlockMessage ls dpc cic = (plainMessage ls dpc cic .cgb none none).label ++ [1, 0] := by
    have hinit : isupMsgInit mtpMaxPckSize ls.variant ls.opc dpc cic MsgType.cgb.code ⟨[], 0⟩ =
        ⟨(plainMessage ls dpc cic .cgb none none).label, 0⟩ := rfl
    generalize (plainMessage ls dpc cic .cgb none none).label = label at hlabel hinit ⊢
    have hfixed : isupMsgAddFixed mtpMaxPckSize ⟨label, 0⟩ [0x01] = ⟨label ++ [1], 0⟩ := by
      unfold isupMsgAddFixed
      rw [if_neg (by decide), if_neg]
      show ¬label.length + 1 > 280
      omega
    have hvarying : isupMsgStartVariablePart mtpMaxPckSize ⟨label ++ [1], 0⟩ 1 false =
        ⟨label ++ [1] ++ [0], (label ++ [1]).length⟩ := by
      unfold isupMsgStartVariablePart
      dsimp only
      rw [if_neg]
      · rfl
      · rw [List.length_append]
        show ¬label.length + 1 + 1 > 280
        omega
    unfold hwBlockMessage
    dsimp only
    rw [hinit, hfixed, hvarying, List.append_assoc]
    rfl
  have hbody : (decodeParams .cgb [1, 0]).map Decoded.ok = some false := by decide
  rw [hbuilt, received_label hdpc hcic]
  obtain ⟨d, hd, hok⟩ := Option.map_eq_some_iff.1 hbody
  rw [hd, Option.bind_some, hok]
  rfl

/-- **An acknowledgement for one circuit is not accepted**: its range is 0. -/
theorem received_gra_zero {o : Octet} (hdpc : dpc < 2 ^ (if ls.variant = .itu then 14 else 24))
    (hcic : cic < maxCic) : received ls.variant (graMessage ls dpc cic [0, o]) = none := by
  obtain ⟨hm, hroom⟩ := @plainMessage_fits ls cic dpc .gra none
    (some ⟨.rangeAndStatus, [0, o], some graEntry⟩) hdpc hcic
    (fun _ h => absurd h (Option.not_mem_none _)) fun p hp => by
      rw [← Option.some.inj hp]
      show 2 ≤ 100
      omega
  have hbuilt : graMessage ls dpc cic [0, o] =
      (plainMessage ls dpc cic .gra none none).label ++ [1, 2, 0, o] := build_eq _ hm hroom
  have hbody : (decodeParams .gra [1, 2, 0, o]).map Decoded.ok = some false := rfl
  obtain ⟨d, hd, hok⟩ := Option.map_eq_some_iff.1 hbody
  rw [hbuilt, received_label hdpc hcic, hd, Option.bind_some, hok]
  rfl

end Group

end Isup

end Trismedia
