import Trismedia.Isup.Decode
import Trismedia.Isup.Inside
/-!
# What a message decoded reads and writes

The pointer to the parameter of variable length is followed before it is known
to lead to an octet of the message. And where a `con` has optional backward
call indicators, they are written to the field of `anm`, where the backward
call indicators of `con` are. Nothing else is read or written that should not
be.
-/


namespace Trismedia

namespace Isup

namespace Union

open Mtp2 Memory

/-! ## The condition -/

/-- Where the pointer to the parameter of variable length stands. -/
def MsgType.pointerPlace : MsgType → Option ℕ
  | iam => some 5
  | sam | rel | grs | gra => some 0
  | cgb | cga | cgu | cua => some 1
  | _ => none

/-- The indicator of a message for a group of circuits is one that is
implemented. -/
def Implemented (typ : MsgType) (params : List Octet) : Prop :=
  typ.pointerPlace = some 1 → (params.getD 0 0).toNat &&& 0x3 ≤ 1

/-- **The pointer leads to an octet** of the message. -/
def PointerInside (typ : MsgType) (params : List Octet) : Prop :=
  ∀ i pointer, typ.pointerPlace = some i → Implemented typ params → params[i]? = some pointer →
    i + pointer.toNat < params.length

/-- The parameters of the optional part that stand there whole. -/
def optionals (buf : List Octet) (i : ℕ) : List (Octet × List Octet) :=
  match buf[i]? with
  | none => []
  | some type =>
    if type = 0 then []
    else
      match buf[i + 1]? with
      | none => []
      | some paramLen =>
        if i + 2 + paramLen.toNat > buf.length then []
        else (type, (buf.drop (i + 2)).take paramLen.toNat) :: optionals buf (i + 2 + paramLen.toNat)
  termination_by buf.length - i
  decreasing_by omega

/-- **There are optional backward call indicators** behind the parameters of a
`con`: the first have an octet. -/
def ObcStated (params : List Octet) : Prop :=
  ∃ pointer o, params[2]? = some pointer ∧ pointer ≠ 0 ∧
    (optionals params (2 + pointer.toNat)).find?
        (fun o => o.1 = ParameterCode.optionalBackwardCallIndicators.code) = some o ∧ o.2 ≠ []

/-- **The message is decoded as it should be**: nothing is read behind it, each
parameter is written to its own field of the member for the type, and what a
decoder has put in a field stays. -/
structure DecodeRight (variant : Ss7Variant) (buf : List Octet) : Prop where
  reads : (decodeIsupMsg variant buf).isSome
  writes : ∀ r typ params, decodeIsupMsg variant buf = some r →
    caseOf variant buf = some (typ, params) →
      ∀ w ∈ r.writes, ∃ f, fieldOf typ w.1 = some f ∧ w.2.block.Within f
  found : ∀ r typ params, decodeIsupMsg variant buf = some r →
    caseOf variant buf = some (typ, params) → ∀ c f, fieldOf typ c = some f →
      ∀ before after, r.writes = before ++ after → (∀ w ∈ after, w.1 ≠ c) →
        load (stored r.writes) f.base f.size = load (stored before) f.base f.size

/-! ## The three parts -/

section Parts

variable {δ : Type*} {accepts : δ → List Octet → Bool} {buf p : List Octet} {i j : ℕ}
variable {part : Part δ} {sig : Signature δ} {calls : List (δ × List Octet)} {ok : Bool}
variable {P : δ × List Octet → Prop}

theorem callDecoder_isSome {d : Option δ} {rest : Option (Part δ)} (h : rest.isSome) :
    (callDecoder accepts d p rest).isSome := by
  cases d with
  | none => exact h
  | some d =>
    unfold callDecoder
    dsimp only
    split_ifs
    · rw [Option.isSome_map]
      exact h
    · rfl

theorem callDecoder_of_accepts {d : δ} {rest : Option (Part δ)} (h : accepts d p = true) :
    callDecoder accepts (some d) p rest = rest.map fun r => { r with calls := (d, p) :: r.calls } :=
  if_pos h

theorem callDecoder_of_not {d : δ} {rest : Option (Part δ)} (h : ¬accepts d p = true) :
    callDecoder accepts (some d) p rest = some ⟨[(d, p)], none⟩ := if_neg h

/-- What is called is the decoder, or is called by the rest. -/
theorem callDecoder_calls {d : Option δ} {rest : Option (Part δ)}
    (h : callDecoder accepts d p rest = some part) (hd : ∀ e, d = some e → P (e, p))
    (hrest : ∀ part, rest = some part → ∀ call ∈ part.calls, P call) :
    ∀ call ∈ part.calls, P call := by
  cases d with
  | none => exact hrest part h
  | some d =>
    unfold callDecoder at h
    dsimp only at h
    split_ifs at h
    · obtain ⟨part', hpart', rfl⟩ := Option.map_eq_some_iff.1 h
      exact List.forall_mem_cons.2 ⟨hd d rfl, hrest part' hpart'⟩
    · obtain rfl := Option.some.inj h
      exact List.forall_mem_singleton.2 (hd d rfl)

theorem decodeFixed_isSome (ps : List (ParameterCode × ℕ × Option δ)) : ∀ i,
    (decodeFixed accepts buf i ps).isSome := by
  induction ps with
  | nil => exact fun i => rfl
  | cons q ps ih =>
    intro i
    obtain ⟨c, n, d⟩ := q
    rw [decodeFixed]
    split_ifs
    · rfl
    · exact callDecoder_isSome (ih _)

theorem decodeFixed_calls (ps : List (ParameterCode × ℕ × Option δ)) : ∀ i part,
    (∀ q ∈ ps, ∀ e p, q.2.2 = some e → P (e, p)) → decodeFixed accepts buf i ps = some part →
      ∀ call ∈ part.calls, P call := by
  induction ps with
  | nil =>
    intro i part _ h
    obtain rfl := Option.some.inj h
    exact fun call hcall => absurd hcall List.not_mem_nil
  | cons q ps ih =>
    intro i part hP h
    obtain ⟨hq, hps⟩ := List.forall_mem_cons.1 hP
    obtain ⟨c, n, d⟩ := q
    rw [decodeFixed] at h
    split_ifs at h
    · obtain rfl := Option.some.inj h
      exact fun call hcall => absurd hcall List.not_mem_nil
    · exact callDecoder_calls h (fun e he => hq e _ he) fun part hpart => ih _ _ hps hpart

theorem decodeVariable_calls (ps : List (ParameterCode × Option δ)) : ∀ i part,
    (∀ q ∈ ps, ∀ e p, q.2 = some e → P (e, p)) → decodeVariable accepts buf i ps = some part →
      ∀ call ∈ part.calls, P call := by
  induction ps with
  | nil =>
    intro i part _ h
    obtain rfl := Option.some.inj h
    exact fun call hcall => absurd hcall List.not_mem_nil
  | cons q ps ih =>
    intro i part hP h
    obtain ⟨hq, hps⟩ := List.forall_mem_cons.1 hP
    obtain ⟨c, d⟩ := q
    have hnone : some Part.refused = some part → ∀ call ∈ part.calls, P call := by
      intro h
      obtain rfl := Option.some.inj h
      exact fun call hcall => absurd hcall List.not_mem_nil
    unfold decodeVariable at h
    rcases hpointer : buf[i]? with _ | pointer
    · rw [hpointer] at h
      exact hnone h
    · rw [hpointer] at h
      dsimp only at h
      rcases hlen : buf[i + pointer.toNat]? with _ | paramLen
      · rw [hlen] at h
        exact absurd h (Option.some_ne_none _).symm
      · rw [hlen] at h
        dsimp only at h
        split_ifs at h
        · exact hnone h
        · exact callDecoder_calls h (fun e he => hq e _ he) fun part hpart => ih _ _ hps hpart

/-- One parameter of variable length: what is behind the message is read if the
pointer leads there. -/
theorem decodeVariable_single {c : ParameterCode} {d : Option δ} :
    decodeVariable accepts buf i [(c, d)] = none ↔
      ∃ pointer, buf[i]? = some pointer ∧ buf.length ≤ i + pointer.toNat := by
  unfold decodeVariable
  rcases hpointer : buf[i]? with _ | pointer
  · refine iff_of_false (Option.some_ne_none _) ?_
    rintro ⟨pointer, h, -⟩
    exact Option.some_ne_none _ h.symm
  · dsimp only
    rcases hlen : buf[i + pointer.toNat]? with _ | paramLen
    · exact iff_of_true rfl ⟨pointer, rfl, List.getElem?_eq_none_iff.1 hlen⟩
    · refine iff_of_false ?_ ?_
      · dsimp only
        split_ifs
        · exact not_false
        · exact Option.isSome_iff_ne_none.1 (callDecoder_isSome rfl)
      · rintro ⟨pointer', h, hle⟩
        obtain rfl := Option.some.inj h
        rw [List.getElem?_eq_none hle] at hlen
        exact Option.some_ne_none _ hlen.symm

/-- The decoders of the optional part are called for what stands there. -/
def callAll (accepts : δ → List Octet → Bool) (decoders : List (ParameterCode × Option δ))
    (next : Option ℕ) (os : List (Octet × List Octet)) : Option (Part δ) :=
  os.foldr (fun o rest =>
    callDecoder accepts ((decoders.find? fun d => d.1.code = o.1).bind Prod.snd) o.2 rest)
      (some ⟨[], next⟩)

theorem decodeOptional_eq_callAll (decoders : List (ParameterCode × Option δ)) (i : ℕ) :
    ∃ next, decodeOptional accepts decoders buf i = callAll accepts decoders next (optionals buf i) := by
  induction i using optionals.induct buf with
  | case1 i h =>
    rw [decodeOptional, optionals, h]
    exact ⟨none, rfl⟩
  | case2 i h =>
    rw [decodeOptional, optionals, h]
    exact ⟨some i, rfl⟩
  | case3 i type h hne h' =>
    rw [decodeOptional, optionals, h]
    dsimp only
    rw [if_neg hne, if_neg hne, h']
    exact ⟨none, rfl⟩
  | case4 i type h hne paramLen h' hlong =>
    rw [decodeOptional, optionals, h]
    dsimp only
    rw [if_neg hne, if_neg hne, h']
    dsimp only
    rw [if_pos hlong, if_pos hlong]
    exact ⟨none, rfl⟩
  | case5 i type h hne paramLen h' hlong ih =>
    obtain ⟨next, hnext⟩ := ih
    rw [decodeOptional, optionals, h]
    dsimp only
    rw [if_neg hne, if_neg hne, h']
    dsimp only
    rw [if_neg hlong, if_neg hlong, hnext]
    exact ⟨next, rfl⟩

theorem callAll_isSome {decoders : List (ParameterCode × Option δ)} {next : Option ℕ}
    (os : List (Octet × List Octet)) : (callAll accepts decoders next os).isSome := by
  induction os with
  | nil => rfl
  | cons o os ih => exact callDecoder_isSome ih

theorem callAll_calls {decoders : List (ParameterCode × Option δ)} {next : Option ℕ}
    (hP : ∀ q ∈ decoders, ∀ e p, q.2 = some e → P (e, p)) (os : List (Octet × List Octet)) :
    ∀ part, callAll accepts decoders next os = some part → ∀ call ∈ part.calls, P call := by
  induction os with
  | nil =>
    intro part h
    obtain rfl := Option.some.inj h
    exact fun call hcall => absurd hcall List.not_mem_nil
  | cons o os ih =>
    intro part h
    refine callDecoder_calls h (fun e he => ?_) ih
    obtain ⟨q, hq, hqe⟩ := Option.bind_eq_some_iff.1 he
    exact hP q (List.mem_of_find?_eq_some hq) e _ hqe

/-- **One decoder in the optional part**: it is called for the first of its
parameters if there is one, and no more if it refuses. -/
theorem callAll_single {c : ParameterCode} {d : δ} {next : Option ℕ} (os : List (Octet × List Octet)) :
    ∀ part, callAll accepts [(c, some d)] next os = some part →
      (os.find? (fun o => o.1 = c.code) = none → part.calls = []) ∧
        ∀ o, os.find? (fun o => o.1 = c.code) = some o →
          ∃ rest, part.calls = (d, o.2) :: rest ∧ (accepts d o.2 = false → rest = []) := by
  induction os with
  | nil =>
    intro part h
    obtain rfl := Option.some.inj h
    exact ⟨fun _ => rfl, fun o ho => absurd ho (Option.some_ne_none _).symm⟩
  | cons o os ih =>
    intro part h
    have hcons : callAll accepts [(c, some d)] next (o :: os) =
        callDecoder accepts (([(c, some d)].find? fun d => d.1.code = o.1).bind Prod.snd) o.2
          (callAll accepts [(c, some d)] next os) := rfl
    rw [hcons] at h
    by_cases ho : o.1 = c.code
    · have hfind : ([(c, some d)].find? fun d => d.1.code = o.1).bind Prod.snd = some d := by
        simp [ho]
      have hfirst : (o :: os).find? (fun o => o.1 = c.code) = some o := by simp [ho]
      rw [hfind, callDecoder] at h
      rw [hfirst]
      refine ⟨fun h => absurd h (Option.some_ne_none _), fun o' ho' => ?_⟩
      obtain rfl := Option.some.inj ho'
      by_cases haccepts : accepts d o.2 = true
      · rw [if_pos haccepts] at h
        obtain ⟨part', -, rfl⟩ := Option.map_eq_some_iff.1 h
        exact ⟨part'.calls, rfl, fun hfalse => absurd (haccepts.symm.trans hfalse) (by decide)⟩
      · rw [if_neg haccepts] at h
        obtain rfl := Option.some.inj h
        exact ⟨[], rfl, fun _ => rfl⟩
    · have hfind : ([(c, some d)].find? fun d => d.1.code = o.1).bind Prod.snd = none := by
        simp [Ne.symm ho]
      have hlater : (o :: os).find? (fun o => o.1 = c.code) = os.find? fun o => o.1 = c.code := by
        simp [ho]
      rw [hfind] at h
      rw [hlater]
      exact ih part h

/-- The decoders of a signature. -/
def decodersOf (sig : Signature δ) : List δ :=
  sig.fixed.filterMap (fun q => q.2.2) ++ (sig.varying.filterMap Prod.snd ++
    sig.optional.filterMap Prod.snd)

/-- **The decoders that are called** are those of the signature. -/
theorem paramDecode_calls (h : paramDecode accepts buf sig = some (calls, ok)) :
    ∀ call ∈ calls, call.1 ∈ decodersOf sig := by
  have hfixed : ∀ q ∈ sig.fixed, ∀ e (p : List Octet), q.2.2 = some e → e ∈ decodersOf sig :=
    fun q hq e _ he => List.mem_append_left _ (List.mem_filterMap.2 ⟨q, hq, he⟩)
  have hvarying : ∀ q ∈ sig.varying, ∀ e (p : List Octet), q.2 = some e → e ∈ decodersOf sig :=
    fun q hq e _ he => List.mem_append_right _
      (List.mem_append_left _ (List.mem_filterMap.2 ⟨q, hq, he⟩))
  have hoptional : ∀ q ∈ sig.optional, ∀ e (p : List Octet), q.2 = some e → e ∈ decodersOf sig :=
    fun q hq e _ he => List.mem_append_right _
      (List.mem_append_right _ (List.mem_filterMap.2 ⟨q, hq, he⟩))
  unfold paramDecode at h
  obtain ⟨fixed, hdecoded, h⟩ := Option.bind_eq_some_iff.1 h
  have hone := @decodeFixed_calls δ accepts buf (fun call => call.1 ∈ decodersOf sig) sig.fixed 0 fixed
    hfixed hdecoded
  rcases hnext : fixed.next with _ | i
  · rw [hnext] at h
    obtain ⟨rfl, -⟩ := Prod.mk.inj (Option.some.inj h)
    exact hone
  rw [hnext] at h
  obtain ⟨varying, hdecoded', h⟩ := Option.bind_eq_some_iff.1 h
  have htwo := @decodeVariable_calls δ accepts buf (fun call => call.1 ∈ decodersOf sig) sig.varying i
    varying hvarying hdecoded'
  have hboth : ∀ call ∈ fixed.calls ++ varying.calls, call.1 ∈ decodersOf sig :=
    List.forall_mem_append.2 ⟨hone, htwo⟩
  have hstop : some (fixed.calls ++ varying.calls, ok) = some (calls, ok) →
      ∀ call ∈ calls, call.1 ∈ decodersOf sig := by
    intro h
    obtain ⟨rfl, -⟩ := Prod.mk.inj (Option.some.inj h)
    exact hboth
  dsimp only at h
  rcases hnext' : varying.next with _ | i'
  · rw [hnext'] at h
    obtain ⟨rfl, -⟩ := Prod.mk.inj (Option.some.inj h)
    exact hboth
  rw [hnext'] at h
  dsimp only at h
  by_cases hmany : sig.optional.length > 100
  · rw [if_pos hmany] at h
    obtain ⟨rfl, -⟩ := Prod.mk.inj (Option.some.inj h)
    exact hboth
  rw [if_neg hmany] at h
  by_cases hempty : sig.optional = []
  · rw [if_pos hempty] at h
    obtain ⟨rfl, -⟩ := Prod.mk.inj (Option.some.inj h)
    exact hboth
  rw [if_neg hempty] at h
  rcases hpointer : buf[i']? with _ | pointer
  · rw [hpointer] at h
    obtain ⟨rfl, -⟩ := Prod.mk.inj (Option.some.inj h)
    exact hboth
  rw [hpointer] at h
  dsimp only at h
  by_cases hzero : pointer = 0
  · rw [if_pos hzero] at h
    obtain ⟨rfl, -⟩ := Prod.mk.inj (Option.some.inj h)
    exact hboth
  rw [if_neg hzero] at h
  obtain ⟨opt, hopt, h⟩ := Option.bind_eq_some_iff.1 h
  obtain ⟨rfl, -⟩ := Prod.mk.inj (Option.some.inj h)
  obtain ⟨next, heq⟩ := @decodeOptional_eq_callAll δ accepts buf sig.optional (i' + pointer.toNat)
  rw [heq] at hopt
  exact List.forall_mem_append.2 ⟨hboth, callAll_calls (P := fun call => call.1 ∈ decodersOf sig)
    hoptional _ opt hopt⟩

/-- **What is behind the message** is read in the variable part, or not at all. -/
theorem paramDecode_eq_none_iff : paramDecode accepts buf sig = none ↔
    ∃ part i, decodeFixed accepts buf 0 sig.fixed = some part ∧ part.next = some i ∧
      decodeVariable accepts buf i sig.varying = none := by
  obtain ⟨part, hpart⟩ := Option.isSome_iff_exists.1
    (@decodeFixed_isSome δ accepts buf sig.fixed 0)
  unfold paramDecode
  rw [hpart, Option.bind_eq_bind, Option.bind_some]
  rcases hnext : part.next with _ | i
  · refine iff_of_false (Option.some_ne_none _) ?_
    rintro ⟨part', i, h, hi, -⟩
    obtain rfl := Option.some.inj h
    exact Option.some_ne_none _ (hi.symm.trans hnext)
  dsimp only
  rcases hvarying : decodeVariable accepts buf i sig.varying with _ | varying
  · exact iff_of_true rfl ⟨part, i, rfl, hnext, hvarying⟩
  refine iff_of_false ?_ ?_
  · rw [Option.bind_some]
    rcases hnext' : varying.next with _ | i'
    · exact Option.some_ne_none _
    dsimp only
    split_ifs
    · exact not_false
    · exact not_false
    · rcases buf[i']? with _ | pointer
      · exact Option.some_ne_none _
      · dsimp only
        split_ifs
        · exact not_false
        · obtain ⟨next, heq⟩ := @decodeOptional_eq_callAll δ accepts buf sig.optional
            (i' + pointer.toNat)
          obtain ⟨opt, hopt⟩ := Option.isSome_iff_exists.1
            (@callAll_isSome δ accepts sig.optional next (optionals buf (i' + pointer.toNat)))
          rw [heq, hopt]
          exact Option.some_ne_none _
  · rintro ⟨part', i', h, hi, hnone⟩
    obtain rfl := Option.some.inj h
    obtain rfl := Option.some.inj (hnext.symm.trans hi)
    exact Option.some_ne_none _ (hvarying.symm.trans hnone)

end Parts

/-! ## What is read -/

variable {variant : Ss7Variant} {typ : MsgType} {buf params p : List Octet} {e : Entry} {r : Decoded}

/-- An entry always comes to something. -/
theorem Entry.run_inside (e : Entry) (p : List Octet) :
    Inside (e.decoder.run e.data p) ⟨e.data + e.decoder.span.base, e.decoder.span.size⟩ :=
  e.decoder.inside e.data p

theorem Entry.writes_isSome (e : Entry) (p : List Octet) : (e.writes p).isSome := by
  obtain ⟨ok, ws, h, -⟩ := e.run_inside p
  rw [Entry.writes, h]
  rfl

theorem decodeParams_eq_none_iff :
    decodeParams typ params = none ↔ paramDecode Entry.accepts params typ.signature = none := by
  unfold decodeParams
  rcases paramDecode Entry.accepts params typ.signature with _ | ⟨calls, ok⟩
  · exact iff_of_true rfl rfl
  · obtain ⟨ws, hws, -⟩ := @mapM_isSome _ _
      (fun (call : Entry × List Octet) => call.1.writes call.2) calls
      fun call _ => call.1.writes_isSome call.2
    rw [Option.bind_some, hws]
    exact iff_of_false (Option.some_ne_none _) (Option.some_ne_none _)

/-- The fixed part of `iam` is five octets. -/
theorem decodeFixed_iam : ∃ part, decodeFixed Entry.accepts params 0 MsgType.iam.signature.fixed =
    some part ∧ part.next = if 5 ≤ params.length then some 5 else none := by
  have hnoci : ∀ o, Entry.accepts ⟨.natureOfConnectionIndicators, .nociContcheck, 0⟩ [o] = true :=
    fun o => rfl
  have hmedium : ∀ o, Entry.accepts ⟨.transmissionMediumRequirement, .transmissionMedium, 0⟩ [o] =
      true := fun o => rfl
  have htake : ∀ k < params.length, (params.drop k).take 1 = [params.getD k 0] := by
    intro k hk
    rw [List.drop_eq_getElem_cons hk, List.take_succ_cons, List.take_zero, List.getD_eq_getElem?_getD,
      List.getElem?_eq_getElem hk, Option.getD_some]
  unfold MsgType.signature fixedEntry
  simp only [decodeFixed]
  by_cases hone : 0 + 1 > params.length
  · rw [if_pos hone, if_neg (by omega)]
    exact ⟨_, rfl, rfl⟩
  rw [if_neg hone, htake 0 (by omega), callDecoder_of_accepts (hnoci _)]
  by_cases hfour : 0 + 1 + 2 + 1 > params.length
  · by_cases htwo : 0 + 1 + 2 > params.length
    · rw [if_pos htwo, if_neg (by omega)]
      exact ⟨_, rfl, rfl⟩
    · rw [if_neg htwo, if_pos hfour, if_neg (by omega)]
      exact ⟨_, rfl, rfl⟩
  by_cases hfive : 0 + 1 + 2 + 1 + 1 > params.length
  · rw [if_neg (by omega), if_neg hfour, if_pos hfive, if_neg (by omega)]
    exact ⟨_, rfl, rfl⟩
  have hnull : ∀ (q : List Octet) (rest : Option (Part Entry)),
      callDecoder Entry.accepts none q rest = rest := fun _ _ => rfl
  rw [if_neg (by omega), hnull, if_neg hfour, hnull, if_neg hfive, htake _ (by omega),
    callDecoder_of_accepts (hmedium _), if_pos (by omega)]
  exact ⟨_, rfl, rfl⟩

/-- That of a group of circuits is the indicator. -/
theorem decodeFixed_group (cgsmti rangeStatus : Block) :
    ∃ part, decodeFixed Entry.accepts params 0 (groupSignature cgsmti rangeStatus).fixed =
      some part ∧ part.next =
        if 1 ≤ params.length ∧ (params.getD 0 0).toNat &&& 0x3 ≤ 1 then some 1 else none := by
  cases params with
  | nil => exact ⟨_, rfl, rfl⟩
  | cons o params =>
    have haccepts : Entry.accepts ⟨.circuitGroupSupervisionMessageTypeIndicator, .cgsmti,
        cgsmti.base⟩ [o] = decide (o.toNat &&& 0x3 ≤ 1) := by
      show ((decodeCgsmti cgsmti.base [o]).map Prod.fst).getD false = _
      unfold decodeCgsmti
      rw [List.length_singleton, if_neg (Nat.lt_irrefl 1), List.getElem?_cons_zero, Option.map_some, Option.map_some,
        Option.getD_some]
      dsimp only
      by_cases hle : o.toNat &&& 0x3 ≤ 1
      · rw [if_neg (by omega), decide_eq_true hle]
      · rw [if_pos (by omega), decide_eq_false hle]
    have hlen : ¬0 + 1 > (o :: params).length := by
      rw [List.length_cons]
      omega
    unfold groupSignature fixedEntry
    simp only [decodeFixed]
    rw [if_neg hlen, List.drop_zero, List.take_succ_cons, List.take_zero, List.getD_cons_zero]
    by_cases hle : o.toNat &&& 0x3 ≤ 1
    · rw [callDecoder_of_accepts (haccepts.trans (decide_eq_true hle)), if_pos ⟨by omega, hle⟩]
      exact ⟨_, rfl, rfl⟩
    · rw [callDecoder_of_not (by rw [haccepts, decide_eq_false hle]; exact Bool.false_ne_true),
        if_neg fun h => hle h.2]
      exact ⟨_, rfl, rfl⟩

/-- The pointer to the one parameter of variable length. -/
theorem paramDecode_isSome_iff {c : ParameterCode} {sig : Signature Entry} {part : Part Entry}
    {place : ℕ} {implemented : Prop} [Decidable implemented]
    (hpart : decodeFixed Entry.accepts params 0 sig.fixed = some part)
    (hnext : part.next = if place ≤ params.length ∧ implemented then some place else none)
    (hvarying : sig.varying = [(c, some e)]) :
    (paramDecode Entry.accepts params sig).isSome ↔
      ∀ pointer, implemented → params[place]? = some pointer →
        place + pointer.toNat < params.length := by
  rw [Option.isSome_iff_ne_none, Ne, paramDecode_eq_none_iff]
  constructor
  · intro h pointer himplemented hpointer
    have hlt := (List.getElem?_eq_some_iff.1 hpointer).1
    by_contra hle
    refine h ⟨part, place, hpart, ?_, ?_⟩
    · rw [hnext, if_pos ⟨by omega, himplemented⟩]
    · rw [hvarying, decodeVariable_single]
      exact ⟨pointer, hpointer, by omega⟩
  · rintro h ⟨part', i, hpart', hi, hnone⟩
    obtain rfl := Option.some.inj (hpart.symm.trans hpart')
    rw [hnext] at hi
    split_ifs at hi with hthere
    obtain rfl := Option.some.inj hi
    rw [hvarying, decodeVariable_single] at hnone
    obtain ⟨pointer, hpointer, hle⟩ := hnone
    have hlt := h pointer hthere.2 hpointer
    omega

/-- A type without such a parameter. -/
theorem paramDecode_isSome {sig : Signature Entry} (hvarying : sig.varying = []) :
    (paramDecode Entry.accepts params sig).isSome := by
  rw [Option.isSome_iff_ne_none, Ne, paramDecode_eq_none_iff]
  rintro ⟨part, i, -, -, hnone⟩
  rw [hvarying] at hnone
  exact Option.some_ne_none _ hnone

/-- **Nothing behind the message is read** as long as the pointer leads to an
octet of it. -/
theorem decodeParams_isSome_iff : (decodeParams typ params).isSome ↔ PointerInside typ params := by
  have hdecode : (decodeParams typ params).isSome ↔
      (paramDecode Entry.accepts params typ.signature).isSome := by
    rw [Option.isSome_iff_ne_none, Option.isSome_iff_ne_none, Ne, decodeParams_eq_none_iff]
  rw [hdecode]
  -- the types that have no such parameter
  have hnone : typ.signature.varying = [] → typ.pointerPlace = none →
      ((paramDecode Entry.accepts params typ.signature).isSome ↔ PointerInside typ params) := by
    intro hvarying hplace
    refine iff_of_true (paramDecode_isSome hvarying) fun i pointer hi => ?_
    rw [hplace] at hi
    exact absurd hi (Option.some_ne_none _).symm
  -- those where it stands in front
  have hfirst : ∀ c e, typ.signature.fixed = [] → typ.signature.varying = [(c, some e)] →
      typ.pointerPlace = some 0 →
        ((paramDecode Entry.accepts params typ.signature).isSome ↔ PointerInside typ params) := by
    intro c e hfixed hvarying hplace
    have himplemented : Implemented typ params := by
      intro h
      rw [hplace] at h
      exact absurd (Option.some.inj h) Nat.zero_ne_one
    rw [@paramDecode_isSome_iff params e c typ.signature ⟨[], some 0⟩ 0 True _ (by rw [hfixed]; rfl)
      (by rw [if_pos ⟨Nat.zero_le _, trivial⟩]) hvarying]
    constructor
    · intro h i pointer hi _ hpointer
      rw [hplace] at hi
      obtain rfl := Option.some.inj hi
      exact h pointer trivial hpointer
    · exact fun h pointer _ hpointer => h 0 pointer hplace himplemented hpointer
  have hgroup : ∀ cgsmti rangeStatus, typ.signature = groupSignature cgsmti rangeStatus →
      typ.pointerPlace = some 1 →
        ((paramDecode Entry.accepts params typ.signature).isSome ↔ PointerInside typ params) := by
    intro cgsmti rangeStatus hsig hplace
    obtain ⟨part, hpart, hnext⟩ := @decodeFixed_group params cgsmti rangeStatus
    rw [hsig, paramDecode_isSome_iff hpart hnext rfl]
    constructor
    · intro h i pointer hi himplemented hpointer
      rw [hplace] at hi
      obtain rfl := Option.some.inj hi
      exact h pointer (himplemented hplace) hpointer
    · exact fun h pointer himplemented hpointer => h 1 pointer hplace (fun _ => himplemented) hpointer
  cases typ with
  | iam =>
    obtain ⟨part, hpart, hnext⟩ := @decodeFixed_iam params
    rw [@paramDecode_isSome_iff params _ _ _ part 5 True _ hpart
      (by rw [hnext]; exact if_congr (iff_of_eq (and_true _).symm) rfl rfl) rfl]
    constructor
    · intro h i pointer hi _ hpointer
      obtain rfl := Option.some.inj hi
      exact h pointer trivial hpointer
    · exact fun h pointer _ hpointer => h 5 pointer rfl
        (fun h => absurd (Option.some.inj h) (by decide)) hpointer
  | sam => exact hfirst _ _ rfl rfl rfl
  | rel => exact hfirst _ _ rfl rfl rfl
  | grs => exact hfirst _ _ rfl rfl rfl
  | gra => exact hfirst _ _ rfl rfl rfl
  | cgb => exact hgroup _ _ rfl rfl
  | cga => exact hgroup _ _ rfl rfl
  | cgu => exact hgroup _ _ rfl rfl
  | cua => exact hgroup _ _ rfl rfl
  | acm => exact hnone rfl rfl
  | blk => exact hnone rfl rfl
  | bla => exact hnone rfl rfl
  | con => exact hnone rfl rfl
  | anm => exact hnone rfl rfl
  | rlc => exact hnone rfl rfl
  | sus => exact hnone rfl rfl
  | res => exact hnone rfl rfl
  | rsc => exact hnone rfl rfl
  | cpr => exact hnone rfl rfl
  | ubl => exact hnone rfl rfl
  | uec => exact hnone rfl rfl
  | ccr => exact hnone rfl rfl
  | cot => exact hnone rfl rfl

/-! ## What is written -/

/-- What is written is written by the decoder of an entry. -/
theorem mem_writes_run (h : decodeParams typ params = some r) {w : ParameterCode × Write}
    (hw : w ∈ r.writes) : ∃ e ∈ decodersOf typ.signature, ∃ p ok ws, w.1 = e.code ∧
      e.decoder.run e.data p = some (ok, ws) ∧ w.2 ∈ ws := by
  obtain ⟨⟨calls, ok⟩, hcalls, h⟩ := Option.bind_eq_some_iff.1 h
  obtain ⟨wss, hwss, rfl⟩ := Option.map_eq_some_iff.1 h
  obtain ⟨l, hl, hwl⟩ := List.mem_flatten.1 hw
  obtain ⟨⟨e, p⟩, hcall, hwrites⟩ := exists_of_mem_mapM hwss hl
  obtain ⟨ok', ws, hrun, -⟩ := e.run_inside p
  rw [Entry.writes, hrun, Option.map_some] at hwrites
  obtain rfl := Option.some.inj hwrites
  obtain ⟨w', hw', rfl⟩ := List.mem_map.1 hwl
  exact ⟨e, paramDecode_calls hcalls (e, p) hcall, p, ok', ws, rfl, hrun, hw'⟩

/-- And inside what the decoder is for. -/
theorem mem_writes (h : decodeParams typ params = some r) {w : ParameterCode × Write}
    (hw : w ∈ r.writes) : ∃ e ∈ decodersOf typ.signature, w.1 = e.code ∧
      w.2.block.Within ⟨e.data + e.decoder.span.base, e.decoder.span.size⟩ := by
  obtain ⟨e, he, p, ok, ws, hcode, hrun, hmem⟩ := mem_writes_run h hw
  obtain ⟨ok', ws', hrun', hin⟩ := e.run_inside p
  obtain ⟨-, rfl⟩ := Prod.mk.inj (Option.some.inj (hrun.symm.trans hrun'))
  exact ⟨e, he, hcode, hin w.2 hmem⟩

/-- The entry that is not for its own field. -/
def obcEntry : Entry :=
  ⟨.optionalBackwardCallIndicators, .optionalBackwardCallIndicators, anmObcInd.base⟩

/-- **Every other entry is for its own field.** -/
theorem entry_field (typ : MsgType) : ∀ e ∈ decodersOf typ.signature, typ = .con ∧ e = obcEntry ∨
    ∃ f ∈ fieldOf typ e.code,
      Block.Within ⟨e.data + e.decoder.span.base, e.decoder.span.size⟩ f := by
  cases typ <;> decide

/-- **The fields of a type are apart.** -/
theorem fields_apart (typ : MsgType) {c c' : ParameterCode} {f f' : Block}
    (hf : fieldOf typ c = some f) (hf' : fieldOf typ c' = some f') (hne : c ≠ c') : f.Apart f' := by
  have hall : ∀ c ∈ ParameterCode.all, ∀ c' ∈ ParameterCode.all, c ≠ c' →
      ∀ f ∈ fieldOf typ c, ∀ f' ∈ fieldOf typ c', f.Apart f' := by
    cases typ <;> decide +kernel
  exact hall c c.mem_all c' c'.mem_all hne f hf f' hf'

/-- **What is in a field stays** if each parameter is written to its own. -/
theorem stays_of_own {ws : List (ParameterCode × Write)}
    (hown : ∀ w ∈ ws, ∃ f, fieldOf typ w.1 = some f ∧ w.2.block.Within f) {c : ParameterCode}
    {f : Block} (hf : fieldOf typ c = some f) {before after : List (ParameterCode × Write)}
    (hws : ws = before ++ after) (hafter : ∀ w ∈ after, w.1 ≠ c) :
    load (stored ws) f.base f.size = load (stored before) f.base f.size := by
  rw [hws, stored, List.map_append, storeAll_append]
  refine load_storeAll_apart fun w hw => ?_
  obtain ⟨w', hw', rfl⟩ := List.mem_map.1 hw
  obtain ⟨f', hf', hin⟩ := hown w' (by rw [hws]; exact List.mem_append_right _ hw')
  exact (fields_apart typ hf hf' (hafter w' hw').symm).within (Block.Within.refl f) hin

theorem eq_obcEntry : ∀ e ∈ decodersOf MsgType.con.signature,
    e.code = .optionalBackwardCallIndicators → e = obcEntry := by
  decide

theorem obcEntry_writes (p : List Octet) :
    (p = [] → obcEntry.accepts p = false ∧ obcEntry.writes p = some []) ∧
      (p ≠ [] → ∃ w, obcEntry.writes p = some [(.optionalBackwardCallIndicators, w)]) := by
  cases p with
  | nil => exact ⟨fun _ => ⟨rfl, rfl⟩, fun h => absurd rfl h⟩
  | cons o p => exact ⟨fun h => absurd h (List.cons_ne_nil _ _), fun _ => ⟨_, rfl⟩⟩

/-- The call of a decoder that is not for its own field. -/
theorem paramDecode_con : ∃ calls ok,
    paramDecode Entry.accepts params MsgType.con.signature = some (calls, ok) ∧
      ((∃ p, (obcEntry, p) ∈ calls ∧ p ≠ []) ↔ ObcStated params) := by
  have hnone : params[2]? = none → ¬ObcStated params := by
    rintro hnone ⟨pointer, o, hpointer, -⟩
    exact Option.some_ne_none _ (hpointer.symm.trans hnone)
  have hempty : ¬∃ p, (obcEntry, p) ∈ ([] : List (Entry × List Octet)) ∧ p ≠ [] :=
    fun ⟨_, h, _⟩ => List.not_mem_nil h
  by_cases hshort : params.length < 2
  · have hfixed : decodeFixed Entry.accepts params 0 MsgType.con.signature.fixed =
        some Part.refused := by
      unfold MsgType.signature fixedEntry
      simp only [decodeFixed]
      rw [if_pos (by omega)]
    refine ⟨[], false, ?_, iff_of_false hempty (hnone (List.getElem?_eq_none (by omega)))⟩
    unfold paramDecode
    rw [hfixed]
    rfl
  -- the backward call indicators, whose decoder accepts
  obtain ⟨a, b, rest, rfl⟩ : ∃ a b rest, params = a :: b :: rest := by
    cases params with
    | nil => exact absurd Nat.two_pos hshort
    | cons a params =>
      cases params with
      | nil => exact absurd Nat.one_lt_two hshort
      | cons b rest => exact ⟨a, b, rest, rfl⟩
  let first : Entry := ⟨.backwardCallIndicators, .backwardsInd, conBackInd.base⟩
  have hfixed : decodeFixed Entry.accepts (a :: b :: rest) 0 MsgType.con.signature.fixed =
      some ⟨[(first, [a, b])], some 2⟩ := by
    unfold MsgType.signature fixedEntry
    simp only [decodeFixed]
    rw [if_neg (by rw [List.length_cons, List.length_cons]; omega)]
    rfl
  have hother : ∀ calls, (∃ p, (obcEntry, p) ∈ (first, [a, b]) :: calls ∧ p ≠ []) ↔
      ∃ p, (obcEntry, p) ∈ calls ∧ p ≠ [] := by
    intro calls
    have hne : ∀ p, (obcEntry, p) ≠ (first, [a, b]) :=
      fun p h => ParameterCode.noConfusion (congrArg (fun c : Entry × List Octet => c.1.code) h)
    constructor
    · rintro ⟨p, hp, hsome⟩
      exact ⟨p, (List.mem_cons.1 hp).resolve_left (hne p), hsome⟩
    · rintro ⟨p, hp, hsome⟩
      exact ⟨p, List.mem_cons_of_mem _ hp, hsome⟩
  have hvarying : decodeVariable Entry.accepts (a :: b :: rest) 2 MsgType.con.signature.varying =
      some ⟨[], some 2⟩ := rfl
  have hoptional : MsgType.con.signature.optional =
      [(.optionalBackwardCallIndicators, some obcEntry)] := rfl
  unfold paramDecode
  rw [hfixed, Option.bind_eq_bind, Option.bind_some]
  dsimp only
  rw [hvarying, Option.bind_some]
  dsimp only
  rw [hoptional, if_neg (by decide), if_neg (List.cons_ne_nil _ _)]
  rcases hpointer : (a :: b :: rest)[2]? with _ | pointer
  · exact ⟨_, _, rfl, iff_of_false (fun h => hempty ((hother []).1 h)) (hnone hpointer)⟩
  dsimp only
  by_cases hzero : pointer = 0
  · rw [if_pos hzero]
    refine ⟨_, _, rfl, iff_of_false (fun h => hempty ((hother []).1 h)) ?_⟩
    rintro ⟨pointer', o, hpointer', hne, -⟩
    obtain rfl := Option.some.inj (hpointer.symm.trans hpointer')
    exact hne hzero
  rw [if_neg hzero]
  obtain ⟨next, heq⟩ := @decodeOptional_eq_callAll Entry Entry.accepts (a :: b :: rest)
    [(.optionalBackwardCallIndicators, some obcEntry)] (2 + pointer.toNat)
  obtain ⟨part, hpart⟩ := Option.isSome_iff_exists.1 (@callAll_isSome Entry Entry.accepts
    [(.optionalBackwardCallIndicators, some obcEntry)] next
      (optionals (a :: b :: rest) (2 + pointer.toNat)))
  obtain ⟨habsent, hpresent⟩ := callAll_single _ part hpart
  rw [heq, hpart, Option.bind_some]
  refine ⟨_, _, rfl, (hother part.calls).trans ⟨?_, ?_⟩⟩
  · rintro ⟨p, hp, hsome⟩
    rcases hfind : (optionals (a :: b :: rest) (2 + pointer.toNat)).find?
      (fun o => o.1 = ParameterCode.optionalBackwardCallIndicators.code) with _ | o
    · rw [habsent hfind] at hp
      exact absurd hp List.not_mem_nil
    · refine ⟨pointer, o, hpointer, hzero, hfind, fun ho => hsome ?_⟩
      obtain ⟨calls, hcalls, hstop⟩ := hpresent o hfind
      rw [hcalls, hstop ((obcEntry_writes o.2).1 ho).1] at hp
      exact (congrArg Prod.snd (List.mem_singleton.1 hp)).trans ho
  · rintro ⟨pointer', o, hpointer', -, hfind, hsome⟩
    obtain rfl := Option.some.inj (hpointer.symm.trans hpointer')
    obtain ⟨calls, hcalls, -⟩ := hpresent o hfind
    exact ⟨o.2, by rw [hcalls]; exact List.mem_cons_self, hsome⟩

/-- **Exactly when another field is written**: there are optional backward call
indicators. -/
theorem obc_written_iff (h : decodeParams .con params = some r) :
    (∃ w ∈ r.writes, w.1 = .optionalBackwardCallIndicators) ↔ ObcStated params := by
  obtain ⟨calls, ok, hcalls, hiff⟩ := @paramDecode_con params
  unfold decodeParams at h
  rw [hcalls, Option.bind_some] at h
  obtain ⟨wss, hwss, rfl⟩ := Option.map_eq_some_iff.1 h
  rw [← hiff]
  constructor
  · rintro ⟨w, hw, hcode⟩
    obtain ⟨l, hl, hwl⟩ := List.mem_flatten.1 hw
    obtain ⟨⟨e, p⟩, hcall, hwrites⟩ := exists_of_mem_mapM hwss hl
    have hobc : e = obcEntry := by
      refine eq_obcEntry e (paramDecode_calls hcalls (e, p) hcall) ?_
      obtain ⟨r', -, rfl⟩ := Option.map_eq_some_iff.1 hwrites
      obtain ⟨w', -, rfl⟩ := List.mem_map.1 hwl
      exact hcode
    subst hobc
    refine ⟨p, hcall, fun hp => ?_⟩
    have hnothing := ((obcEntry_writes p).1 hp).2
    obtain rfl := Option.some.inj (hnothing.symm.trans hwrites)
    exact List.not_mem_nil hwl
  · rintro ⟨p, hcall, hsome⟩
    obtain ⟨l, hl, hwrites⟩ := mem_of_mapM hwss hcall
    obtain ⟨w, hw⟩ := (obcEntry_writes p).2 hsome
    obtain rfl := Option.some.inj (hw.symm.trans hwrites)
    exact ⟨_, List.mem_flatten.2 ⟨_, hl, List.mem_singleton_self _⟩, rfl⟩

/-- They are not written to their own. -/
theorem not_own_obc (h : decodeParams .con params = some r) (hobc : ObcStated params) :
    ¬∀ w ∈ r.writes, ∃ f, fieldOf .con w.1 = some f ∧ w.2.block.Within f := by
  intro hown
  obtain ⟨w, hw, hcode⟩ := (obc_written_iff h).2 hobc
  obtain ⟨f, hf, hown⟩ := hown w hw
  obtain ⟨e, he, hentry, hin⟩ := mem_writes h hw
  obtain rfl := eq_obcEntry e he (hentry.symm.trans hcode)
  rw [hcode] at hf
  obtain rfl := Option.some.inj hf
  have hlow : w.2.block.base + w.2.block.size ≤ 4 := hin.2
  have hhigh : 8 ≤ w.2.block.base := hown.1
  omega

/-! ## The message -/

/-- **Exactly when a message is decoded as it should be.** -/
theorem decodeRight_iff (variant : Ss7Variant) (buf : List Octet) :
    DecodeRight variant buf ↔ ∀ typ params, caseOf variant buf = some (typ, params) →
      PointerInside typ params ∧ (typ = .con → ¬ObcStated params) := by
  rcases hcase : caseOf variant buf with _ | ⟨typ, params⟩
  · -- no case, nothing is done
    have hdecode : decodeIsupMsg variant buf = some ⟨false, []⟩ := by rw [decodeIsupMsg, hcase]
    refine iff_of_true ⟨by rw [hdecode]; rfl, fun r typ params _ h => ?_, fun r typ params _ h => ?_⟩
      fun typ params h => absurd h (Option.some_ne_none _).symm
    · exact absurd (hcase.symm.trans h) (Option.some_ne_none _).symm
    · exact absurd (hcase.symm.trans h) (Option.some_ne_none _).symm
  have hdecode : decodeIsupMsg variant buf = decodeParams typ params := by rw [decodeIsupMsg, hcase]
  constructor
  · intro h typ' params' hcase'
    obtain ⟨rfl, rfl⟩ := Prod.mk.inj (Option.some.inj hcase')
    have hreads := h.reads
    rw [hdecode] at hreads
    refine ⟨decodeParams_isSome_iff.1 hreads, ?_⟩
    rintro rfl hobc
    obtain ⟨r, hr⟩ := Option.isSome_iff_exists.1 hreads
    exact not_own_obc hr hobc (h.writes r .con params (hdecode.trans hr) hcase)
  · intro h
    obtain ⟨hpointer, hobc⟩ := h typ params rfl
    have hown : ∀ r, decodeParams typ params = some r → ∀ w ∈ r.writes,
        ∃ f, fieldOf typ w.1 = some f ∧ w.2.block.Within f := by
      intro r hr w hw
      obtain ⟨e, he, hcode, hin⟩ := mem_writes hr hw
      rw [hcode]
      rcases entry_field typ e he with ⟨rfl, rfl⟩ | ⟨f, hf, hwithin⟩
      · exact absurd ((obc_written_iff hr).1 ⟨w, hw, hcode⟩) (hobc rfl)
      · exact ⟨f, hf, hin.trans hwithin⟩
    refine ⟨?_, fun r typ' params' hr hcase' => ?_, fun r typ' params' hr hcase' c f hf before after
      hws hafter => ?_⟩
    · rw [hdecode]
      exact decodeParams_isSome_iff.2 hpointer
    · obtain ⟨rfl, rfl⟩ := Prod.mk.inj (Option.some.inj (hcase.symm.trans hcase'))
      exact hown r (hdecode.symm.trans hr)
    · obtain ⟨rfl, rfl⟩ := Prod.mk.inj (Option.some.inj (hcase.symm.trans hcase'))
      exact stays_of_own (hown r (hdecode.symm.trans hr)) hf hws hafter

/-- A release whose pointer leads out of it, and a connect with optional backward
call indicators. -/
theorem not_decodeRight :
    ¬DecodeRight .itu [0, 0, 0, 0, 0, 0, 0x0c, 255] ∧
      ¬DecodeRight .itu [0, 0, 0, 0, 0, 0, 0x07, 4, 4, 1, 0x29, 1, 5, 0] := by
  constructor
  · intro h
    exact Bool.false_ne_true h.reads
  · intro h
    have hcase : caseOf .itu [0, 0, 0, 0, 0, 0, 0x07, 4, 4, 1, 0x29, 1, 5, 0] =
        some (.con, [4, 4, 1, 0x29, 1, 5, 0]) := by decide
    have hdecode : decodeIsupMsg .itu [0, 0, 0, 0, 0, 0, 0x07, 4, 4, 1, 0x29, 1, 5, 0] =
        decodeParams .con [4, 4, 1, 0x29, 1, 5, 0] := by rw [decodeIsupMsg, hcase]
    have hobc : ObcStated [4, 4, 1, 0x29, 1, 5, 0] :=
      ⟨1, (0x29, [5]), rfl, by decide, by simp [optionals, ParameterCode.code], List.cons_ne_nil _ _⟩
    obtain ⟨r, hr⟩ := Option.isSome_iff_exists.1 h.reads
    exact not_own_obc (hdecode.symm.trans hr) hobc (h.writes r .con _ hr hcase)

end Union

end Isup

end Trismedia
