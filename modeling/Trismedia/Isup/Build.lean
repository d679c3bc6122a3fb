import Mathlib.Tactic.SplitIfs
import Trismedia.Common.Stands
import Trismedia.Isup.Model
/-!
# What the builder writes

The parameters of a message, and the octets that come out when they are added
in the documented order to a buffer that is large enough. A pointer counts the
places of the table from its own on and the parameters added before.
-/


namespace Trismedia

namespace Isup

open Mtp2

variable {δ : Type*} {buflen k : ℕ} {b : Building} {pre bodies : List Octet}

/-! ## Messages -/

/-- A parameter, with the decoder it is for. -/
structure Param (δ : Type*) where
  code : ParameterCode
  data : List Octet
  decoder : Option δ

/-- A message. `optionalAllowed` is whether its type has an optional part,
`started` whether it is begun in this message. -/
structure Message (δ : Type*) where
  variant : Ss7Variant
  opc : ℕ
  dpc : ℕ
  cic : ℕ
  typ : Octet
  fixed : List (Param δ)
  varying : List (Param δ)
  optionalAllowed : Bool
  started : Bool
  optional : List (Param δ)

/-- The message built in the documented order. -/
def Message.build (buflen : ℕ) (m : Message δ) : List Octet :=
  let b := isupMsgInit buflen m.variant m.opc m.dpc m.cic m.typ ⟨[], 0⟩
  let b := m.fixed.foldl (fun b p => isupMsgAddFixed buflen b p.data) b
  let b := isupMsgStartVariablePart buflen b m.varying.length m.optionalAllowed
  let b := m.varying.foldl (fun b p => isupMsgAddVariable buflen b p.data) b
  if m.started then
    let b := isupMsgStartOptionalPart buflen b
    let b := m.optional.foldl (fun b p => isupMsgAddOptional buflen b p.code p.data) b
    (isupMsgEndOptionalPart buflen b).buf
  else b.buf

/-! ## Their octets -/

def fixedOctets (ps : List (Param δ)) : List Octet := ps.flatMap Param.data

def varyingOctets (ps : List (Param δ)) : List Octet :=
  ps.flatMap fun p => UInt8.ofNat p.data.length :: p.data

def optionalOctets (ps : List (Param δ)) : List Octet :=
  ps.flatMap fun p => p.code.code :: UInt8.ofNat p.data.length :: p.data

/-- The pointers to the parameters; `gap` is from the first pointer to the
first parameter. -/
def pointers (gap : ℕ) : List (Param δ) → List ℕ
  | [] => []
  | p :: ps => gap :: pointers (gap + p.data.length) ps

/-- The pointer that comes after them. -/
def nextPointer (gap : ℕ) (ps : List (Param δ)) : ℕ := gap + (fixedOctets ps).length

namespace Message

/-- The size of the table of pointers. -/
def slots (m : Message δ) : ℕ := m.varying.length + if m.optionalAllowed then 1 else 0

def label (m : Message δ) : List Octet :=
  mtp3PutLabel (m.cic &&& 0x000f) m.variant m.opc m.dpc ++
    [UInt8.ofNat (m.cic &&& 0xff), UInt8.ofNat ((m.cic &&& 0x0f00) >>> 8), m.typ]

/-- The pointer to the optional part, 0 if there is none. -/
def optionalPointer (m : Message δ) : List Octet :=
  if m.optionalAllowed then
    [if m.started then UInt8.ofNat (nextPointer m.slots m.varying) else 0]
  else []

def optionalPart (m : Message δ) : List Octet :=
  if m.started then optionalOctets m.optional ++ [0] else []

/-- What is behind the label. -/
def body (m : Message δ) : List Octet :=
  fixedOctets m.fixed ++ ((pointers m.slots m.varying).map UInt8.ofNat ++ m.optionalPointer) ++
    (varyingOctets m.varying ++ m.optionalPart)

/-- **A message that can be built**: the numbers fit the label, the
parameters and the pointers an octet. -/
structure Valid (m : Message δ) : Prop where
  opc_lt : m.opc < 2 ^ (if m.variant = .itu then 14 else 24)
  dpc_lt : m.dpc < 2 ^ (if m.variant = .itu then 14 else 24)
  cic_lt : m.cic < 4096
  short : ∀ p ∈ m.fixed ++ m.varying ++ m.optional, p.data.length ≤ 255
  pointer_le : ∀ x ∈ pointers m.slots m.varying, x ≤ 255
  optional_le : m.started = true → nextPointer m.slots m.varying ≤ 255
  started : m.optional ≠ [] → m.started = true
  allowed : m.started = true → m.optionalAllowed = true

end Message

/-! ## The functions of the builder -/

theorem addFixed_foldl (ps : List (Param δ)) : ∀ b : Building,
    (∀ p ∈ ps, p.data.length ≤ 255) → b.buf.length + (fixedOctets ps).length ≤ buflen →
      ps.foldl (fun b p => isupMsgAddFixed buflen b p.data) b =
        { b with buf := b.buf ++ fixedOctets ps } := by
  induction ps with
  | nil =>
    intro b _ _
    simp [fixedOctets]
  | cons p ps ih =>
    intro b hshort hroom
    obtain ⟨hp, hps⟩ := List.forall_mem_cons.1 hshort
    have hcons : fixedOctets (p :: ps) = p.data ++ fixedOctets ps := rfl
    rw [hcons, List.length_append] at hroom
    have hone : isupMsgAddFixed buflen b p.data = { b with buf := b.buf ++ p.data } := by
      unfold isupMsgAddFixed
      rw [if_neg (by omega), if_neg (by omega)]
    rw [List.foldl_cons, hone, ih _ hps (by simp only [List.length_append]; omega), hcons]
    simp only [List.append_assoc]

theorem set_mid (pre post : List Octet) (x y : Octet) :
    (pre ++ x :: post).set pre.length y = pre ++ y :: post := by
  simp

/-- **The pointers are patched** as the parameters are added. -/
theorem addVariable_foldl (ps : List (Param δ)) : ∀ (pre bodies : List Octet),
    (∀ p ∈ ps, p.data.length ≤ 255) →
      (∀ x ∈ pointers (ps.length + k + bodies.length) ps, x ≤ 255) →
        (pre ++ List.replicate (ps.length + k) 0 ++ bodies).length + (varyingOctets ps).length ≤
            buflen →
          ps.foldl (fun b p => isupMsgAddVariable buflen b p.data)
              ⟨pre ++ List.replicate (ps.length + k) 0 ++ bodies, pre.length⟩ =
            ⟨pre ++ (pointers (ps.length + k + bodies.length) ps).map UInt8.ofNat ++
                List.replicate k 0 ++ (bodies ++ varyingOctets ps), pre.length + ps.length⟩ := by
  induction ps with
  | nil =>
    intro pre bodies _ _ _
    simp [pointers, varyingOctets]
  | cons p ps ih =>
    intro pre bodies hshort hpointers hroom
    obtain ⟨hp, hps⟩ := List.forall_mem_cons.1 hshort
    have hcons : varyingOctets (p :: ps) =
        (UInt8.ofNat p.data.length :: p.data) ++ varyingOctets ps := rfl
    have hslots : (p :: ps).length + k = ps.length + k + 1 := by
      rw [List.length_cons]
      omega
    rw [hslots] at hpointers hroom ⊢
    obtain ⟨hgap, hrest⟩ := List.forall_mem_cons.1 hpointers
    have hbuf : pre ++ List.replicate (ps.length + k + 1) (0 : Octet) ++ bodies =
        pre ++ 0 :: (List.replicate (ps.length + k) 0 ++ bodies) := by
      rw [List.replicate_succ, List.append_assoc, List.cons_append]
    have hlen : (pre ++ (0 : Octet) :: (List.replicate (ps.length + k) 0 ++ bodies)).length =
        pre.length + (ps.length + k + 1 + bodies.length) := by
      simp only [List.length_append, List.length_cons, List.length_replicate]
      omega
    rw [hbuf, hcons, hlen, List.length_append, List.length_cons] at hroom
    have hone : isupMsgAddVariable buflen
        ⟨pre ++ (0 : Octet) :: (List.replicate (ps.length + k) 0 ++ bodies), pre.length⟩ p.data =
          ⟨(pre ++ [UInt8.ofNat (ps.length + k + 1 + bodies.length)]) ++
            List.replicate (ps.length + k) 0 ++ (bodies ++ UInt8.ofNat p.data.length :: p.data),
            (pre ++ [UInt8.ofNat (ps.length + k + 1 + bodies.length)]).length⟩ := by
      unfold isupMsgAddVariable
      simp only [hlen, set_mid, Nat.add_sub_cancel_left]
      rw [if_neg (by omega), if_neg (by omega), if_neg (by omega), if_neg (by omega)]
      simp
    have hgap' : ps.length + k + (bodies ++ UInt8.ofNat p.data.length :: p.data).length =
        ps.length + k + 1 + bodies.length + p.data.length := by
      simp only [List.length_append, List.length_cons]
      omega
    rw [List.foldl_cons, hbuf, hone, ih _ _ hps, hgap']
    · simp only [pointers, List.map_cons, hcons, List.append_assoc, List.cons_append,
        List.nil_append, List.length_append, List.length_cons, List.length_nil,
        Building.mk.injEq, true_and]
      omega
    · rw [hgap']
      exact hrest
    · simp only [List.length_append, List.length_replicate, List.length_cons, List.length_nil]
      omega

theorem addOptional_foldl (ps : List (Param δ)) : ∀ b : Building,
    (∀ p ∈ ps, p.data.length ≤ 255) → b.buf.length + (optionalOctets ps).length ≤ buflen →
      ps.foldl (fun b p => isupMsgAddOptional buflen b p.code p.data) b =
        { b with buf := b.buf ++ optionalOctets ps } := by
  induction ps with
  | nil =>
    intro b _ _
    simp [optionalOctets]
  | cons p ps ih =>
    intro b hshort hroom
    obtain ⟨hp, hps⟩ := List.forall_mem_cons.1 hshort
    have hcons : optionalOctets (p :: ps) =
        (p.code.code :: UInt8.ofNat p.data.length :: p.data) ++ optionalOctets ps := rfl
    rw [hcons, List.length_append, List.length_cons, List.length_cons] at hroom
    have hone : isupMsgAddOptional buflen b p.code p.data =
        { b with buf := b.buf ++ (p.code.code :: UInt8.ofNat p.data.length :: p.data) } := by
      unfold isupMsgAddOptional
      rw [if_neg (by omega), if_neg (by omega)]
    rw [List.foldl_cons, hone, ih _ hps
      (by simp only [List.length_append, List.length_cons]; omega), hcons]
    simp only [List.append_assoc]

/-! ## The whole message -/

theorem length_label (m : Message δ) : 7 ≤ m.label.length := by
  unfold Message.label
  cases m.variant <;> simp [mtp3PutLabel]

theorem length_pointers (ps : List (Param δ)) : ∀ gap, (pointers gap ps).length = ps.length := by
  induction ps with
  | nil => exact fun _ => rfl
  | cons p ps ih => exact fun gap => congrArg Nat.succ (ih _)

theorem length_varyingOctets (ps : List (Param δ)) :
    (varyingOctets ps).length = ps.length + (fixedOctets ps).length := by
  induction ps with
  | nil => rfl
  | cons p ps ih =>
    have hvarying : varyingOctets (p :: ps) =
        (UInt8.ofNat p.data.length :: p.data) ++ varyingOctets ps := rfl
    have hfixed : fixedOctets (p :: ps) = p.data ++ fixedOctets ps := rfl
    rw [hvarying, hfixed, List.length_append, List.length_append, List.length_cons,
      List.length_cons, ih]
    omega

/-- The optional part, behind the others. -/
theorem startOptionalPart_eq {pre bodies : List Octet} {x : Octet} (hle : bodies.length + 1 ≤ 255)
    (hroom : (pre ++ x :: bodies).length + 1 ≤ buflen) :
    isupMsgStartOptionalPart buflen ⟨pre ++ x :: bodies, pre.length⟩ =
      ⟨pre ++ UInt8.ofNat (bodies.length + 1) :: bodies, pre.length + 1⟩ := by
  have hlen : (pre ++ x :: bodies).length = pre.length + (bodies.length + 1) := by
    rw [List.length_append, List.length_cons]
  rw [hlen] at hroom
  unfold isupMsgStartOptionalPart
  simp only [hlen, set_mid, Nat.add_sub_cancel_left]
  rw [if_neg (by omega), if_neg (by omega), if_neg (by omega)]

/-- **The message built**, in a buffer that is large enough. -/
theorem build_eq (m : Message δ) (hm : m.Valid) (hroom : (m.label ++ m.body).length ≤ buflen) :
    m.build buflen = m.label ++ m.body := by
  have hlabel := length_label m
  have hshort : ∀ ps : List (Param δ), (∀ p ∈ ps, p ∈ m.fixed ++ m.varying ++ m.optional) →
      ∀ p ∈ ps, p.data.length ≤ 255 := fun ps hps p hp => hm.short p (hps p hp)
  have hslots : m.varying.length + (if m.optionalAllowed = true then 1 else 0) = m.slots := rfl
  have htotal : (m.label ++ m.body).length = m.label.length + (fixedOctets m.fixed).length +
      m.slots + (varyingOctets m.varying).length + m.optionalPart.length := by
    unfold Message.body Message.slots Message.optionalPointer
    simp only [List.length_append, List.length_map, length_pointers]
    split_ifs <;> simp <;> omega
  -- up to the parameters of variable length
  have hinit : isupMsgInit buflen m.variant m.opc m.dpc m.cic m.typ ⟨[], 0⟩ = ⟨m.label, 0⟩ := by
    unfold isupMsgInit
    rw [if_neg (by omega)]
    rfl
  have hfixed := @addFixed_foldl δ buflen m.fixed ⟨m.label, 0⟩
    (hshort _ fun p hp => by simp [hp]) (by simp only; omega)
  have hstart : isupMsgStartVariablePart buflen ⟨m.label ++ fixedOctets m.fixed, 0⟩ m.varying.length
      m.optionalAllowed =
        ⟨(m.label ++ fixedOctets m.fixed) ++ List.replicate m.slots 0 ++ [],
          (m.label ++ fixedOctets m.fixed).length⟩ := by
    unfold isupMsgStartVariablePart
    simp only [hslots, List.length_append, List.append_nil]
    rw [if_neg (by omega)]
  have hvarying := @addVariable_foldl δ buflen (if m.optionalAllowed then 1 else 0)
    m.varying (m.label ++ fixedOctets m.fixed) [] (hshort _ fun p hp => by simp [hp])
    hm.pointer_le (by
      simp only [hslots, List.length_append, List.length_replicate, List.length_nil]
      omega)
  rw [hslots] at hvarying
  simp only [List.length_nil, Nat.add_zero, List.nil_append] at hvarying
  unfold Message.build
  simp only [hinit, hfixed, hstart, hvarying]
  by_cases hopt : m.started = true
  swap
  · have hpointer : m.optionalPointer =
        List.replicate (if m.optionalAllowed = true then 1 else 0) 0 := by
      unfold Message.optionalPointer
      rw [if_neg hopt]
      split_ifs <;> rfl
    have hpart : m.optionalPart = [] := if_neg hopt
    rw [if_neg hopt]
    simp only [Message.body, hpointer, hpart, List.append_nil, List.append_assoc]
  · have hallowed := hm.allowed hopt
    have hpart : m.optionalPart = optionalOctets m.optional ++ [0] := if_pos hopt
    have hone : (varyingOctets m.varying).length + 1 = nextPointer m.slots m.varying := by
      rw [length_varyingOctets, nextPointer, ← hslots, hallowed]
      simp only [reduceIte]
      omega
    have hle := hm.optional_le hopt
    have hlen := congrArg List.length hpart
    rw [List.length_append, List.length_singleton] at hlen
    have hbuf : m.label ++ fixedOctets m.fixed ++ (pointers m.slots m.varying).map UInt8.ofNat ++
        List.replicate (if m.optionalAllowed = true then 1 else 0) 0 ++ varyingOctets m.varying =
          (m.label ++ fixedOctets m.fixed ++ (pointers m.slots m.varying).map UInt8.ofNat) ++
            0 :: varyingOctets m.varying := by
      rw [hallowed]
      simp
    have hptr : (m.label ++ fixedOctets m.fixed).length + m.varying.length =
        (m.label ++ fixedOctets m.fixed ++ (pointers m.slots m.varying).map UInt8.ofNat).length := by
      simp only [List.length_append, List.length_map, length_pointers]
    have hroom' : (m.label ++ fixedOctets m.fixed ++
        (pointers m.slots m.varying).map UInt8.ofNat ++
          (0 : Octet) :: varyingOctets m.varying).length + 1 + (optionalOctets m.optional).length ≤
            buflen := by
      rw [htotal] at hroom
      rw [hallowed] at hslots
      simp only [List.length_append, List.length_cons, List.length_map, length_pointers,
        reduceIte] at hslots ⊢
      omega
    rw [if_pos hopt, hbuf, hptr, startOptionalPart_eq (by omega) (by omega), hone,
      addOptional_foldl _ _ (hshort _ fun p hp => by simp [hp])
        (by simp only [List.length_append, List.length_cons] at hroom' ⊢; omega)]
    unfold isupMsgEndOptionalPart
    rw [if_neg (by simp only [List.length_append, List.length_cons] at hroom' ⊢; omega)]
    simp [Message.body, Message.optionalPointer, hallowed, hopt, hpart]

end Isup

end Trismedia
