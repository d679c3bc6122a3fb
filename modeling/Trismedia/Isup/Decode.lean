import Mathlib.Data.List.Perm.Subperm
import Trismedia.Isup.Build
/-!
# What is decoded of a message built

The label gives back its numbers, and `param_decode` hands to each decoder the
octets that were added for it. A signature that has a code twice finds the
first decoder both times.
-/


namespace Trismedia

namespace Isup

open Mtp2

variable {δ : Type*} {buflen i : ℕ} {block post : List Octet} {accepts : δ → List Octet → Bool}

/-! ## The label -/

/-- Some bits of a number. -/
theorem and_shiftRight (n w k : ℕ) : (n &&& ((2 ^ w - 1) <<< k)) >>> k = n / 2 ^ k % 2 ^ w := by
  rw [Nat.shiftRight_and_distrib, Nat.shiftLeft_shiftRight, Nat.and_two_pow_sub_one_eq_mod,
    Nat.shiftRight_eq_div_pow]

/-- Bits put in front of others. -/
theorem or_shiftLeft {a k : ℕ} (b : ℕ) (ha : a < 2 ^ k) : a ||| (b <<< k) = a + b * 2 ^ k := by
  rw [Nat.or_comm, ← Nat.shiftLeft_add_eq_or_of_lt ha, Nat.shiftLeft_eq, Nat.add_comm]

/-- The octets of the label of ITU, in numbers. -/
theorem mtp3PutLabel_itu (sls opc dpc : ℕ) : mtp3PutLabel sls .itu opc dpc =
    [UInt8.ofNat (dpc % 256), UInt8.ofNat (dpc / 256 % 64 + opc % 4 * 64),
      UInt8.ofNat (opc / 4 % 256), UInt8.ofNat (opc / 1024 % 16 + sls * 16)] := by
  have hdpc : (dpc &&& 0x3f00) >>> 8 = dpc / 256 % 64 := and_shiftRight dpc 6 8
  have hopc : opc &&& 0x0003 = opc % 4 := Nat.and_two_pow_sub_one_eq_mod opc 2
  have hhigh : (opc &&& 0x3c00) >>> 10 = opc / 1024 % 16 := and_shiftRight opc 4 10
  have hmid : (opc &&& 0x03fc) >>> 2 = opc / 4 % 256 := and_shiftRight opc 8 2
  have hlow : dpc &&& 0xff = dpc % 256 := Nat.and_two_pow_sub_one_eq_mod dpc 8
  have hfirst : dpc / 256 % 64 ||| ((opc % 4) <<< 6) = dpc / 256 % 64 + opc % 4 * 64 :=
    or_shiftLeft _ (by omega)
  have hlast : opc / 1024 % 16 ||| (sls <<< 4) = opc / 1024 % 16 + sls * 16 :=
    or_shiftLeft _ (by omega)
  simp only [mtp3PutLabel, hdpc, hopc, hhigh, hmid, hlow, hfirst, hlast]

/-- What is read of a label of ITU, in numbers. -/
theorem decodeHeader_itu (a₀ a₁ a₂ a₃ a₄ a₅ typ : Octet) (rest : List Octet) :
    decodeHeader .itu (a₀ :: a₁ :: a₂ :: a₃ :: a₄ :: a₅ :: typ :: rest) =
      some (⟨a₀.toNat + a₁.toNat % 64 * 256,
        a₁.toNat / 64 + a₂.toNat * 4 + a₃.toNat % 16 * 1024, a₃.toNat / 16,
        a₄.toNat + a₅.toNat % 16 * 256, typ⟩, rest) := by
  have h₀ := a₀.toNat_lt
  have h₁ := a₁.toNat_lt
  have h₂ := a₂.toNat_lt
  have h₃ := a₃.toNat_lt
  have h₄ := a₄.toNat_lt
  have hdpc : a₀.toNat ||| ((a₁.toNat &&& 0x3f) <<< 8) = a₀.toNat + a₁.toNat % 64 * 256 := by
    rw [← Nat.and_two_pow_sub_one_eq_mod a₁.toNat 6]
    exact or_shiftLeft _ (by omega)
  have hlow : (a₁.toNat &&& 0xc0) >>> 6 = a₁.toNat / 64 :=
    (and_shiftRight a₁.toNat 2 6).trans (by omega)
  have hmid : a₁.toNat / 64 ||| (a₂.toNat <<< 2) = a₁.toNat / 64 + a₂.toNat * 4 :=
    or_shiftLeft _ (by omega)
  have hopc : (a₁.toNat / 64 + a₂.toNat * 4) ||| ((a₃.toNat &&& 0x0f) <<< 10) =
      a₁.toNat / 64 + a₂.toNat * 4 + a₃.toNat % 16 * 1024 := by
    rw [← Nat.and_two_pow_sub_one_eq_mod a₃.toNat 4]
    exact or_shiftLeft _ (by omega)
  have hsls : (a₃.toNat &&& 0xf0) >>> 4 = a₃.toNat / 16 :=
    (and_shiftRight a₃.toNat 4 4).trans (by omega)
  have hcic : a₄.toNat ||| ((a₅.toNat &&& 0x0f) <<< 8) = a₄.toNat + a₅.toNat % 16 * 256 := by
    rw [← Nat.and_two_pow_sub_one_eq_mod a₅.toNat 4]
    exact or_shiftLeft _ (by omega)
  simp [decodeHeader, hdpc, hlow, hmid, hopc, hsls, hcic]

/-- The same of China. -/
theorem mtp3PutLabel_china (sls opc dpc : ℕ) : mtp3PutLabel sls .china opc dpc =
    [UInt8.ofNat (dpc % 256), UInt8.ofNat (dpc / 256 % 256), UInt8.ofNat (dpc / 65536 % 256),
      UInt8.ofNat (opc % 256), UInt8.ofNat (opc / 256 % 256), UInt8.ofNat (opc / 65536 % 256),
      UInt8.ofNat (sls % 16)] := by
  have hlow : ∀ n, n &&& 0xff = n % 256 := fun n => Nat.and_two_pow_sub_one_eq_mod n 8
  have hmid : ∀ n, (n &&& 0xff00) >>> 8 = n / 256 % 256 := fun n => and_shiftRight n 8 8
  have hhigh : ∀ n, (n &&& 0xff0000) >>> 16 = n / 65536 % 256 := fun n => and_shiftRight n 8 16
  have hsls : sls &&& 0x0f = sls % 16 := Nat.and_two_pow_sub_one_eq_mod sls 4
  simp only [mtp3PutLabel, hlow, hmid, hhigh, hsls]

theorem decodeHeader_china (a₀ a₁ a₂ a₃ a₄ a₅ a₆ a₇ a₈ typ : Octet) (rest : List Octet) :
    decodeHeader .china (a₀ :: a₁ :: a₂ :: a₃ :: a₄ :: a₅ :: a₆ :: a₇ :: a₈ :: typ :: rest) =
      some (⟨a₀.toNat + a₁.toNat * 256 + a₂.toNat * 65536,
        a₃.toNat + a₄.toNat * 256 + a₅.toNat * 65536, a₆.toNat % 16,
        a₇.toNat + a₈.toNat % 16 * 256, typ⟩, rest) := by
  have hcode : ∀ a b c : Octet, a.toNat ||| ((b.toNat &&& 0xff) <<< 8) |||
      ((c.toNat &&& 0xff) <<< 16) = a.toNat + b.toNat * 256 + c.toNat * 65536 := by
    intro a b c
    have ha := a.toNat_lt
    have hb := b.toNat_lt
    have hc := c.toNat_lt
    have hb' : b.toNat &&& 0xff = b.toNat :=
      (Nat.and_two_pow_sub_one_eq_mod b.toNat 8).trans (by omega)
    have hc' : c.toNat &&& 0xff = c.toNat :=
      (Nat.and_two_pow_sub_one_eq_mod c.toNat 8).trans (by omega)
    have hab : a.toNat ||| (b.toNat <<< 8) = a.toNat + b.toNat * 256 := or_shiftLeft _ (by omega)
    rw [hb', hc', hab]
    exact or_shiftLeft _ (by omega)
  have hsls : a₆.toNat &&& 0x0f = a₆.toNat % 16 := Nat.and_two_pow_sub_one_eq_mod _ 4
  have h₇ := a₇.toNat_lt
  have hcic : a₇.toNat ||| ((a₈.toNat &&& 0x0f) <<< 8) = a₇.toNat + a₈.toNat % 16 * 256 := by
    rw [← Nat.and_two_pow_sub_one_eq_mod a₈.toNat 4]
    exact or_shiftLeft _ (by omega)
  simp [decodeHeader, hcode, hsls, hcic]

/-- **The point code that is read fits the label.** -/
theorem decodeHeader_opc_lt {variant : Ss7Variant} {buf rest : List Octet} {h : Header}
    (hread : decodeHeader variant buf = some (h, rest)) :
    h.opc < 2 ^ (if variant = .itu then 14 else 24) := by
  have hoct : ∀ k, (buf.getD k 0).toNat < 2 ^ 8 := fun k => UInt8.toNat_lt _
  have hshift : ∀ a n k, a < 2 ^ n → a <<< k < 2 ^ (n + k) := by
    intro a n k ha
    rw [Nat.shiftLeft_eq, Nat.pow_add]
    exact Nat.mul_lt_mul_of_pos_right ha (Nat.two_pow_pos k)
  have hwiden : ∀ {a n : ℕ} (k : ℕ), a < 2 ^ n → n ≤ k → a < 2 ^ k :=
    fun k ha hle => Nat.lt_of_lt_of_le ha (Nat.pow_le_pow_right (by omega) hle)
  unfold decodeHeader at hread
  cases variant with
  | itu =>
    dsimp only at hread
    split_ifs at hread
    rw [← (Prod.mk.inj (Option.some.inj hread)).1]
    show _ ||| _ ||| _ < 2 ^ 14
    refine Nat.or_lt_two_pow (Nat.or_lt_two_pow ?_ (hwiden 14 (hshift _ 8 2 (hoct 2)) (by omega))) ?_
    · refine Nat.lt_of_le_of_lt ?_ (hwiden 14 (hoct 1) (by omega))
      exact (Nat.shiftRight_le _ _).trans Nat.and_le_left
    · exact hshift _ 4 10 (Nat.and_lt_two_pow _ (show 0x0f < 2 ^ 4 by omega))
  | china =>
    dsimp only at hread
    split_ifs at hread
    rw [← (Prod.mk.inj (Option.some.inj hread)).1]
    show _ ||| _ ||| _ < 2 ^ 24
    refine Nat.or_lt_two_pow (Nat.or_lt_two_pow (hwiden 24 (hoct 3) (by omega)) ?_) ?_
    · exact hwiden 24 (hshift _ 8 8 (Nat.and_lt_two_pow _ (show 0xff < 2 ^ 8 by omega))) (by omega)
    · exact hshift _ 8 16 (Nat.and_lt_two_pow _ (show 0xff < 2 ^ 8 by omega))

/-- **The label is read back.** -/
theorem decodeHeader_label (variant : Ss7Variant) {opc dpc cic sls : ℕ} (typ : Octet)
    (rest : List Octet) (hopc : opc < 2 ^ (if variant = .itu then 14 else 24))
    (hdpc : dpc < 2 ^ (if variant = .itu then 14 else 24)) (hcic : cic < 4096) (hsls : sls < 16) :
    decodeHeader variant (mtp3PutLabel sls variant opc dpc ++
        [UInt8.ofNat (cic &&& 0xff), UInt8.ofNat ((cic &&& 0x0f00) >>> 8), typ] ++ rest) =
      some (⟨dpc, opc, sls, cic, typ⟩, rest) := by
  have hoct : ∀ n, (UInt8.ofNat n).toNat = n % 256 := fun _ => rfl
  have hlow : cic &&& 0xff = cic % 256 := Nat.and_two_pow_sub_one_eq_mod cic 8
  have hhigh : (cic &&& 0x0f00) >>> 8 = cic / 256 % 16 := and_shiftRight cic 4 8
  cases variant with
  | itu =>
    simp only [reduceIte] at hopc hdpc
    rw [mtp3PutLabel_itu, hlow, hhigh]
    simp only [List.cons_append, List.nil_append, decodeHeader_itu, hoct, Option.some.injEq,
      Prod.mk.injEq, Header.mk.injEq, and_true]
    omega
  | china =>
    simp only [reduceCtorEq, reduceIte] at hopc hdpc
    rw [mtp3PutLabel_china, hlow, hhigh]
    simp only [List.cons_append, List.nil_append, decodeHeader_china, hoct, Option.some.injEq,
      Prod.mk.injEq, Header.mk.injEq, and_true]
    omega

/-! ## The parts -/

/-- The decoders of some parameters, with the octets for each. -/
def callsOf (ps : List (Param δ)) : List (δ × List Octet) :=
  ps.filterMap fun p => p.decoder.map fun d => (d, p.data)

theorem callsOf_cons (p : Param δ) (ps : List (Param δ)) :
    callsOf (p :: ps) = (p.decoder.map fun d => (d, p.data)).toList ++ callsOf ps := by
  unfold callsOf
  rw [List.filterMap_cons]
  cases p.decoder <;> rfl

theorem callsOf_append (ps qs : List (Param δ)) :
    callsOf (ps ++ qs) = callsOf ps ++ callsOf qs := List.filterMap_append

/-- A decoder that accepts. -/
theorem callDecoder_accepts {d : Option δ} {p : List Octet} {r : Part δ}
    (h : ∀ d', d = some d' → accepts d' p = true) :
    callDecoder accepts d p (some r) =
      some { r with calls := (d.map fun d => (d, p)).toList ++ r.calls } := by
  cases d with
  | none => rfl
  | some d => simp [callDecoder, h d rfl]

/-- All the decoders of some parameters accept. -/
def Accepted (accepts : δ → List Octet → Bool) (ps : List (Param δ)) : Prop :=
  ∀ call ∈ callsOf ps, accepts call.1 call.2 = true

theorem Accepted.cons {p : Param δ} {ps : List (Param δ)} (h : Accepted accepts (p :: ps)) :
    (∀ d, p.decoder = some d → accepts d p.data = true) ∧ Accepted accepts ps := by
  refine ⟨fun d hd => h (d, p.data) ?_, fun call hcall => h call ?_⟩
  · rw [callsOf_cons, hd]
    exact List.mem_cons_self
  · rw [callsOf_cons]
    exact List.mem_append_right _ hcall

theorem decodeFixed_eq (ps : List (Param δ)) : ∀ i, i ≤ block.length → Accepted accepts ps →
    Stands block i (fixedOctets ps) →
      decodeFixed accepts block i (ps.map fun p => (p.code, p.data.length, p.decoder)) =
        some ⟨callsOf ps, some (i + (fixedOctets ps).length)⟩ := by
  induction ps with
  | nil => exact fun i _ _ _ => rfl
  | cons p ps ih =>
    intro i hi haccepts h
    obtain ⟨hp, hps⟩ := haccepts.cons
    have hcons : fixedOctets (p :: ps) = p.data ++ fixedOctets ps := rfl
    rw [hcons] at h
    have hle := h.left.length_le hi
    rw [List.map_cons, decodeFixed, if_neg (by omega), h.left.take, ih _ hle hps h.right,
      callDecoder_accepts hp, hcons, callsOf_cons, List.length_append, Nat.add_assoc]

theorem decodeVariable_eq (ps : List (Param δ)) : ∀ i gap, Accepted accepts ps →
    (∀ p ∈ ps, p.data.length ≤ 255) → (∀ x ∈ pointers gap ps, x ≤ 255) →
      Stands block i ((pointers gap ps).map UInt8.ofNat) →
        Stands block (i + gap) (varyingOctets ps) →
          decodeVariable accepts block i (ps.map fun p => (p.code, p.decoder)) =
            some ⟨callsOf ps, some (i + ps.length)⟩ := by
  induction ps with
  | nil => exact fun i _ _ _ _ _ _ => rfl
  | cons p ps ih =>
    intro i gap haccepts hshort hpointers htable hbody
    obtain ⟨hp, hps⟩ := haccepts.cons
    obtain ⟨hlen, hlens⟩ := List.forall_mem_cons.1 hshort
    obtain ⟨hgap, hrest⟩ := List.forall_mem_cons.1 hpointers
    have hcons : varyingOctets (p :: ps) =
        UInt8.ofNat p.data.length :: (p.data ++ varyingOctets ps) := rfl
    rw [hcons] at hbody
    rw [pointers, List.map_cons] at htable
    have hptr : (UInt8.ofNat gap).toNat = gap := Nat.mod_eq_of_lt (by omega)
    have hdata : (UInt8.ofNat p.data.length).toNat = p.data.length := Nat.mod_eq_of_lt (by omega)
    have hroom := hbody.lt_length
    rw [List.length_append] at hroom
    have hnext : Stands block (i + 1 + (gap + p.data.length)) (varyingOctets ps) := by
      have hright := hbody.tail.right
      have heq : i + 1 + (gap + p.data.length) = i + gap + 1 + p.data.length := by omega
      rwa [heq]
    simp only [List.map_cons, decodeVariable, htable.head, hptr, hbody.head, hdata]
    rw [if_neg (by omega), hbody.tail.left.take, ih _ _ hps hlens hrest htable.tail hnext,
      callDecoder_accepts hp, callsOf_cons, List.length_cons]
    simp only [Option.some.injEq, Part.mk.injEq, true_and]
    omega

theorem code_ne_zero (c : ParameterCode) : c.code ≠ 0 := by
  cases c <;> decide

theorem decodeOptional_eq {decoders : List (ParameterCode × Option δ)} (ps : List (Param δ)) :
    ∀ i, Accepted accepts ps → (∀ p ∈ ps, p.data.length ≤ 255) →
      (∀ p ∈ ps, ((decoders.find? fun d => d.1.code = p.code.code).bind Prod.snd) = p.decoder) →
        Stands block i (optionalOctets ps ++ [0]) →
          decodeOptional accepts decoders block i =
            some ⟨callsOf ps, some (i + (optionalOctets ps).length)⟩ := by
  induction ps with
  | nil =>
    intro i _ _ _ h
    have hend : block[i]? = some 0 := h.head
    rw [decodeOptional, hend]
    rfl
  | cons p ps ih =>
    intro i haccepts hshort hfind h
    obtain ⟨hp, hps⟩ := haccepts.cons
    obtain ⟨hlen, hlens⟩ := List.forall_mem_cons.1 hshort
    obtain ⟨hf, hfs⟩ := List.forall_mem_cons.1 hfind
    have hcons : optionalOctets (p :: ps) ++ [0] =
        p.code.code :: UInt8.ofNat p.data.length :: (p.data ++ (optionalOctets ps ++ [0])) := by
      unfold optionalOctets
      simp
    have hlength : (optionalOctets (p :: ps)).length =
        2 + p.data.length + (optionalOctets ps).length := by
      unfold optionalOctets
      simp only [List.flatMap_cons, List.length_append, List.length_cons]
      omega
    rw [hcons] at h
    have hdata : (UInt8.ofNat p.data.length).toNat = p.data.length := Nat.mod_eq_of_lt (by omega)
    have hroom := h.tail.lt_length
    rw [List.length_append] at hroom
    rw [decodeOptional, h.head, h.tail.head]
    simp only [hdata, hf]
    rw [if_neg (code_ne_zero _), if_neg (by omega), h.tail.tail.left.take,
      ih _ hps hlens hfs h.tail.tail.right, callDecoder_accepts hp, callsOf_cons, hlength]
    simp only [Option.some.injEq, Part.mk.injEq, true_and]
    omega

/-! ## The whole message -/

/-- The decoders of a message, with what was added for each, in order. -/
def Message.calls (m : Message δ) : List (δ × List Octet) :=
  callsOf (m.fixed ++ m.varying ++ m.optional)

/-- **A signature for the message**: its parameters with their decoders, and
for a type with an optional part maybe more. -/
structure Signature.Matches (sig : Signature δ) (m : Message δ) : Prop where
  fixed : sig.fixed = m.fixed.map fun p => (p.code, p.data.length, p.decoder)
  varying : sig.varying = m.varying.map fun p => (p.code, p.decoder)
  optional : ∀ p ∈ m.optional, (p.code, p.decoder) ∈ sig.optional
  allowed : sig.optional ≠ [] → m.optionalAllowed = true

/-- **`param_decode` on a message**, where the first decoder for a code is
that of the parameter. -/
theorem paramDecode_body {m : Message δ} {sig : Signature δ} (hm : m.Valid)
    (haccepts : ∀ call ∈ m.calls, accepts call.1 call.2 = true)
    (hfixed : sig.fixed = m.fixed.map fun p => (p.code, p.data.length, p.decoder))
    (hvarying : sig.varying = m.varying.map fun p => (p.code, p.decoder))
    (hfind : ∀ p ∈ m.optional,
      (sig.optional.find? fun d => d.1.code = p.code.code).bind Prod.snd = p.decoder)
    (hfew : sig.optional.length ≤ 100) (hallowed : sig.optional ≠ [] → m.optionalAllowed = true) :
    paramDecode accepts m.body sig = some (m.calls, true) := by
  have hcalls : m.calls = callsOf m.fixed ++ callsOf m.varying ++ callsOf m.optional := by
    rw [Message.calls, callsOf_append, callsOf_append]
  have hof : ∀ ps : List (Param δ), (∀ call ∈ callsOf ps, call ∈ m.calls) → Accepted accepts ps :=
    fun ps hps call hcall => haccepts call (hps call hcall)
  have hshort : ∀ ps : List (Param δ), (∀ p ∈ ps, p ∈ m.fixed ++ m.varying ++ m.optional) →
      ∀ p ∈ ps, p.data.length ≤ 255 := fun ps hps p hp => hm.short p (hps p hp)
  -- what stands where
  have hself := Stands.self m.body
  have htable := hself.left.right
  have hrest := hself.right
  have hslots : (fixedOctets m.fixed ++ ((pointers m.slots m.varying).map UInt8.ofNat ++
      m.optionalPointer)).length = (fixedOctets m.fixed).length + m.slots := by
    unfold Message.slots Message.optionalPointer
    simp only [List.length_append, List.length_map, length_pointers]
    split_ifs <;> rfl
  rw [hslots, Nat.zero_add] at hrest
  rw [Nat.zero_add] at htable
  have hone := decodeFixed_eq m.fixed 0 (Nat.zero_le _) (hof _ fun c hc => by simp [hcalls, hc])
    hself.left.left
  have htwo := decodeVariable_eq m.varying (fixedOctets m.fixed).length m.slots
    (hof _ fun c hc => by simp [hcalls, hc]) (hshort _ fun p hp => by simp [hp]) hm.pointer_le
    htable.left hrest.left
  rw [Nat.zero_add] at hone
  unfold paramDecode
  rw [hfixed, hone, hvarying]
  simp only [Option.bind_eq_bind, Option.bind_some, htwo]
  rw [if_neg (by omega)]
  by_cases hnone : sig.optional = []
  · have hempty : callsOf m.optional = [] := by
      refine List.filterMap_eq_nil_iff.2 fun p hp => ?_
      have hp' := hfind p hp
      rw [hnone] at hp'
      rw [← hp']
      rfl
    rw [if_pos hnone, hcalls, hempty, List.append_nil]
  · have hpointer := htable.right
    rw [List.length_map, length_pointers, Message.optionalPointer, if_pos (hallowed hnone)] at hpointer
    rw [if_neg hnone, hpointer.head]
    by_cases hopt : m.started = true
    swap
    · have hempty : m.optional = [] := Classical.not_not.1 fun hne => hopt (hm.started hne)
      simp [hopt, hempty, hcalls, callsOf]
    · have hle := hm.optional_le hopt
      have hpos : 1 ≤ m.slots := by
        unfold Message.slots
        rw [if_pos (hallowed hnone)]
        omega
      have hptr : (UInt8.ofNat (nextPointer m.slots m.varying)).toNat =
          nextPointer m.slots m.varying := Nat.mod_eq_of_lt (by omega)
      have hne : UInt8.ofNat (nextPointer m.slots m.varying) ≠ 0 := by
        intro h
        have hzero := congrArg UInt8.toNat h
        rw [hptr] at hzero
        have : (0 : Octet).toNat = 0 := rfl
        unfold nextPointer at hzero
        omega
      have hpart := hrest.right
      rw [Message.optionalPart, if_pos hopt, length_varyingOctets] at hpart
      have hplace : (fixedOctets m.fixed).length + m.slots +
          (m.varying.length + (fixedOctets m.varying).length) =
            (fixedOctets m.fixed).length + m.varying.length + nextPointer m.slots m.varying := by
        unfold nextPointer
        omega
      rw [hplace] at hpart
      have hthree := decodeOptional_eq m.optional _ (hof _ fun c hc => by simp [hcalls, hc])
        (hshort _ fun p hp => by simp [hp]) hfind hpart
      simp only [hopt, reduceIte]
      rw [if_neg hne, hptr, hthree, hcalls]
      rfl

/-- All codes. -/
def ParameterCode.all : List ParameterCode :=
  [.transmissionMediumRequirement, .calledPartyNumber, .subsequentNumber,
    .natureOfConnectionIndicators, .forwardCallIndicators, .callingPartysCategory,
    .callingPartyNumber, .redirectingNumber, .backwardCallIndicators, .causeIndicators,
    .redirectionInformation, .circuitGroupSupervisionMessageTypeIndicator, .rangeAndStatus,
    .eventInformation, .optionalBackwardCallIndicators, .suspendResumeIndicators,
    .echoControlInformation, .userServiceInformation, .accessTransport]

theorem ParameterCode.mem_all (c : ParameterCode) : c ∈ ParameterCode.all := by
  cases c <;> decide

theorem code_injective {c d : ParameterCode} (h : c.code = d.code) : c = d := by
  revert h
  cases c <;> cases d <;> decide

/-- A code that is there once is found with its decoder. -/
theorem find_decoder {decoders : List (ParameterCode × Option δ)} {c : ParameterCode} {d : Option δ}
    (hnodup : (decoders.map Prod.fst).Nodup) (hmem : (c, d) ∈ decoders) :
    (decoders.find? fun e => e.1.code = c.code).bind Prod.snd = d := by
  induction decoders with
  | nil => exact absurd hmem List.not_mem_nil
  | cons e decoders ih =>
    rw [List.map_cons, List.nodup_cons] at hnodup
    rw [List.find?_cons]
    rcases List.mem_cons.1 hmem with rfl | hmem
    · simp
    · have hne : e.1.code ≠ c.code := by
        intro h
        exact hnodup.1 (code_injective h ▸ List.mem_map_of_mem hmem)
      simp only [hne, decide_false]
      exact ih hnodup.2 hmem

/-- **The round trip.** A message built in a buffer that is large enough gives
back its numbers, and with a signature that has each code once every decoder is
called with what was added for it, in order. -/
theorem message_round_trip {m : Message δ} {sig : Signature δ} (hm : m.Valid)
    (hroom : (m.label ++ m.body).length ≤ buflen) (hsig : sig.Matches m)
    (honce : (sig.optional.map Prod.fst).Nodup)
    (haccepts : ∀ call ∈ m.calls, accepts call.1 call.2 = true) :
    ∃ header rest, decodeHeader m.variant (m.build buflen) = some (header, rest) ∧
      header.opc = m.opc ∧ header.dpc = m.dpc ∧ header.cic = m.cic ∧ header.typ = m.typ ∧
        paramDecode accepts rest sig = some (m.calls, true) := by
  have hsls : m.cic &&& 0x000f < 16 := by
    rw [Nat.and_two_pow_sub_one_eq_mod m.cic 4]
    omega
  have hheader := decodeHeader_label m.variant m.typ m.body hm.opc_lt hm.dpc_lt hm.cic_lt hsls
  have hfew : sig.optional.length ≤ 100 := by
    have hle := (honce.subperm fun c _ => c.mem_all).length_le
    have hall : ParameterCode.all.length = 19 := rfl
    rw [List.length_map] at hle
    omega
  rw [build_eq m hm hroom]
  exact ⟨_, _, hheader, rfl, rfl, rfl, rfl, paramDecode_body hm haccepts hsig.fixed hsig.varying
    (fun p hp => find_decoder honce (hsig.optional p hp)) hfew hsig.allowed⟩

/-- A message with a parameter of each kind. -/
def sampleMessage : Message ℕ where
  variant := .itu
  opc := 1
  dpc := 2
  cic := 3
  typ := 0x01
  fixed := [⟨.natureOfConnectionIndicators, [0], some 1⟩]
  varying := [⟨.calledPartyNumber, [0x83, 0x10, 0x05], some 2⟩]
  optionalAllowed := true
  started := true
  optional := [⟨.callingPartyNumber, [0x83, 0x13, 0x07], some 3⟩]

def sampleSignature : Signature ℕ where
  fixed := [(.natureOfConnectionIndicators, 1, some 1)]
  varying := [(.calledPartyNumber, some 2)]
  optional := [(.callingPartyNumber, some 3)]

theorem sampleMessage_valid : sampleMessage.Valid :=
  ⟨by decide, by decide, by decide, by decide, by decide, by decide, by decide, by decide⟩

theorem message_round_trip_sample :
    ∃ header rest, decodeHeader .itu (sampleMessage.build 272) = some (header, rest) ∧
      header.opc = 1 ∧ header.dpc = 2 ∧ header.cic = 3 ∧ header.typ = 0x01 ∧
        paramDecode (fun _ _ => true) rest sampleSignature =
          some ([(1, [0]), (2, [0x83, 0x10, 0x05]), (3, [0x83, 0x13, 0x07])], true) :=
  message_round_trip sampleMessage_valid (by decide) ⟨rfl, rfl, by decide, fun _ => rfl⟩ (by decide)
    fun _ _ => rfl

/-- Two parameters with one code, the second for the decoder `d`. -/
def twinMessage (d : ℕ) : Message ℕ where
  variant := .itu
  opc := 1
  dpc := 2
  cic := 3
  typ := 0x01
  fixed := []
  varying := []
  optionalAllowed := true
  started := true
  optional := [⟨.callingPartyNumber, [5], some 1⟩, ⟨.callingPartyNumber, [6], some d⟩]

theorem twinMessage_valid : (twinMessage 1).Valid ∧ (twinMessage 2).Valid :=
  ⟨⟨by decide, by decide, by decide, by decide, by decide, by decide, by decide, by decide⟩,
    ⟨by decide, by decide, by decide, by decide, by decide, by decide, by decide, by decide⟩⟩

theorem not_message_round_trip : ¬ ∀ (m : Message ℕ) (sig : Signature ℕ)
    (accepts : ℕ → List Octet → Bool) (buflen : ℕ), m.Valid →
      (m.label ++ m.body).length ≤ buflen → sig.Matches m →
        (∀ call ∈ m.calls, accepts call.1 call.2 = true) →
          ∃ header rest, decodeHeader m.variant (m.build buflen) = some (header, rest) ∧
            header.opc = m.opc ∧ header.dpc = m.dpc ∧ header.cic = m.cic ∧ header.typ = m.typ ∧
              paramDecode accepts rest sig = some (m.calls, true) := by
  intro hall
  let sig : Signature ℕ := ⟨[], [], [(.callingPartyNumber, some 1), (.callingPartyNumber, some 2)]⟩
  obtain ⟨header, rest, hheader, -, -, -, -, hdecode⟩ := hall (twinMessage 2) sig (fun _ _ => true)
    272 twinMessage_valid.2 (by decide) ⟨rfl, rfl, by decide, fun _ => rfl⟩ fun _ _ => rfl
  -- the same octets, both for the first decoder
  have hfirst := @paramDecode_body ℕ (fun _ _ => true) (twinMessage 1) sig twinMessage_valid.1
    (fun _ _ => rfl) rfl rfl (by decide) (by decide) fun _ => rfl
  have hbuilt : decodeHeader .itu ((twinMessage 2).build 272) =
      some (⟨2, 1, 3, 3, 0x01⟩, (twinMessage 1).body) := by decide
  have hsame := hheader.symm.trans hbuilt
  obtain ⟨-, rfl⟩ := Prod.mk.inj (Option.some.inj hsame)
  exact absurd (hdecode.symm.trans hfirst) (by decide)

end Isup

end Trismedia
