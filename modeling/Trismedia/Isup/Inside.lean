import Trismedia.Isup.Union
/-!
# What a message decoded reads and writes

Every decoder reads its own octets and writes to the field it is given. The
message is read behind its end where the pointer to the parameter of variable
length leads out of it, and a parameter is written to another field than its
own where a `con` has optional backward call indicators.
-/


namespace Trismedia

namespace Isup

namespace Union

open Mtp2 Memory

variable {data i : ℕ} {p buf params : List Octet} {f : Block} {d : Decoder} {e : Entry}
variable {variant : Ss7Variant} {typ : MsgType} {ok : Bool} {ws : List Write}

/-! ## Options in order -/

section MapM

variable {α β : Type*} {g : α → Option β} {l : List α} {bs : List β}

theorem mapM_isSome (h : ∀ a ∈ l, (g a).isSome) :
    ∃ bs, l.mapM g = some bs ∧ bs.length = l.length := by
  induction l with
  | nil => exact ⟨[], rfl, rfl⟩
  | cons a l ih =>
    obtain ⟨ha, hl⟩ := List.forall_mem_cons.1 h
    obtain ⟨b, hb⟩ := Option.isSome_iff_exists.1 ha
    obtain ⟨bs, hbs, hlen⟩ := ih hl
    refine ⟨b :: bs, ?_, congrArg Nat.succ hlen⟩
    rw [List.mapM_cons, hb, hbs]
    rfl

/-- What is there has come from one of the list. -/
theorem exists_of_mem_mapM {b : β} (h : l.mapM g = some bs) (hb : b ∈ bs) :
    ∃ a ∈ l, g a = some b := by
  induction l generalizing bs with
  | nil =>
    obtain rfl : [] = bs := Option.some.inj h
    exact absurd hb List.not_mem_nil
  | cons a l ih =>
    rw [List.mapM_cons] at h
    obtain ⟨b', hb', h⟩ := Option.bind_eq_some_iff.1 h
    obtain ⟨rest, hrest, h⟩ := Option.bind_eq_some_iff.1 h
    obtain rfl : b' :: rest = bs := Option.some.inj h
    rcases List.mem_cons.1 hb with rfl | hmem
    · exact ⟨a, List.mem_cons_self, hb'⟩
    · obtain ⟨c, hc, hcb⟩ := ih hrest hmem
      exact ⟨c, List.mem_cons_of_mem _ hc, hcb⟩

/-- And all of the list has come to something. -/
theorem mem_of_mapM {a : α} (h : l.mapM g = some bs) (ha : a ∈ l) : ∃ b ∈ bs, g a = some b := by
  induction l generalizing bs with
  | nil => exact absurd ha List.not_mem_nil
  | cons c l ih =>
    rw [List.mapM_cons] at h
    obtain ⟨b, hb, h⟩ := Option.bind_eq_some_iff.1 h
    obtain ⟨rest, hrest, h⟩ := Option.bind_eq_some_iff.1 h
    obtain rfl : b :: rest = bs := Option.some.inj h
    rcases List.mem_cons.1 ha with rfl | hmem
    · exact ⟨b, List.mem_cons_self, hb⟩
    · obtain ⟨b', hb', hab⟩ := ih hrest hmem
      exact ⟨b', List.mem_cons_of_mem _ hb', hab⟩

end MapM

/-! ## The decoders -/

/-- **The decoding stays inside**: nothing is read but the octets, and nothing
written but in the block. -/
def Inside (r : Decoding) (f : Block) : Prop :=
  ∃ ok ws, r = some (ok, ws) ∧ ∀ w ∈ ws, w.block.Within f

theorem inside_short (f : Block) : Inside shortParameter f :=
  ⟨false, [], rfl, fun _ h => absurd h List.not_mem_nil⟩

theorem putInt_within {a v : ℕ} (h : f.base ≤ a ∧ a + 4 ≤ f.base + f.size) :
    (putInt a v).block.Within f := h

theorem getElem?_of_lt {k : ℕ} (h : k < p.length) : ∃ o, p[k]? = some o :=
  ⟨p[k], List.getElem?_eq_getElem h⟩

theorem inside_decodeInt (value : ℕ → ℕ) {least place : ℕ} (h : place < least) :
    Inside (decodeInt least place value data p) ⟨data, 4⟩ := by
  unfold decodeInt
  by_cases hshort : p.length < least
  · rw [if_pos hshort]
    exact inside_short _
  · obtain ⟨o, ho⟩ := @getElem?_of_lt p place (by omega)
    rw [if_neg hshort, ho]
    exact ⟨_, _, rfl, List.forall_mem_singleton.2 (putInt_within ⟨le_rfl, le_rfl⟩)⟩

theorem inside_decodeBackwardsInd : Inside (decodeBackwardsInd data p) ⟨data, 8⟩ := by
  unfold decodeBackwardsInd
  by_cases hshort : p.length < 2
  · rw [if_pos hshort]
    exact inside_short _
  · obtain ⟨o, ho⟩ := @getElem?_of_lt p 0 (by omega)
    rw [if_neg hshort, ho]
    refine ⟨_, _, rfl, List.forall_mem_cons.2 ⟨putInt_within ?_, List.forall_mem_singleton.2
      (putInt_within ?_)⟩⟩ <;> dsimp only <;> omega

theorem inside_decodeRangeAndStatus :
    Inside (decodeRangeAndStatus data p) ⟨data, sizeofRangeAndStatus⟩ := by
  have hrange : ∀ v, (putInt data v).block.Within ⟨data, sizeofRangeAndStatus⟩ := by
    intro v
    refine putInt_within ?_
    dsimp only [sizeofRangeAndStatus]
    omega
  unfold decodeRangeAndStatus
  by_cases hshort : p.length < 1
  · rw [if_pos hshort]
    exact inside_short _
  obtain ⟨o, ho⟩ := @getElem?_of_lt p 0 (by omega)
  have hlt := o.toNat_lt
  rw [if_neg hshort, ho, Option.bind_some]
  dsimp only
  by_cases hzero : o.toNat = 0
  · rw [if_pos hzero]
    exact ⟨_, _, rfl, List.forall_mem_singleton.2 (hrange _)⟩
  rw [if_neg hzero]
  by_cases hstatus : p.length < 1 + (o.toNat + 1 + 7) / 8
  · rw [if_pos hstatus]
    exact ⟨_, _, rfl, List.forall_mem_singleton.2 (hrange _)⟩
  rw [if_neg hstatus]
  -- the octets that are copied are there, 32 of them at most
  obtain ⟨status, hcopy, hlen⟩ := @mapM_isSome _ _ (fun k => p[1 + k]?)
    (List.range ((o.toNat + 1 + 7) / 8)) (by
      intro k hk
      have hk' := List.mem_range.1 hk
      rw [List.getElem?_eq_getElem (by omega), Option.isSome_some])
  rw [List.length_range] at hlen
  rw [hcopy]
  refine ⟨_, _, rfl, List.forall_mem_cons.2 ⟨hrange _, List.forall_mem_singleton.2 ⟨?_, ?_⟩⟩⟩
  · show data ≤ data + 4
    omega
  · show data + 4 + status.length ≤ data + 36
    omega

theorem inside_decodeCgsmti : Inside (decodeCgsmti data p) ⟨data, 4⟩ := by
  unfold decodeCgsmti
  by_cases hshort : p.length < 1
  · rw [if_pos hshort]
    exact inside_short _
  obtain ⟨o, ho⟩ := @getElem?_of_lt p 0 (by omega)
  rw [if_neg hshort, ho, Option.map_some]
  dsimp only
  by_cases hknown : o.toNat &&& 0x3 ≠ 0 ∧ o.toNat &&& 0x3 ≠ 1
  · rw [if_pos hknown]
    exact inside_short _
  · rw [if_neg hknown]
    exact ⟨_, _, rfl, List.forall_mem_singleton.2 (putInt_within ⟨le_rfl, le_rfl⟩)⟩

theorem inside_decodeNociContcheck :
    Inside (decodeNociContcheck data p) ⟨data + iamContcheck.base, 8⟩ := by
  unfold decodeNociContcheck
  by_cases hshort : p.length < 1
  · rw [if_pos hshort]
    exact inside_short _
  obtain ⟨o, ho⟩ := @getElem?_of_lt p 0 (by omega)
  rw [if_neg hshort, ho]
  refine ⟨_, _, rfl, List.forall_mem_cons.2 ⟨putInt_within ?_, List.forall_mem_singleton.2
    (putInt_within ?_)⟩⟩ <;> dsimp only [iamContcheck, iamEchocontrol] <;> omega

theorem inside_decodeTransmissionMedium :
    Inside (decodeTransmissionMedium data p) ⟨data + iamTransMedium.base, 1⟩ := by
  unfold decodeTransmissionMedium
  by_cases hshort : p.length < 1
  · rw [if_pos hshort]
    exact inside_short _
  obtain ⟨o, ho⟩ := @getElem?_of_lt p 0 (by omega)
  rw [if_neg hshort, ho]
  exact ⟨_, _, rfl, List.forall_mem_singleton.2 (Block.Within.refl _)⟩

theorem inside_decodeRedirInf : Inside (decodeRedirInf data p) ⟨data, 8⟩ := by
  have hboth : ∀ v v', ∀ w ∈ [putInt data v, putInt (data + 4) v'], w.block.Within ⟨data, 8⟩ := by
    intro v v'
    refine List.forall_mem_cons.2 ⟨putInt_within ?_, List.forall_mem_singleton.2
      (putInt_within ?_)⟩ <;> dsimp only <;> omega
  unfold decodeRedirInf
  by_cases hshort : p.length < 1
  · rw [if_pos hshort]
    exact inside_short _
  rw [if_neg hshort]
  by_cases htwo : p.length ≥ 2
  · obtain ⟨o, ho⟩ := @getElem?_of_lt p 1 (by omega)
    rw [if_pos htwo, ho]
    exact ⟨_, _, rfl, hboth _ _⟩
  · rw [if_neg htwo]
    exact ⟨_, _, rfl, hboth _ _⟩

/-! ## The numbers -/

/-- **What the decoders of numbers write** has the property: any of the three
`int`, zeros to all of `num`, and a character there or the terminator. -/
structure NumWrites (data : ℕ) (Q : Write → Prop) : Prop where
  present : ∀ v, Q (putInt data v)
  restricted : ∀ v, Q (putInt (data + 4) v)
  complete : ∀ v, Q (putInt (data + 8) v)
  cleared : Q ⟨data + 12, List.replicate (phonenumMax + 1) 0⟩
  digit : ∀ i c, i < 20 → Q (putNum data i c)
  terminator : ∀ i, i ≤ 20 → Q (putNum data i 0)

section Numbers

variable {Q : Write → Prop}

/-- **The loop**: it has the octets it counts, and there is room for the
digits and the terminator. -/
theorem NumWrites.putDigitsFrom (h : NumWrites data Q) : ∀ left i j : ℕ,
    left ≤ 2 * (p.length - j) → i + left ≤ 20 →
      ∃ ws, putDigitsFrom data p left i j = some ws ∧ ∀ w ∈ ws, Q w := by
  intro left
  induction left using Nat.twoStepInduction with
  | zero =>
    intro i j _ hroom
    exact ⟨_, rfl, List.forall_mem_singleton.2 (h.terminator i (by omega))⟩
  | one =>
    intro i j hread hroom
    obtain ⟨o, ho⟩ := @getElem?_of_lt p j (by omega)
    have hi : ∀ c, Q (putNum data i c) := fun c => h.digit i c (by omega)
    rw [Union.putDigitsFrom, ho, Option.map_some]
    dsimp only
    by_cases hdig : o.toNat &&& 0x0f = 0xf
    · rw [if_pos hdig]
      exact ⟨_, rfl, List.forall_mem_cons.2 ⟨h.complete 1, List.forall_mem_singleton.2 (hi _)⟩⟩
    · rw [if_neg hdig]
      exact ⟨_, rfl, List.forall_mem_cons.2
        ⟨hi _, List.forall_mem_singleton.2 (h.terminator _ (by omega))⟩⟩
  | more left ih _ =>
    intro i j hread hroom
    obtain ⟨o, ho⟩ := @getElem?_of_lt p j (by omega)
    have hi : ∀ c, Q (putNum data i c) := fun c => h.digit i c (by omega)
    have hnext : ∀ c, Q (putNum data (i + 1) c) := fun c => h.digit (i + 1) c (by omega)
    rw [Union.putDigitsFrom, ho, Option.bind_some]
    dsimp only
    by_cases hdig : o.toNat &&& 0x0f = 0xf
    · rw [if_pos hdig]
      exact ⟨_, rfl, List.forall_mem_cons.2 ⟨h.complete 1, List.forall_mem_singleton.2 (hi _)⟩⟩
    rw [if_neg hdig]
    by_cases hhigh : (o.toNat >>> 4) &&& 0xf = 0xf
    · rw [if_pos hhigh]
      exact ⟨_, rfl, List.forall_mem_cons.2 ⟨hi _, List.forall_mem_cons.2
        ⟨h.complete 1, List.forall_mem_singleton.2 (hnext _)⟩⟩⟩
    · obtain ⟨ws, hws, hrest⟩ := ih (i + 2) (j + 1) (by omega) (by omega)
      rw [if_neg hhigh, hws]
      exact ⟨_, rfl, List.forall_mem_cons.2 ⟨hi _, List.forall_mem_cons.2 ⟨hnext _, hrest⟩⟩⟩

theorem NumWrites.decodeSni (h : NumWrites data Q) :
    ∃ ok ws, decodeSni data p = some (ok, ws) ∧ ∀ w ∈ ws, Q w := by
  unfold Union.decodeSni
  by_cases hshort : p.length < 2
  · rw [if_pos hshort]
    exact ⟨false, [], rfl, fun _ hw => absurd hw List.not_mem_nil⟩
  obtain ⟨o, ho⟩ := @getElem?_of_lt p 0 (by omega)
  rw [if_neg hshort, ho, Option.bind_some]
  dsimp only
  generalize hodd : (if o.toNat &&& 0x80 ≠ 0 then 1 else 0) = odd
  obtain ⟨ws, hws, hin⟩ := @NumWrites.putDigitsFrom data p Q h
    (min ((p.length - 1) * 2 - odd) phonenumMax) 0 1 (by omega) (by rw [phonenumMax]; omega)
  rw [hws]
  exact ⟨_, _, rfl, hin⟩

/-- What `decode_isup_phonenum` begins with. -/
theorem NumWrites.presentationOf (h : NumWrites data Q) (withPresentationRestrict : Bool)
    (hlen : 2 ≤ p.length) :
    ∃ ws, presentationOf withPresentationRestrict data p = some ws ∧ ∀ w ∈ ws, Q w := by
  have hall : ∀ a b c, ∀ w ∈ putPresentation data a b c, Q w := fun a b c =>
    List.forall_mem_cons.2 ⟨h.present a, List.forall_mem_cons.2
      ⟨h.restricted b, List.forall_mem_singleton.2 (h.complete c)⟩⟩
  unfold Union.presentationOf
  by_cases hwith : withPresentationRestrict = true
  · obtain ⟨o, ho⟩ := @getElem?_of_lt p 1 (by omega)
    rw [if_pos hwith, ho, Option.map_some]
    dsimp only
    refine ⟨_, rfl, ?_⟩
    split_ifs
    · exact hall 1 1 0
    · exact hall 0 0 1
    · exact hall 1 0 0
  · rw [if_neg hwith]
    exact ⟨_, rfl, hall 1 0 0⟩

theorem NumWrites.decodePhonenum (h : NumWrites data Q) (withPresentationRestrict : Bool) :
    ∃ ok ws, decodePhonenum withPresentationRestrict data p = some (ok, ws) ∧ ∀ w ∈ ws, Q w := by
  unfold Union.decodePhonenum
  by_cases hshort : p.length < 2
  · rw [if_pos hshort]
    exact ⟨false, [], rfl, fun _ hw => absurd hw List.not_mem_nil⟩
  obtain ⟨presented, hpresented, hin⟩ := @NumWrites.presentationOf data p Q h
    withPresentationRestrict (by omega)
  rw [if_neg hshort, hpresented, Option.bind_some]
  have hbegun : ∀ w ∈ presented ++ [⟨data + 12, List.replicate (phonenumMax + 1) 0⟩], Q w :=
    List.forall_mem_append.2 ⟨hin, List.forall_mem_singleton.2 h.cleared⟩
  by_cases htwo : p.length = 2
  · rw [if_pos htwo]
    exact ⟨_, _, rfl, hbegun⟩
  obtain ⟨o, ho⟩ := @getElem?_of_lt p 0 (by omega)
  rw [if_neg htwo, ho, Option.bind_some]
  dsimp only
  generalize hodd : (if o.toNat &&& 0x80 ≠ 0 then 1 else 0) = odd
  by_cases hnational : o.toNat &&& 0x7f = 0x70 ∨ o.toNat &&& 0x7f = 0x03 ∨ o.toNat &&& 0x7f = 0x01
  · obtain ⟨ws, hws, hdigits⟩ := @NumWrites.putDigitsFrom data p Q h
      (min ((p.length - 2) * 2 - odd) phonenumMax) 0 2 (by omega) (by rw [phonenumMax]; omega)
    rw [if_pos hnational, hws]
    exact ⟨_, _, rfl, List.forall_mem_append.2 ⟨hbegun, hdigits⟩⟩
  rw [if_neg hnational]
  by_cases hint : o.toNat &&& 0x7f = 0x02 ∨ o.toNat &&& 0x7f = 0x04
  · obtain ⟨ws, hws, hdigits⟩ := @NumWrites.putDigitsFrom data p Q h
      (min ((p.length - 2) * 2 - odd + 2) phonenumMax - 2) 2 2 (by omega)
      (by rw [phonenumMax]; omega)
    rw [if_pos hint, hws]
    exact ⟨_, _, rfl, List.forall_mem_append.2 ⟨hbegun, List.forall_mem_cons.2
      ⟨h.digit 0 _ (by omega), List.forall_mem_cons.2 ⟨h.digit 1 _ (by omega), hdigits⟩⟩⟩⟩
  · rw [if_neg hint]
    exact ⟨_, _, rfl, hbegun⟩

end Numbers

/-- All of it is in the field of the number. -/
theorem numWrites_within (data : ℕ) :
    NumWrites data fun w => w.block.Within ⟨data, sizeofPhonenum⟩ := by
  have hint : ∀ k v, k ≤ 32 → (putInt (data + k) v).block.Within ⟨data, sizeofPhonenum⟩ := by
    intro k v hk
    refine putInt_within ?_
    dsimp only [sizeofPhonenum]
    omega
  have hnum : ∀ i c, i ≤ 20 → (putNum data i c).block.Within ⟨data, sizeofPhonenum⟩ := by
    intro i c hi
    refine ⟨?_, ?_⟩
    · show data ≤ data + 12 + i
      omega
    · show data + 12 + i + 1 ≤ data + 36
      omega
  refine ⟨fun v => hint 0 v (by omega), fun v => hint 4 v (by omega), fun v => hint 8 v (by omega),
    ⟨?_, ?_⟩, fun i c hi => hnum i c (by omega), fun i hi => hnum i 0 hi⟩
  · show data ≤ data + 12
    omega
  · show data + 12 + (List.replicate (phonenumMax + 1) (0 : Octet)).length ≤ data + 36
    rw [List.length_replicate, phonenumMax]
    omega

theorem inside_decodeSni : Inside (decodeSni data p) ⟨data, sizeofPhonenum⟩ :=
  (numWrites_within data).decodeSni

theorem inside_decodePhonenum (withPresentationRestrict : Bool) :
    Inside (decodePhonenum withPresentationRestrict data p) ⟨data, sizeofPhonenum⟩ :=
  (numWrites_within data).decodePhonenum withPresentationRestrict

/-! ## The fields -/

/-- What a decoder writes to, relative to its data. -/
def Decoder.span : Decoder → Block
  | nociContcheck => ⟨iamContcheck.base, 8⟩
  | transmissionMedium => iamTransMedium
  | dni => ⟨0, sizeofPhonenum⟩
  | sni => ⟨0, sizeofPhonenum⟩
  | aniRni => ⟨0, sizeofPhonenum⟩
  | redirInf => ⟨0, 8⟩
  | backwardsInd => ⟨0, 8⟩
  | optionalBackwardCallIndicators => ⟨0, 4⟩
  | relCause => ⟨0, 4⟩
  | suspendResume => ⟨0, 4⟩
  | rangeNoStatus => ⟨0, 4⟩
  | rangeAndStatus => ⟨0, sizeofRangeAndStatus⟩
  | cgsmti => ⟨0, 4⟩
  | eventInfo => ⟨0, 4⟩

/-- **Every decoder stays inside.** -/
theorem Decoder.inside (d : Decoder) (data : ℕ) (p : List Octet) :
    Inside (d.run data p) ⟨data + d.span.base, d.span.size⟩ := by
  cases d with
  | nociContcheck => exact inside_decodeNociContcheck
  | transmissionMedium => exact inside_decodeTransmissionMedium
  | dni => exact inside_decodePhonenum false
  | sni => exact inside_decodeSni
  | aniRni => exact inside_decodePhonenum true
  | redirInf => exact inside_decodeRedirInf
  | backwardsInd => exact inside_decodeBackwardsInd
  | optionalBackwardCallIndicators => exact inside_decodeInt (· &&& 0xf) Nat.one_pos
  | relCause => exact inside_decodeInt (· &&& 0x7f) Nat.one_lt_two
  | suspendResume => exact inside_decodeInt id Nat.one_pos
  | rangeNoStatus => exact inside_decodeInt id Nat.one_pos
  | rangeAndStatus => exact inside_decodeRangeAndStatus
  | cgsmti => exact inside_decodeCgsmti
  | eventInfo => exact inside_decodeInt (· &&& 0x7f) Nat.one_pos

end Union

end Isup

end Trismedia
