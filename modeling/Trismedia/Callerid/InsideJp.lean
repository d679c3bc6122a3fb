import Trismedia.Callerid.Inside
/-!
# Caller ID in Japan — what is read and written

The elements of a message of `callerid_feed_jp`: an octet of a message is below
128, and the NUL behind the message ends what is copied, so that nothing behind
`rawdata` is read. What is copied is not cut to the size of `number`.
-/


namespace Trismedia

namespace Callerid

namespace Inside

open CString

variable {cid cid' : State} {o : BitVec 8} {x : ℕ}

/-- **A message** with its NUL. -/
structure Message (cid : State) : Prop where
  pos : cid.pos ≤ 129
  octets : ∀ i < cid.pos, (cid.rawdata i).toNat < 128
  nul : cid.rawdata cid.pos = 0

/-- The length of an element is not negative, and 0 at the end. -/
theorem Message.length_lt (h : Message cid) (hx : x ≤ cid.pos) : (cid.rawdata x).toNat < 128 := by
  rcases Nat.lt_or_eq_of_le hx with hlt | rfl
  · exact h.octets x hlt
  · rw [h.nul]
    decide

/-- **A number is copied where it is not too long.** -/
theorem Message.copyString_iff (h : Message cid) (hx : x < cid.pos) (htag : cid.rawdata x = 0x02) :
    (cid.copyString (x + 2 : ℕ) ((cid.rawdata (x + 1)).toNat + 1)).isSome = true ↔
      ¬ TooLong cid.rawdata x := by
  have hpos := h.pos
  have hread : x + 2 + ((cid.rawdata (x + 1)).toNat + 1) < 256 ∨
      ∃ z, x + 2 ≤ z ∧ z < 256 ∧ cid.rawdata z = 0 := by
    rcases Nat.lt_or_ge (x + 1) cid.pos with hlt | hge
    · exact Or.inr ⟨cid.pos, hlt, by omega, h.nul⟩
    · have hlast : x + 1 = cid.pos := by omega
      rw [hlast, h.nul]
      exact Or.inl (show x + 2 + 1 < 256 by omega)
  obtain ⟨s, hs, hlen, hall, hend⟩ := cid.copyLoop_spec _ _ hread
  rw [State.copyString_isSome_iff hs hlen (Nat.succ_pos _)]
  unfold TooLong textSize
  rw [and_iff_right htag, not_and]
  constructor
  · rintro hfits hlong hchars
    rcases hfits with hfits | hfits
    · omega
    · exact hchars s.length hfits (hend (by omega))
  · intro hshort
    by_contra hno
    rw [not_or] at hno
    exact hshort (by omega) fun i hi => hall i (by omega)

/-- **An element**, with its tag at `x`. -/
theorem elementJp_spec (h : Message cid) (hx : x < cid.pos) :
    (¬ TooLong cid.rawdata x → ∃ cid' : State, elementJp cid (cid.rawdata x) (x + 1) =
        some (cid', ((nextJp cid.rawdata x : ℕ) : ℤ)) ∧ cid'.rawdata = cid.rawdata ∧
          cid'.pos = cid.pos ∧ cid'.sawflag = cid.sawflag) ∧
    (TooLong cid.rawdata x → elementJp cid (cid.rawdata x) (x + 1) = none) := by
  have hpos := h.pos
  have hread : cid.raw ((x : ℤ) + 1) = some (cid.rawdata (x + 1)) :=
    cid.raw_of_lt (show x + 1 < 256 by omega)
  have hlen := toInt_of_lt (h.length_lt (show x + 1 ≤ cid.pos by omega))
  unfold elementJp nextJp
  by_cases hnumber : cid.rawdata x = 0x02
  · have hsize : (((cid.rawdata (x + 1)).toInt + 1) % 2 ^ 64).toNat =
        (cid.rawdata (x + 1)).toNat + 1 := by
      have hlt := (cid.rawdata (x + 1)).isLt
      rw [hlen]
      omega
    rw [if_pos hnumber, if_pos (Or.inl hnumber), hread, Option.bind_some, hsize, hlen]
    have hiff := h.copyString_iff hx hnumber
    constructor
    · intro hshort
      obtain ⟨s, hs⟩ := Option.isSome_iff_exists.1 (hiff.2 hshort)
      refine ⟨_, Option.map_eq_some_iff.2 ⟨s, hs, Prod.ext rfl ?_⟩, rfl, rfl, rfl⟩
      show (x : ℤ) + 1 + 1 + _ = _
      omega
    · intro hlong
      rw [Option.map_eq_none_iff]
      by_contra hsome
      exact hiff.1 (Option.isSome_iff_ne_none.2 hsome) hlong
  · have hshort : ¬ TooLong cid.rawdata x := fun hlong => hnumber hlong.1
    refine ⟨fun _ => ?_, fun hlong => absurd hlong hshort⟩
    rw [if_neg hnumber]
    by_cases hinfo : cid.rawdata x = 0x21 ∨ cid.rawdata x = 0x22
    · have hno : ¬ (cid.rawdata x = 0x02 ∨ cid.rawdata x = 0x09) := by
        rintro (heq | heq)
        · exact hnumber heq
        · rw [heq] at hinfo
          exact absurd hinfo (by decide)
      have hone : cid.raw ((x : ℤ) + 1 + 1) = some (cid.rawdata (x + 2)) :=
        cid.raw_of_lt (show x + 2 < 256 by omega)
      have htwo : cid.raw ((x : ℤ) + 1 + 3) = some (cid.rawdata (x + 4)) :=
        cid.raw_of_lt (show x + 4 < 256 by omega)
      rw [if_pos hinfo, if_neg hno, if_pos hinfo, hone, Option.bind_some, htwo, Option.map_some]
      exact ⟨cid, congrArg some (Prod.ext rfl (show (x : ℤ) + 1 + 4 = _ by omega)), rfl, rfl, rfl⟩
    rw [if_neg hinfo]
    by_cases hreason : cid.rawdata x = 0x04
    · have hno : ¬ (cid.rawdata x = 0x02 ∨ cid.rawdata x = 0x09) := by
        rw [hreason]
        decide
      have hone : cid.raw ((x : ℤ) + 1 + 1) = some (cid.rawdata (x + 2)) :=
        cid.raw_of_lt (show x + 2 < 256 by omega)
      rw [if_pos hreason, if_neg hno, if_neg hinfo, if_pos hreason, hone, Option.map_some]
      refine ⟨_, congrArg some (Prod.ext rfl (show (x : ℤ) + 1 + 2 = _ by omega)), ?_⟩
      by_cases hc : cid.rawdata (x + 2) ∈ reasons
      · rw [if_pos hc]
        exact ⟨rfl, rfl, rfl⟩
      · rw [if_neg hc]
        exact ⟨rfl, rfl, rfl⟩
    rw [if_neg hreason]
    by_cases hdialed : cid.rawdata x = 0x09
    · rw [if_pos hdialed, if_pos (Or.inr hdialed), hread, Option.map_some, hlen]
      refine ⟨cid, congrArg some (Prod.ext rfl ?_), rfl, rfl, rfl⟩
      show (x : ℤ) + 1 + 1 + _ = _
      omega
    · rw [if_neg hdialed, if_neg (not_or.2 ⟨hnumber, hdialed⟩), if_neg hinfo, if_neg hreason]
      exact ⟨cid, rfl, rfl, rfl, rfl⟩


/-- **The elements of a message.** -/
theorem elementsJp_spec : ∀ (n fuel : ℕ) (cid : State) (x : ℕ), Message cid →
    cid.pos ≤ x + n → n < fuel →
      ((∀ y ∈ offsetsJp cid.rawdata cid.pos n x, ¬ TooLong cid.rawdata y) →
        ∃ cid', elementsJp fuel cid x = some cid' ∧ Message cid' ∧
          cid'.sawflag = cid.sawflag) ∧
      (¬ (∀ y ∈ offsetsJp cid.rawdata cid.pos n x, ¬ TooLong cid.rawdata y) →
        elementsJp fuel cid x = none) := by
  intro n
  induction n with
  | zero =>
    intro fuel cid x h hx hfuel
    obtain ⟨fuel, rfl⟩ : ∃ m, fuel = m + 1 := ⟨fuel - 1, by omega⟩
    have hle : ¬ (x : ℤ) < cid.pos := by omega
    rw [elementsJp, if_neg hle]
    exact ⟨fun _ => ⟨cid, rfl, h, rfl⟩, fun h => absurd (fun y hy => absurd hy List.not_mem_nil) h⟩
  | succ n ih =>
    intro fuel cid x h hx hfuel
    obtain ⟨fuel, rfl⟩ : ∃ m, fuel = m + 1 := ⟨fuel - 1, by omega⟩
    have hpos := h.pos
    rw [elementsJp, offsetsJp]
    by_cases hlt : x < cid.pos
    · have hlt' : (x : ℤ) < cid.pos := by omega
      have hnext : x < nextJp cid.rawdata x := by
        unfold nextJp
        split_ifs <;> omega
      obtain ⟨hsome, hnone⟩ := elementJp_spec h hlt
      rw [if_pos hlt', if_pos hlt, cid.raw_of_lt (by omega), Option.bind_some,
        List.forall_mem_cons]
      by_cases hlong : TooLong cid.rawdata x
      · rw [hnone hlong, Option.bind_none]
        exact ⟨fun h => absurd hlong h.1, fun _ => rfl⟩
      · obtain ⟨cid', hcid', hraw, hpos', hsaw⟩ := hsome hlong
        have hmessage : Message cid' :=
          ⟨by rw [hpos']; exact hpos, by rw [hpos', hraw]; exact h.octets,
            by rw [hpos', hraw]; exact h.nul⟩
        obtain ⟨hall, hnot⟩ := ih fuel cid' (nextJp cid.rawdata x) hmessage (by omega) (by omega)
        rw [hraw, hpos', hsaw] at hall
        rw [hraw, hpos'] at hnot
        rw [hcid', Option.bind_some]
        exact ⟨fun h => hall h.2, fun h => hnot fun hy => h ⟨hlong, hy⟩⟩
    · have hle : ¬ (x : ℤ) < cid.pos := by omega
      rw [if_neg hle, if_neg hlt]
      exact ⟨fun _ => ⟨cid, rfl, h, rfl⟩, fun h => absurd (fun y hy => absurd hy List.not_mem_nil) h⟩

/-- What holds of a state while octets are fed. -/
structure BoundedJp (cid : State) : Prop where
  number : cid.sawflag = 7 → cid.pos = 1 ∧ (cid.rawdata 0).toNat < 128
  retrieving : cid.sawflag = 8 → 0 ≤ cid.len ∧ cid.pos ≤ 128 ∧ cid.pos + cid.len ≤ 129 ∧
    ∀ i < cid.pos, (cid.rawdata i).toNat < 128
  message : 9 ≤ cid.sawflag → Message cid

/-- Nothing is asked of a state in front of the number. -/
theorem BoundedJp.of_lt (h : cid.sawflag < 7) : BoundedJp cid :=
  ⟨fun h' => absurd h' (by omega), fun h' => absurd h' (by omega), fun h' => absurd h' (by omega)⟩

theorem toNat_byte {b : ℕ} (hb : b < 128) : (byte b).toNat < 128 := by
  rw [BitVec.toNat_ofNat]
  omega

/-- What is only noted is taken. -/
theorem taken {P : Prop} {r : ℤ} (h : BoundedJp cid') (hP : P) :
    ((some (cid', r)).isSome = true ↔ P) ∧
      ∀ cid'', (some (cid', r)).map Prod.fst = some cid'' → BoundedJp cid'' :=
  ⟨iff_of_true rfl hP, fun _ hcid'' => Option.some.inj hcid'' ▸ h⟩

/-- An octet of the message is stored. -/
theorem BoundedJp.retrieve (h : BoundedJp cid) (hs : cid.sawflag = 8) {b : ℕ} (hb : b < 128) :
    ∃ cid', sawOctetJp cid b = some (cid', 0) ∧ BoundedJp cid' := by
  obtain ⟨hlen, hpos, hroom, hoctets⟩ := h.retrieving hs
  have hstored : ∀ i < cid.pos + 1,
      (Function.update cid.rawdata cid.pos (byte b) i).toNat < 128 := by
    intro i hi
    by_cases heq : i = cid.pos
    · rw [heq, Function.update_self]
      exact toNat_byte hb
    · rw [Function.update_of_ne heq]
      exact hoctets i (by omega)
  have hsaw : sawOctetJp cid b = (cid.setRaw cid.pos (byte b)).bind fun cid =>
      if cid.len - 1 ≤ 0 then
        (({ cid with pos := cid.pos + 1, len := cid.len - 1 } : State).setRaw
          (cid.pos + 1) 0).map fun cid => ({ cid with sawflag := 9 }, 0)
      else some ({ cid with pos := cid.pos + 1, len := cid.len - 1 }, 0) := by
    unfold sawOctetJp
    rw [hs]
    exact rfl
  rw [hsaw, cid.setRaw_of_lt (by omega), Option.bind_some]
  dsimp only
  by_cases hlast : cid.len - 1 ≤ 0
  · rw [if_pos hlast, State.setRaw_of_lt _ (by omega), Option.map_some]
    refine ⟨_, rfl, fun h => absurd h (show 9 ≠ 7 by decide), fun h => absurd h (show 9 ≠ 8 by decide),
      fun _ => ⟨show cid.pos + 1 ≤ 129 by omega, fun i hi => ?_, Function.update_self _ _ _⟩⟩
    have hne : i ≠ cid.pos + 1 := Nat.ne_of_lt hi
    show (Function.update (Function.update cid.rawdata cid.pos (byte b)) (cid.pos + 1)
      (0 : CChar) i).toNat < 128
    rw [Function.update_of_ne hne]
    exact hstored i hi
  · rw [if_neg hlast]
    refine ⟨_, rfl, fun h => absurd (hs.symm.trans h) (by decide), fun _ => ⟨?_, ?_, ?_, hstored⟩,
      fun h => absurd (show 9 ≤ cid.sawflag from h) (by omega)⟩
    · show 0 ≤ cid.len - 1
      omega
    · show cid.pos + 1 ≤ 128
      omega
    · show ((cid.pos + 1 : ℕ) : ℤ) + (cid.len - 1) ≤ 129
      omega

/-- The length of the number is stored, and is short enough. -/
theorem BoundedJp.length (h : BoundedJp cid) (hs : cid.sawflag = 7) {b : ℕ} (hb : b < 128) :
    ∃ cid', sawOctetJp cid b = some (cid', 0) ∧ BoundedJp cid' := by
  obtain ⟨hpos, hfirst⟩ := h.number hs
  have hsaw : sawOctetJp cid b = if b + 2 ≥ rawdataSize then
        some ({ cid with sawflag := 8, len := b }, -1)
      else (cid.setRaw cid.pos (byte b)).map fun cid =>
        ({ cid with sawflag := 8, len := b, pos := cid.pos + 1 }, 0) := by
    unfold sawOctetJp
    rw [hs]
    exact rfl
  have hshort : ¬ b + 2 ≥ rawdataSize := by
    unfold rawdataSize
    omega
  rw [hsaw, if_neg hshort, cid.setRaw_of_lt (by omega), Option.map_some]
  refine ⟨_, rfl, fun h => absurd h (show 8 ≠ 7 by decide), fun _ => ⟨?_, ?_, ?_, fun i hi => ?_⟩,
    fun h => absurd (show 9 ≤ 8 from h) (by decide)⟩
  · exact Int.natCast_nonneg b
  · show cid.pos + 1 ≤ 128
    omega
  · show ((cid.pos + 1 : ℕ) : ℤ) + (b : ℤ) ≤ 129
    omega
  · have hi' : i < cid.pos + 1 := hi
    show (Function.update cid.rawdata cid.pos (byte b) i).toNat < 128
    rw [hpos]
    by_cases hone : i = 1
    · rw [hone, Function.update_self]
      exact toNat_byte hb
    · rw [Function.update_of_ne hone, show i = 0 by omega]
      exact hfirst

/-- **The switch on `sawflag`.** -/
theorem sawOctetJp_spec (h : BoundedJp cid) {b : ℕ} (hb : b < 128) :
    ((sawOctetJp cid b).isSome = true ↔ (cid.sawflag = 11 → cid.crc = 0 →
      ∀ x ∈ offsetsJp cid.rawdata cid.pos cid.pos 0, ¬ TooLong cid.rawdata x)) ∧
      ∀ cid', (sawOctetJp cid b).map Prod.fst = some cid' → BoundedJp cid' := by
  by_cases hs8 : cid.sawflag = 8
  · obtain ⟨cid', hcid', hbounded⟩ := h.retrieve hs8 hb
    rw [hcid']
    exact taken hbounded fun h11 => absurd (hs8.symm.trans h11) (by decide)
  by_cases hs7 : cid.sawflag = 7
  · obtain ⟨cid', hcid', hbounded⟩ := h.length hs7 hb
    rw [hcid']
    exact taken hbounded fun h11 => absurd (hs7.symm.trans h11) (by decide)
  by_cases hs11 : cid.sawflag = 11
  · have hmessage := h.message (by omega)
    have hbounded : ∀ {cid' : State}, cid'.sawflag = 12 → Message cid' → BoundedJp cid' :=
      fun h12 hm => ⟨fun h => absurd (h12.symm.trans h) (by decide),
        fun h => absurd (h12.symm.trans h) (by decide), fun _ => hm⟩
    have hsaw : sawOctetJp cid b = if cid.crc ≠ 0 then some ({ cid with sawflag := 12 }, -1)
        else (elementsJp (rawdataSize + 1) { cid with sawflag := 12 } (0 : ℕ)).map fun cid =>
          (cid, 1) := by
      unfold sawOctetJp
      rw [hs11]
      exact rfl
    have hmessage' : Message { cid with sawflag := 12 } :=
      ⟨hmessage.pos, hmessage.octets, hmessage.nul⟩
    rw [hsaw, forall_prop_of_true hs11]
    by_cases hcrc : cid.crc = 0
    · have hpos := hmessage.pos
      obtain ⟨hsome, hnone⟩ := elementsJp_spec cid.pos (rawdataSize + 1) _ 0 hmessage'
        (Nat.le_of_eq (Nat.zero_add _).symm) (by unfold rawdataSize; omega)
      rw [if_neg (not_not.2 hcrc), forall_prop_of_true hcrc]
      by_cases hall : ∀ x ∈ offsetsJp cid.rawdata cid.pos cid.pos 0, ¬ TooLong cid.rawdata x
      · obtain ⟨cid', hcid', hmsg, hsaw'⟩ := hsome hall
        rw [hcid', Option.map_some]
        exact taken (hbounded hsaw' hmsg) hall
      · rw [hnone hall, Option.map_none]
        exact ⟨iff_of_false Bool.false_ne_true hall,
          fun cid' hcid' => absurd hcid' (Option.some_ne_none cid').symm⟩
    · rw [if_pos hcrc]
      exact taken (hbounded rfl hmessage') fun h => absurd h hcrc
  have hfair : cid.sawflag = 11 → cid.crc = 0 →
      ∀ x ∈ offsetsJp cid.rawdata cid.pos cid.pos 0, ¬ TooLong cid.rawdata x :=
    fun h11 => absurd h11 hs11
  unfold sawOctetJp
  rcases hs : cid.sawflag with _ | _ | _ | _ | _ | _ | _ | _ | _ | _ | _ | _ | k
  · rw [hs] at hfair
    refine taken ?_ hfair
    split_ifs
    · exact BoundedJp.of_lt (show 1 < 7 by decide)
    · exact h
  · rw [hs] at hfair
    refine taken ?_ hfair
    split_ifs
    · exact BoundedJp.of_lt (show 2 < 7 by decide)
    · exact h
  · rw [hs] at hfair
    refine taken ?_ hfair
    split_ifs
    · exact BoundedJp.of_lt (show 3 < 7 by decide)
    · exact h
  · rw [hs] at hfair
    refine taken ?_ hfair
    split_ifs
    · exact BoundedJp.of_lt (show 4 < 7 by decide)
    · exact h
  · rw [hs] at hfair
    refine taken ?_ hfair
    split_ifs
    · exact BoundedJp.of_lt (show 5 < 7 by decide)
    · exact h
  · rw [hs] at hfair
    exact taken (BoundedJp.of_lt (show 6 < 7 by decide)) hfair
  · rw [hs] at hfair
    dsimp only
    rw [cid.setRaw_of_lt (by decide), Option.map_some]
    refine taken ⟨fun _ => ⟨rfl, ?_⟩, fun h => absurd h (show 7 ≠ 8 by decide),
      fun h => absurd h (show ¬ 9 ≤ 7 by decide)⟩ hfair
    show (Function.update cid.rawdata 0 (byte b) 0).toNat < 128
    rw [Function.update_self]
    exact toNat_byte hb
  · exact absurd hs hs7
  · exact absurd hs hs8
  · rw [hs] at hfair
    refine taken ⟨fun h => absurd h (show 10 ≠ 7 by decide), fun h => absurd h (show 10 ≠ 8 by decide),
      fun _ => ?_⟩ hfair
    have hm := h.message (by omega)
    exact ⟨hm.pos, hm.octets, hm.nul⟩
  · rw [hs] at hfair
    refine taken ⟨fun h => absurd h (show 11 ≠ 7 by decide), fun h => absurd h (show 11 ≠ 8 by decide),
      fun _ => ?_⟩ hfair
    have hm := h.message (by omega)
    exact ⟨hm.pos, hm.octets, hm.nul⟩
  · exact absurd hs hs11
  · rw [hs] at hfair
    exact taken h hfair

/-- **An octet is taken exactly if it is fair.** -/
theorem feedOctetJp_spec (h : BoundedJp cid) :
    ((feedOctetJp cid o).isSome = true ↔ FairJp cid o) ∧
      ∀ cid', (feedOctetJp cid o).map Prod.fst = some cid' → BoundedJp cid' := by
  have hsame : ∀ crc skipflag, BoundedJp { cid with crc := crc, skipflag := skipflag } :=
    fun crc skipflag => ⟨h.number, h.retrieving,
      fun hge => ⟨(h.message hge).pos, (h.message hge).octets, (h.message hge).nul⟩⟩
  have hb : o.toNat % 128 < 128 := Nat.mod_lt _ (by decide)
  obtain ⟨crc, hcrc, hcid⟩ : ∃ crc, (cid.sawflag = 11 → crc = calcCrc cid.crc o) ∧
      (if cid.sawflag > 1 then { cid with crc := calcCrc cid.crc o } else cid) =
        { cid with crc := crc } := by
    by_cases hsaw : cid.sawflag > 1
    · exact ⟨_, fun _ => rfl, if_pos hsaw⟩
    · exact ⟨cid.crc, fun h => absurd h (by omega), if_neg hsaw⟩
  unfold feedOctetJp FairJp
  dsimp only
  rw [hcid]
  dsimp only
  by_cases hskip : 0 < cid.sawflag ∧ cid.sawflag ≠ 5 ∧ cid.skipflag = false ∧ o.toNat % 128 = 0x10
  · rw [if_pos hskip]
    exact taken (hsame crc true) fun _ _ hnot => absurd hskip.2.2 hnot
  · rw [if_neg hskip]
    obtain ⟨hiff, hnext⟩ := sawOctetJp_spec (hsame crc false) hb
    refine ⟨hiff.trans ⟨fun h h11 hzero _ => h h11 ?_, fun h h11 hzero => h h11 ?_ ?_⟩, hnext⟩
    · rw [← hzero]
      exact hcrc h11
    · rw [← hcrc h11]
      exact hzero
    · have h11' : cid.sawflag = 11 := h11
      exact fun hno => hskip ⟨by omega, by omega, hno⟩

/-- **`callerid_feed_jp` stays inside exactly where every message is fair.** -/
theorem feedJp_iff (os : List (BitVec 8)) :
    StaysInside feedOctetJp os ↔ EveryOctet feedOctetJp FairJp os :=
  staysInside_iff (I := BoundedJp) (BoundedJp.of_lt (show 0 < 7 by decide))
    (fun _ _ cid' h hcid' => (feedOctetJp_spec h).2 cid' hcid')
    (fun _ _ h => (feedOctetJp_spec h).1) os

/-- **What is fed stays inside exactly where every message is fair**, in both. -/
theorem feeds_iff (os : List (BitVec 8)) :
    (StaysInside feedOctet os ↔ EveryOctet feedOctet Fair os) ∧
      (StaysInside feedOctetJp os ↔ EveryOctet feedOctetJp FairJp os) :=
  ⟨feed_iff os, feedJp_iff os⟩


/-- **A name of length -1.** -/
theorem not_staysInside : ¬ StaysInside feedOctet [0x55, 0x80, 2, 7, 0xff, 120] := by
  unfold StaysInside
  decide +kernel

end Inside

end Callerid

end Trismedia
