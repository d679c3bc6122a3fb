import Trismedia.Udptl.Receiver
/-!
# UDPTL — where the coding of an open type ends

The coding of an open type in a buffer is a row of lengths, each with its
octets, the last one no fragment. It is whole, or the buffer ends inside
the octets announced, or it ends inside a length. `decode_open_type`
returns in the first two cases, and for ever goes round in the third.
-/


namespace Trismedia

namespace Udptl

/-- How the coding of an open type ends. -/
inductive Ending
  | whole (next : ℕ)
  | short
  | cut

/-- **An open type in a buffer**: at the place, the octets it announces, and
how it ends. -/
inductive Encoded (buf : List UInt8) : ℕ → ℕ → Ending → Prop
  | cut {p : ℕ} (h : decodeLengthAt buf p = none) : Encoded buf p 0 .cut
  | short {p : ℕ} {l : LengthField} (h : decodeLengthAt buf p = some l) (hpos : 0 < l.value)
      (hout : buf.length < l.next + l.value) : Encoded buf p l.value .short
  | whole {p : ℕ} {l : LengthField} (h : decodeLengthAt buf p = some l)
      (hlast : l.fragment = false) (hin : l.next + l.value ≤ buf.length) :
      Encoded buf p l.value (.whole (l.next + l.value))
  | more {p n : ℕ} {e : Ending} {l : LengthField} (h : decodeLengthAt buf p = some l)
      (hfrag : l.fragment = true) (hin : l.next + l.value ≤ buf.length)
      (hrest : Encoded buf (l.next + l.value) n e) : Encoded buf p (l.value + n) e

variable {buf : List UInt8} {p q n n' fuel : ℕ} {e e' : Ending} {l : LengthField}
variable {pObject : ℕ → Touch} {o o' : OpenType} {ret : ℤ}

/-! ## Lengths -/

theorem land_le_right (b m : UInt8) : (b &&& m).toNat ≤ m.toNat := by
  rw [UInt8.toNat_and]
  exact Nat.and_le_right

/-- **A length that is read**: it ends in the buffer, and a fragment counts
in steps of 16384. -/
theorem decodeLengthAt_some (h : decodeLengthAt buf p = some l) :
    p < l.next ∧ l.next ≤ buf.length ∧ l.value < 1048576 ∧
      (l.fragment = true → l.value % 16384 = 0) := by
  unfold decodeLengthAt at h
  have hmask : (buf.getD p 0 &&& 0x3F).toNat ≤ 63 := land_le_right _ _
  split_ifs at h with hend hshort hlong hlast
  · obtain rfl := Option.some.inj h
    have hbyte := (buf.getD p 0).toNat_lt
    refine ⟨Nat.lt_succ_self p, ?_, ?_, by simp⟩
    · show p + 1 ≤ _
      omega
    · show (buf.getD p 0).toNat < _
      omega
  · obtain rfl := Option.some.inj h
    have hhigh : (buf.getD p 0 &&& 0x3F).toNat <<< 8 < 2 ^ 14 := by
      rw [Nat.shiftLeft_eq]
      omega
    have hbyte : (buf.getD (p + 1) 0).toNat < 2 ^ 14 := by
      have := (buf.getD (p + 1) 0).toNat_lt
      omega
    have hvalue := Nat.or_lt_two_pow hhigh hbyte
    refine ⟨by simp, ?_, ?_, by simp⟩
    · show p + 2 ≤ _
      omega
    · show _ ||| _ < _
      omega
  · obtain rfl := Option.some.inj h
    refine ⟨Nat.lt_succ_self p, ?_, ?_, fun _ => ?_⟩
    · show p + 1 ≤ _
      omega
    · show _ <<< _ < _
      rw [Nat.shiftLeft_eq]
      omega
    · show _ <<< _ % _ = _
      rw [Nat.shiftLeft_eq]
      omega

/-- What `decode_length` reads is in the buffer. -/
theorem decodeLengthReads_le (buf : List UInt8) (p : ℕ) :
    decodeLengthReads buf p ≤ buf.length := by
  unfold decodeLengthReads
  split_ifs with hend
  · exact Nat.zero_le _
  cases h : decodeLengthAt buf p with
  | none => exact Nat.lt_of_not_le hend
  | some l => exact (decodeLengthAt_some h).2.1

/-! ## Every place has one coding -/

theorem exists_encoded (buf : List UInt8) (p : ℕ) : ∃ n e, Encoded buf p n e := by
  obtain ⟨d, hd⟩ : ∃ d, d = buf.length - p := ⟨_, rfl⟩
  induction d using Nat.strong_induction_on generalizing p with
  | _ d ih =>
    cases h : decodeLengthAt buf p with
    | none => exact ⟨0, .cut, .cut h⟩
    | some l =>
      obtain ⟨hnext, hbound, -, -⟩ := decodeLengthAt_some h
      by_cases hin : l.next + l.value ≤ buf.length
      · cases hfrag : l.fragment with
        | false => exact ⟨_, _, .whole h hfrag hin⟩
        | true =>
          obtain ⟨n, e, hrest⟩ := ih (buf.length - (l.next + l.value)) (by omega) _ rfl
          exact ⟨_, _, .more h hfrag hin hrest⟩
      · exact ⟨_, _, .short h (by omega) (by omega)⟩

theorem Encoded.unique (h : Encoded buf p n e) (h' : Encoded buf p n' e') : n = n' ∧ e = e' := by
  induction h generalizing n' e' with
  | cut hl =>
    cases h' with
    | cut _ => exact ⟨rfl, rfl⟩
    | short hl' _ _ => rw [hl] at hl'; cases hl'
    | whole hl' _ _ => rw [hl] at hl'; cases hl'
    | more hl' _ _ _ => rw [hl] at hl'; cases hl'
  | short hl hpos hout =>
    cases h' with
    | cut hl' => rw [hl] at hl'; cases hl'
    | short hl' _ _ =>
      obtain rfl := Option.some.inj (hl.symm.trans hl')
      exact ⟨rfl, rfl⟩
    | whole hl' _ hin =>
      obtain rfl := Option.some.inj (hl.symm.trans hl')
      omega
    | more hl' _ hin _ =>
      obtain rfl := Option.some.inj (hl.symm.trans hl')
      omega
  | whole hl hlast hin =>
    cases h' with
    | cut hl' => rw [hl] at hl'; cases hl'
    | short hl' _ hout =>
      obtain rfl := Option.some.inj (hl.symm.trans hl')
      omega
    | whole hl' _ _ =>
      obtain rfl := Option.some.inj (hl.symm.trans hl')
      exact ⟨rfl, rfl⟩
    | more hl' hfrag _ _ =>
      obtain rfl := Option.some.inj (hl.symm.trans hl')
      rw [hlast] at hfrag
      cases hfrag
  | more hl hfrag hin _ ih =>
    cases h' with
    | cut hl' => rw [hl] at hl'; cases hl'
    | short hl' _ hout =>
      obtain rfl := Option.some.inj (hl.symm.trans hl')
      omega
    | whole hl' hlast _ =>
      obtain rfl := Option.some.inj (hl.symm.trans hl')
      rw [hlast] at hfrag
      cases hfrag
    | more hl' _ _ hrest =>
      obtain rfl := Option.some.inj (hl.symm.trans hl')
      obtain ⟨rfl, rfl⟩ := ih hrest
      exact ⟨rfl, rfl⟩

/-! ## The rounds -/

/-- So long that a place and a length never add up to 2³². -/
def NoWrap (buf : List UInt8) : Prop := buf.length + 1048576 ≤ 4294967296

theorem round_cut (h : decodeLengthAt buf o.len = none) :
    decodeOpenTypeRound buf pObject o =
      ({ o with touched := o.touched ++ [.datagram (decodeLengthReads buf o.len)] }, none) := by
  unfold decodeOpenTypeRound
  simp only [h]

theorem round_short (hb : NoWrap buf) (h : decodeLengthAt buf o.len = some l) (hpos : 0 < l.value)
    (hout : buf.length < l.next + l.value) :
    decodeOpenTypeRound buf pObject o =
      ({ o with
        touched := o.touched ++ [.datagram (decodeLengthReads buf o.len)]
        len := l.next
        numOctets := (o.numOctets + l.value) % 4294967296 }, some (-1)) := by
  obtain ⟨-, hnext, hvalue, -⟩ := decodeLengthAt_some h
  have hsmall : (l.next + l.value) % 4294967296 = l.next + l.value := by
    refine Nat.mod_eq_of_lt ?_
    unfold NoWrap at hb
    omega
  unfold decodeOpenTypeRound
  simp only [h, hsmall]
  rw [if_pos hpos, if_pos hout]

variable (pObject) in
/-- The round of a length whose octets are there. -/
theorem round_octets (hb : NoWrap buf) (h : decodeLengthAt buf o.len = some l) (hpos : 0 < l.value)
    (hin : l.next + l.value ≤ buf.length) :
    decodeOpenTypeRound buf pObject o =
      ({ o with
        touched := o.touched ++ [.datagram (decodeLengthReads buf o.len)] ++ [pObject o.octetIdx]
        len := l.next + l.value
        object := if o.octetIdx = 0 then some l.next else o.object
        octetIdx := (o.octetIdx + l.value) % 4294967296
        numOctets := (o.numOctets + l.value) % 4294967296 },
        if l.fragment then none else some 0) := by
  have hsmall : (l.next + l.value) % 4294967296 = l.next + l.value := by
    refine Nat.mod_eq_of_lt ?_
    unfold NoWrap at hb
    omega
  unfold decodeOpenTypeRound
  simp only [h, hsmall]
  rw [if_pos hpos, if_neg (by omega)]

variable (pObject) in
/-- The round of a length that announces none. -/
theorem round_empty (h : decodeLengthAt buf o.len = some l) (hzero : l.value = 0) :
    decodeOpenTypeRound buf pObject o =
      ({ o with
        touched := o.touched ++ [.datagram (decodeLengthReads buf o.len)]
        len := l.next }, if l.fragment then none else some 0) := by
  unfold decodeOpenTypeRound
  simp only [h]
  rw [if_neg (by omega)]

variable (fuel) in
theorem rounds_again (h : decodeOpenTypeRound buf pObject o = (o', none)) :
    decodeOpenTypeRounds buf pObject (fuel + 1) o = decodeOpenTypeRounds buf pObject fuel o' := by
  rw [decodeOpenTypeRounds, h]

variable (fuel) in
theorem rounds_done (h : decodeOpenTypeRound buf pObject o = (o', some ret)) :
    decodeOpenTypeRounds buf pObject (fuel + 1) o = some (o', ret) := by
  rw [decodeOpenTypeRounds, h]

/-- **What `decode_open_type` returns is what the coding says.** -/
theorem rounds_sound (hb : NoWrap buf)
    (h : decodeOpenTypeRounds buf pObject fuel o = some (o', ret)) (ho : o.numOctets < 4294967296) :
    ∃ n e, Encoded buf o.len n e ∧ o'.numOctets = (o.numOctets + n) % 4294967296 ∧
      ((e = .short ∧ ret = -1) ∨ (e = .whole o'.len ∧ ret = 0)) := by
  induction fuel generalizing o with
  | zero => cases h
  | succ fuel ih =>
    cases hl : decodeLengthAt buf o.len with
    | none =>
      rw [rounds_again fuel (round_cut hl)] at h
      have hrest := ih h ho
      exact hrest
    | some l =>
      obtain ⟨-, hnext, -, -⟩ := decodeLengthAt_some hl
      have hwrap := Nat.mod_lt (o.numOctets + l.value) (by decide : 0 < 4294967296)
      rcases Nat.eq_zero_or_pos l.value with hzero | hpos
      · have hin : l.next + l.value ≤ buf.length := by omega
        have hround := round_empty pObject hl hzero
        cases hfrag : l.fragment with
        | true =>
          rw [hfrag] at hround
          rw [rounds_again fuel hround] at h
          obtain ⟨n, e, henc, hn, hend⟩ := ih h ho
          have henc' : Encoded buf (l.next + l.value) n e := by rwa [hzero]
          refine ⟨l.value + n, e, .more hl hfrag hin henc', ?_, hend⟩
          rw [hn, hzero, Nat.zero_add]
        | false =>
          rw [hfrag] at hround
          rw [rounds_done fuel hround] at h
          obtain ⟨rfl, rfl⟩ := Prod.mk.inj (Option.some.inj h)
          refine ⟨l.value, _, .whole hl hfrag hin, ?_, .inr ⟨?_, rfl⟩⟩
          · rw [hzero]
            exact (Nat.mod_eq_of_lt ho).symm
          · rw [hzero]
            rfl
      by_cases hin : l.next + l.value ≤ buf.length
      · have hround := round_octets pObject hb hl hpos hin
        cases hfrag : l.fragment with
        | true =>
          rw [hfrag] at hround
          rw [rounds_again fuel hround] at h
          obtain ⟨n, e, henc, hn, hend⟩ := ih h hwrap
          refine ⟨l.value + n, e, .more hl hfrag hin henc, ?_, hend⟩
          rw [hn, Nat.mod_add_mod, Nat.add_assoc]
        | false =>
          rw [hfrag] at hround
          rw [rounds_done fuel hround] at h
          obtain ⟨rfl, rfl⟩ := Prod.mk.inj (Option.some.inj h)
          exact ⟨l.value, _, .whole hl hfrag hin, rfl, .inr ⟨rfl, rfl⟩⟩
      · rw [rounds_done fuel (round_short hb hl hpos (by omega))] at h
        obtain ⟨rfl, rfl⟩ := Prod.mk.inj (Option.some.inj h)
        exact ⟨l.value, .short, .short hl hpos (by omega), rfl, .inl ⟨rfl, rfl⟩⟩

/-- **It returns wherever no length is cut**, in fewer rounds than octets. -/
theorem rounds_complete (hb : NoWrap buf) (henc : Encoded buf p n e) (he : e ≠ .cut)
    (ho : o.len = p) (hp : p ≤ buf.length) (hfuel : buf.length < p + fuel) :
    ∃ r, decodeOpenTypeRounds buf pObject fuel o = some r := by
  induction henc generalizing o fuel with
  | cut _ => exact absurd rfl he
  | @short p l hl hpos hout =>
    obtain ⟨fuel, rfl⟩ := Nat.exists_eq_succ_of_ne_zero (by omega : fuel ≠ 0)
    subst ho
    exact ⟨_, rounds_done fuel (round_short hb hl hpos hout)⟩
  | @whole p l hl hlast hin =>
    obtain ⟨fuel, rfl⟩ := Nat.exists_eq_succ_of_ne_zero (by omega : fuel ≠ 0)
    subst ho
    rcases Nat.eq_zero_or_pos l.value with hzero | hpos
    · have hround := round_empty pObject hl hzero
      rw [hlast] at hround
      exact ⟨_, rounds_done fuel hround⟩
    · have hround := round_octets pObject hb hl hpos hin
      rw [hlast] at hround
      exact ⟨_, rounds_done fuel hround⟩
  | @more p n e l hl hfrag hin _ ih =>
    obtain ⟨fuel, rfl⟩ := Nat.exists_eq_succ_of_ne_zero (by omega : fuel ≠ 0)
    subst ho
    obtain ⟨hnext, -, -, -⟩ := decodeLengthAt_some hl
    rcases Nat.eq_zero_or_pos l.value with hzero | hpos
    · have hround := round_empty pObject hl hzero
      rw [hfrag] at hround
      rw [rounds_again fuel hround]
      exact ih he (by rw [hzero]; rfl) hin (by omega)
    · have hround := round_octets pObject hb hl hpos hin
      rw [hfrag] at hround
      rw [rounds_again fuel hround]
      exact ih he rfl hin (by omega)

/-- What an open type announces is bounded by the buffer. -/
theorem Encoded.lt (h : Encoded buf p n e) (hn : n ≠ 0) : p + n < buf.length + 1048576 := by
  induction h with
  | cut _ => exact absurd rfl hn
  | short hl _ _ =>
    obtain ⟨hnext, hbound, hvalue, -⟩ := decodeLengthAt_some hl
    omega
  | whole hl _ hin =>
    obtain ⟨hnext, -, -, -⟩ := decodeLengthAt_some hl
    omega
  | @more p n e l hl _ hin _ ih =>
    obtain ⟨hnext, -, -, -⟩ := decodeLengthAt_some hl
    by_cases hzero : n = 0
    · omega
    · have hrest := ih hzero
      omega

theorem Encoded.next_le {next : ℕ} (h : Encoded buf p n (.whole next)) :
    p < next ∧ next ≤ buf.length := by
  generalize he : Ending.whole next = e at h
  induction h with
  | cut _ => cases he
  | short _ _ _ => cases he
  | whole hl _ hin =>
    obtain ⟨hnext, -, -, -⟩ := decodeLengthAt_some hl
    injection he with he
    omega
  | more hl _ hin _ ih =>
    obtain ⟨hnext, -, -, -⟩ := decodeLengthAt_some hl
    have hrest := ih he
    omega

/-- **`decode_open_type`, where it returns.** -/
theorem decodeOpenTypeAt_some (hb : NoWrap buf)
    (h : decodeOpenTypeAt buf pObject fuel p = some (o, ret)) :
    ∃ e, Encoded buf p o.numOctets e ∧
      ((e = .short ∧ ret = -1) ∨ (e = .whole o.len ∧ ret = 0)) := by
  obtain ⟨n, e, henc, hn, hend⟩ := rounds_sound hb h (show 0 < 4294967296 by decide)
  have hsmall : n < 4294967296 := by
    by_cases hzero : n = 0
    · omega
    · have hlt := henc.lt hzero
      unfold NoWrap at hb
      omega
  rw [Nat.zero_add, Nat.mod_eq_of_lt hsmall] at hn
  rw [hn]
  exact ⟨e, henc, hend⟩

/-- So it does not return where a length is cut. -/
theorem Encoded.not_cut (hb : NoWrap buf) (h : decodeOpenTypeAt buf pObject fuel p = some (o, ret))
    (n : ℕ) : ¬ Encoded buf p n .cut := by
  intro hcut
  obtain ⟨e, henc, hend⟩ := decodeOpenTypeAt_some hb h
  obtain ⟨-, rfl⟩ := henc.unique hcut
  rcases hend with ⟨he, -⟩ | ⟨he, -⟩
  · cases he
  · cases he

/-- **And it returns wherever none is.** -/
theorem decodeOpenTypeAt_returns (hb : NoWrap buf) (hcut : ∀ n, ¬ Encoded buf p n .cut)
    (hfuel : buf.length < fuel) (pObject : ℕ → Touch) :
    ∃ o ret, decodeOpenTypeAt buf pObject fuel p = some (o, ret) := by
  obtain ⟨n, e, henc⟩ := exists_encoded buf p
  have he : e ≠ .cut := by
    rintro rfl
    exact hcut n henc
  have hp : p ≤ buf.length := by
    by_contra hp
    refine hcut 0 (.cut ?_)
    rw [decodeLengthAt, if_pos (by omega)]
  have hfuel' : buf.length < p + fuel := by omega
  obtain ⟨⟨o, ret⟩, hr⟩ : ∃ r, decodeOpenTypeRounds buf pObject fuel ⟨0, none, 0, p, []⟩ = some r :=
    rounds_complete hb henc he rfl hp hfuel'
  exact ⟨o, ret, hr⟩

/-! ## Rows of open types -/

/-- `c` whole open types in a row, each of a number of octets that is
allowed. -/
inductive Row (buf : List UInt8) (allowed : ℕ → Prop) : ℕ → ℕ → ℕ → Prop
  | nil {p : ℕ} : Row buf allowed p 0 p
  | cons {p mid q n c : ℕ} (henc : Encoded buf p n (.whole mid)) (hn : allowed n)
      (hrest : Row buf allowed mid c q) : Row buf allowed p (c + 1) q

variable {allowed : ℕ → Prop} {i : ℕ}

theorem row_zero : Row buf allowed p 0 q ↔ q = p := by
  constructor
  · intro h
    cases h
    rfl
  · rintro rfl
    exact .nil

/-- What comes after a whole open type. -/
theorem row_succ {mid : ℕ} (henc : Encoded buf p n (.whole mid)) (hn : allowed n) :
    Row buf allowed p (i + 1) q ↔ Row buf allowed mid i q := by
  constructor
  · intro h
    cases h with
    | cons henc' _ hrest =>
      obtain ⟨-, he⟩ := henc.unique henc'
      injection he with he
      rwa [he]
  · exact .cons henc hn

/-- No row goes on behind one that is not whole. -/
theorem not_row_succ (henc : Encoded buf p n .short) : ¬ Row buf allowed p (i + 1) q := by
  intro h
  cases h with
  | cons henc' _ _ =>
    obtain ⟨-, he⟩ := henc.unique henc'
    cases he

/-- A row ends at one place. -/
theorem Row.unique {q' : ℕ} (h : Row buf allowed p i q) (h' : Row buf allowed p i q') : q' = q := by
  induction h with
  | nil => exact row_zero.1 h'
  | cons henc hn _ ih => exact ih ((row_succ henc hn).1 h')

theorem Row.bounds (h : Row buf allowed p i q) (hp : p ≤ buf.length) : p ≤ q ∧ q ≤ buf.length := by
  induction h with
  | nil => exact ⟨Nat.le_refl _, hp⟩
  | cons henc _ _ ih =>
    obtain ⟨hlt, hmid⟩ := henc.next_le
    have hrest := ih hmid
    omega

end Udptl

end Trismedia
