import Trismedia.Base64.RoundTrip
/-!
# Decoding

Four characters of the encoder give three bytes, and so the string comes back.
A text from elsewhere may have any bytes: those above 127 are negative when
they are looked up.
-/


namespace Trismedia

namespace Base64

open CString

variable {max n bits byte k : ℕ} {linebreaks : Bool} {src dst : CString} {a b c : CChar}

/-! ## What was encoded -/

/-- The accumulator with six bits more. -/
def accum (byte n : ℕ) : ℕ := byte * 64 % 4294967296 + n

/-- A character for six bits. -/
theorem decodeLoop_digit (hn : n < 64) (hroom : dst.length < max) :
    decodeLoop max (base64At n :: src) byte bits dst =
      if 8 ≤ bits + 6 then
        decodeLoop max src (accum byte n) (bits + 6 - 8)
          (dst ++ [BitVec.ofNat 8 (accum byte n / 2 ^ (bits + 6 - 8))])
      else decodeLoop max src (accum byte n) (bits + 6) dst := by
  obtain ⟨hnul, hpad, -, hlook⟩ := base64At_spec n hn
  obtain ⟨v, hv, hvn⟩ := Option.map_eq_some_iff.1 hlook
  have hin : ((byte <<< 6) % 4294967296) ||| n = accum byte n :=
    shift_in byte (show 6 ≤ 32 by omega) (show n < 2 ^ 6 from hn)
  rw [decodeLoop, if_pos ⟨hnul, hpad, hroom⟩, hv, Option.bind_some]
  dsimp only
  rw [hvn, hin, Nat.shiftRight_eq_div_pow]

/-- A byte of the accumulator. -/
theorem ofNat_accum {w : ℕ} (h : w % 256 = a.toNat) : BitVec.ofNat 8 w = a := by
  refine BitVec.eq_of_toNat_eq ?_
  rw [BitVec.toNat_ofNat]
  exact h

theorem decodeLoop_pad : decodeLoop max (chr '=' :: src) byte bits dst = some dst :=
  if_neg fun h => h.2.1 rfl

/-- The first two of four characters give a byte. -/
theorem decodeLoop_two (ha : n / 16 = a.toNat % 4) (hn : n < 64) (hroom : dst.length < max) :
    ∃ byte', byte' % 16 = n % 16 ∧
      decodeLoop max (base64At (a.toNat / 4) :: base64At n :: src) byte 0 dst =
        decodeLoop max src byte' 4 (dst ++ [a]) := by
  have hlt := a.isLt
  have hbyte : accum (accum byte (a.toNat / 4)) n / 2 ^ (0 + 6 + 6 - 8) % 256 = a.toNat := by
    unfold accum
    omega
  refine ⟨accum (accum byte (a.toNat / 4)) n, by unfold accum; omega, ?_⟩
  rw [decodeLoop_digit (by omega) hroom, if_neg (by omega), decodeLoop_digit hn hroom,
    if_pos (by omega), ofNat_accum hbyte]

/-- The third one gives a byte. -/
theorem decodeLoop_third (hbyte : byte % 16 = b.toNat / 16) (hb : n / 4 = b.toNat % 16)
    (hn : n < 64) (hroom : dst.length < max) :
    ∃ byte', byte' % 4 = n % 4 ∧ decodeLoop max (base64At n :: src) byte 4 dst =
      decodeLoop max src byte' 2 (dst ++ [b]) := by
  have hlt := b.isLt
  have hout : accum byte n / 2 ^ (4 + 6 - 8) % 256 = b.toNat := by
    unfold accum
    omega
  refine ⟨accum byte n, by unfold accum; omega, ?_⟩
  rw [decodeLoop_digit hn hroom, if_pos (by omega), ofNat_accum hout]

/-- The fourth one gives a byte, and no bits remain. -/
theorem decodeLoop_fourth (hbyte : byte % 4 = c.toNat / 64) (hroom : dst.length < max) :
    ∃ byte', decodeLoop max (base64At (c.toNat % 64) :: src) byte 2 dst =
      decodeLoop max src byte' 0 (dst ++ [c]) := by
  have hlt := c.isLt
  have hout : accum byte (c.toNat % 64) / 2 ^ (2 + 6 - 8) % 256 = c.toNat := by
    unfold accum
    omega
  refine ⟨accum byte (c.toNat % 64), ?_⟩
  rw [decodeLoop_digit (by omega) hroom, if_pos (by omega), ofNat_accum hout]

/-- **The string comes back**, whatever is in the accumulator. -/
theorem decodeLoop_quads (src : CString) : ∀ (byte : ℕ) (dst : CString),
    dst.length + src.length ≤ max → decodeLoop max (quads src) byte 0 dst = some (dst ++ src) := by
  induction src using quads.induct with
  | case1 =>
    intro byte dst _
    rw [quads, decodeLoop, List.append_nil]
  | case2 a =>
    intro byte dst hroom
    have hlt := a.isLt
    have hone : [a].length = 1 := rfl
    obtain ⟨byte', -, htwo⟩ := @decodeLoop_two max (a.toNat % 4 * 16) byte [chr '=', chr '='] dst a
      (by omega) (by omega) (by omega)
    rw [quads, htwo, decodeLoop_pad]
  | case3 a b =>
    intro byte dst hroom
    have ha := a.isLt
    have hb := b.isLt
    have hlen : [a, b].length = 2 := rfl
    have hnext : (dst ++ [a]).length = dst.length + 1 := List.length_append
    obtain ⟨byte', hbyte, htwo⟩ := @decodeLoop_two max (a.toNat % 4 * 16 + b.toNat / 16) byte
      [base64At (b.toNat % 16 * 4), chr '='] dst a (by omega) (by omega) (by omega)
    obtain ⟨byte'', -, hthird⟩ := @decodeLoop_third max (b.toNat % 16 * 4) byte' [chr '=']
      (dst ++ [a]) b (by omega) (by omega) (by omega) (by omega)
    rw [quads, htwo, hthird, decodeLoop_pad, List.append_assoc]
    rfl
  | case4 a b c src ih =>
    intro byte dst hroom
    have ha := a.isLt
    have hb := b.isLt
    have hc := c.isLt
    have hlen : (a :: b :: c :: src).length = src.length + 3 := rfl
    have hone : (dst ++ [a]).length = dst.length + 1 := List.length_append
    have htwo : (dst ++ [a] ++ [b]).length = dst.length + 2 := by
      rw [List.length_append, hone, List.length_singleton]
    have hthree : (dst ++ [a] ++ [b] ++ [c]).length = dst.length + 3 := by
      rw [List.length_append, htwo, List.length_singleton]
    obtain ⟨byte₂, hbyte₂, hstep₂⟩ := @decodeLoop_two max (a.toNat % 4 * 16 + b.toNat / 16) byte
      (base64At (b.toNat % 16 * 4 + c.toNat / 64) :: base64At (c.toNat % 64) :: quads src) dst a
      (by omega) (by omega) (by omega)
    obtain ⟨byte₃, hbyte₃, hstep₃⟩ := @decodeLoop_third max (b.toNat % 16 * 4 + c.toNat / 64) byte₂
      (base64At (c.toNat % 64) :: quads src) (dst ++ [a]) b (by omega) (by omega) (by omega)
      (by omega)
    obtain ⟨byte₄, hstep₄⟩ := @decodeLoop_fourth max byte₃ (quads src) (dst ++ [a] ++ [b]) c
      (by omega) (by omega)
    have hquads : quads (a :: b :: c :: src) = base64At (a.toNat / 4) ::
        base64At (a.toNat % 4 * 16 + b.toNat / 16) ::
          base64At (b.toNat % 16 * 4 + c.toNat / 64) :: base64At (c.toNat % 64) :: quads src := by
      rw [quads]
      rfl
    rw [hquads, hstep₂, hstep₃, hstep₄, ih _ _ (by omega), List.append_assoc, List.append_assoc,
      List.append_assoc]
    rfl

/-- The characters of the whole encoding. -/
def encodedLength (n : ℕ) (linebreaks : Bool) : ℕ :=
  4 * ((n + 2) / 3) + if linebreaks then n / 48 + 1 else 0

/-- **Back from base 64**, with room for the whole encoding and for the string. -/
theorem decode_encode (henc : encodedLength src.length linebreaks < max) {m : ℕ}
    (hm : src.length ≤ m) :
    trisBase64decode (withoutBreaks (trisBase64encodeFull src max linebreaks)) m = some src := by
  have hencoded := @withoutBreaks_encodeEnd (max - 1) linebreaks src [] 0
    (fun _ => ⟨by omega, rfl⟩) (by
      unfold encodedLength at henc
      rw [List.length_nil]
      split_ifs at henc ⊢ <;> omega)
  have hall : withoutBreaks (trisBase64encodeFull src max linebreaks) = quads src := hencoded
  rw [hall, trisBase64decode, decodeLoop_quads src 0 [] (by simpa using hm), List.nil_append]

/-! ## Any text -/

/-- The bytes looked up are in the table: those before a pad and before there
is enough. -/
def InTable (src : CString) (max : ℕ) : Prop :=
  ∀ c ∈ (src.takeWhile (· ≠ chr '=')).take ((4 * max + 2) / 3), c.toNat < 128

theorem length_b2a : base64Init.b2a.length = 256 := by decide +kernel

theorem b2aAt_isSome (c : CChar) : (b2aAt c.toInt).isSome ↔ c.toNat < 128 := by
  have hlt := c.isLt
  rw [BitVec.toInt_eq_toNat_cond]
  unfold b2aAt
  split_ifs with hlow hnonneg hnonneg
  · rw [List.getElem?_eq_getElem (by rw [length_b2a]; omega)]
    exact iff_of_true rfl (by omega)
  · omega
  · omega
  · exact iff_of_false Bool.false_ne_true (by omega)

/-- From the `k`-th character on. -/
theorem decodeLoop_isSome (src : CString) : ∀ (k byte : ℕ) (dst : CString), (∀ c ∈ src, c ≠ 0) →
    dst.length = 6 * k / 8 →
      ((decodeLoop max src byte (6 * k % 8) dst).isSome ↔
        ∀ c ∈ (src.takeWhile (· ≠ chr '=')).take ((4 * max + 2) / 3 - k), c.toNat < 128) := by
  induction src with
  | nil =>
    intro k byte dst _ _
    rw [decodeLoop, List.takeWhile_nil, List.take_nil]
    exact iff_of_true rfl fun c hc => absurd hc List.not_mem_nil
  | cons c src ih =>
    intro k byte dst hnul hlen
    obtain ⟨hc, hrest⟩ := List.forall_mem_cons.1 hnul
    rw [decodeLoop]
    by_cases hpad : c = chr '='
    · rw [if_neg fun h => h.2.1 hpad, List.takeWhile_cons_of_neg (by simpa using hpad), List.take_nil]
      exact iff_of_true rfl fun c hc => absurd hc List.not_mem_nil
    · rw [List.takeWhile_cons_of_pos (by simpa using hpad)]
      by_cases hroom : dst.length < max
      · obtain ⟨left, hleft⟩ : ∃ left, (4 * max + 2) / 3 - k = left + 1 :=
          ⟨(4 * max + 2) / 3 - k - 1, by omega⟩
        have hnext : (4 * max + 2) / 3 - (k + 1) = left := by omega
        rw [if_pos ⟨hc, hpad, hroom⟩, hleft, List.take_succ_cons, List.forall_mem_cons,
          ← b2aAt_isSome]
        rcases hlook : b2aAt c.toInt with _ | v
        · rw [Option.bind_none]
          exact iff_of_false Bool.false_ne_true fun h => Bool.false_ne_true h.1
        · rw [Option.bind_some, ← hnext]
          dsimp only
          split_ifs with hfull
          · have hbits : 6 * k % 8 + 6 - 8 = 6 * (k + 1) % 8 := by omega
            rw [hbits, ih (k + 1) _ _ hrest (by
              rw [List.length_append, List.length_singleton]
              omega)]
            exact (and_iff_right rfl).symm
          · have hbits : 6 * k % 8 + 6 = 6 * (k + 1) % 8 := by omega
            rw [hbits, ih (k + 1) _ _ hrest (by omega)]
            exact (and_iff_right rfl).symm
      · have hnone : (4 * max + 2) / 3 - k = 0 := by omega
        rw [if_neg fun h => hroom h.2.2, hnone]
        exact iff_of_true rfl fun c hc => absurd hc List.not_mem_nil

/-- **The looks of the decoder.** -/
theorem decode_isSome (h : ∀ c ∈ src, c ≠ 0) :
    (trisBase64decode src max).isSome ↔ InTable src max :=
  decodeLoop_isSome src 0 0 [] h rfl

/-! ## The functions together -/

/-- What is right of a string `s`, encoded to `max` bytes, and of a text `t`
decoded to `m`. -/
structure Base64Right (s : CString) (max : ℕ) (linebreaks : Bool) (t : CString) (m : ℕ) :
    Prop where
  inside : (written s max linebreaks).length ≤ max
  back : encodedLength s.length linebreaks < max → ∀ room, s.length ≤ room →
    trisBase64decode (withoutBreaks (trisBase64encodeFull s max linebreaks)) room = some s
  looks : (trisBase64decode t m).isSome

/-- **Exactly when base 64 is right**: if no byte above 127 is looked up. -/
theorem base64Right_iff (s : CString) (max : ℕ) (linebreaks : Bool) (t : CString) (m : ℕ)
    (hmax : 1 ≤ max) (ht : ∀ c ∈ t, c ≠ 0) :
    Base64Right s max linebreaks t m ↔ InTable t m := by
  rw [← decode_isSome ht]
  constructor
  · intro h
    exact h.looks
  · intro h
    exact ⟨length_written_le hmax, fun henc _ hroom => decode_encode henc hroom, h⟩

theorem base64Right_hello : (1 ≤ 20 ∧ ∀ c ∈ str "aGk=", c ≠ 0) ∧
    (Base64Right (str "hi") 20 true (str "aGk=") 2 ↔ InTable (str "aGk=") 2) :=
  ⟨by decide, base64Right_iff (str "hi") 20 true (str "aGk=") 2 (by decide) (by decide)⟩

/-- An umlaut is looked up before the table. -/
theorem not_base64Right : ¬∀ (s : CString) (max : ℕ) (linebreaks : Bool) (t : CString) (m : ℕ),
    1 ≤ max → (∀ c ∈ t, c ≠ 0) → Base64Right s max linebreaks t m := by
  intro hall
  have hright := hall [] 1 false [0xe4] 1 (by decide) (by decide)
  have hlooks : (trisBase64decode [0xe4] 1).isSome = false := by decide
  exact absurd hright.looks (by rw [hlooks]; decide)

end Base64

end Trismedia
