import Trismedia.Base64.Model
/-!
# What comes back

The encoder writes no more than it may, since each of its writes looks at the
room. With room for all, three bytes go out as four characters, the line
breaks between them, and the decoder makes three bytes of four characters
again, whatever is left in its accumulator from before.
-/


namespace Trismedia

namespace Base64

open CString

variable {max n : ℕ} {linebreaks : Bool} {e : Enc} {src dst : CString} {a b c : CChar}

/-! ## The room -/

theorem length_takeByte_le (h : e.dst.length ≤ max) : (takeByte max e c).dst.length ≤ max := by
  unfold takeByte
  dsimp only
  split_ifs with hroom
  · rw [List.length_append]
    exact hroom.2
  · exact h

theorem length_breakLine_le (h : e.dst.length ≤ max) :
    (breakLine max linebreaks e).dst.length ≤ max := by
  unfold breakLine
  split_ifs with hroom
  · have hlt := hroom.2.1
    simp only [List.length_append, List.length_singleton]
    omega
  · exact h

theorem length_encodeLoop_le (src : CString) : ∀ {e : Enc}, e.dst.length ≤ max →
    (encodeLoop max linebreaks src e).dst.length ≤ max := by
  induction src with
  | nil => exact fun h => h
  | cons c src ih =>
    intro e h
    rw [encodeLoop]
    split_ifs with hlt
    · exact ih (length_breakLine_le (length_takeByte_le h))
    · exact h

theorem length_encodeEnd_le (h : e.dst.length ≤ max) :
    (encodeEnd max linebreaks e).length ≤ max := by
  have hbits : ∀ t : CString, t.length = 4 →
      (if e.bits ≠ 0 ∧ e.dst.length + 4 ≤ max then e.dst ++ t else e.dst).length ≤ max := by
    intro t ht
    split_ifs with hroom
    · rw [List.length_append, ht]
      exact hroom.2
    · exact h
  have hbreak : ∀ s : CString, s.length ≤ max →
      (if linebreaks = true ∧ s.length < max then s ++ [chr '\n'] else s).length ≤ max := by
    intro s hs
    split_ifs with hroom
    · rw [List.length_append, List.length_singleton]
      exact hroom.2
    · exact hs
  exact hbreak _ (hbits _ rfl)

/-- **What is written** is never more than there is room for. -/
theorem length_written_le (hmax : 1 ≤ max) : (written src max linebreaks).length ≤ max := by
  have hloop := @length_encodeLoop_le (max - 1) linebreaks src {} (Nat.zero_le _)
  have hend := @length_encodeEnd_le (max - 1) linebreaks _ hloop
  rw [written, List.length_append, trisBase64encodeFull, List.length_singleton]
  omega

/-! ## The characters -/

/-- A character for six bits is none of the special ones, and is found again. -/
theorem base64At_spec : ∀ n < 64, base64At n ≠ 0 ∧ base64At n ≠ chr '=' ∧ base64At n ≠ chr '\n' ∧
    (b2aAt (base64At n).toInt).map (fun v => v.toNat &&& 0x3f) = some n := by
  decide +kernel

theorem base64At_mod (n : ℕ) : base64At n = base64At (n % 64) := by
  have hand : ∀ m : ℕ, m &&& 0x3f = m % 64 := fun m => Nat.and_two_pow_sub_one_eq_mod m 6
  rw [base64At, base64At, hand, hand, Nat.mod_mod]

/-- Bits that are shifted in. -/
theorem shift_in {k v : ℕ} (byte : ℕ) (hk : k ≤ 32) (hv : v < 2 ^ k) :
    ((byte <<< k) % 4294967296) ||| v = byte * 2 ^ k % 4294967296 + v := by
  have hsplit : 4294967296 = 2 ^ (32 - k) * 2 ^ k := by
    rw [← Nat.pow_add, Nat.sub_add_cancel hk]
  have hmod : byte * 2 ^ k % 4294967296 = (byte % 2 ^ (32 - k)) <<< k := by
    rw [hsplit, Nat.mul_mod_mul_right, Nat.shiftLeft_eq]
  rw [Nat.shiftLeft_eq, hmod, Nat.shiftLeft_add_eq_or_of_lt hv]

/-- The characters for three bytes. -/
def quad (a b c : CChar) : CString :=
  [base64At (a.toNat / 4), base64At (a.toNat % 4 * 16 + b.toNat / 16),
    base64At (b.toNat % 16 * 4 + c.toNat / 64), base64At (c.toNat % 64)]

/-- The characters for a string. -/
def quads : CString → CString
  | [] => []
  | [a] => [base64At (a.toNat / 4), base64At (a.toNat % 4 * 16), chr '=', chr '=']
  | [a, b] =>
    [base64At (a.toNat / 4), base64At (a.toNat % 4 * 16 + b.toNat / 16),
      base64At (b.toNat % 16 * 4), chr '=']
  | a :: b :: c :: src => quad a b c ++ quads src

/-- The line breaks removed. -/
def withoutBreaks (s : CString) : CString := s.filter (· ≠ chr '\n')

theorem withoutBreaks_append (s t : CString) :
    withoutBreaks (s ++ t) = withoutBreaks s ++ withoutBreaks t := List.filter_append ..

theorem withoutBreaks_quads (src : CString) : withoutBreaks (quads src) = quads src := by
  have hdigit : ∀ n < 64, base64At n ≠ chr '\n' := fun n hn => (base64At_spec n hn).2.2.1
  have hpad : chr '=' ≠ chr '\n' := by decide
  refine List.filter_eq_self.2 fun x hx => decide_eq_true ?_
  induction src using quads.induct with
  | case1 => exact absurd hx List.not_mem_nil
  | case2 a =>
    have ha := a.isLt
    simp only [quads, List.mem_cons, List.not_mem_nil, or_false] at hx
    rcases hx with rfl | rfl | rfl | rfl
    · exact hdigit _ (by omega)
    · exact hdigit _ (by omega)
    · exact hpad
    · exact hpad
  | case3 a b =>
    have ha := a.isLt
    have hb := b.isLt
    simp only [quads, List.mem_cons, List.not_mem_nil, or_false] at hx
    rcases hx with rfl | rfl | rfl | rfl
    · exact hdigit _ (by omega)
    · exact hdigit _ (by omega)
    · exact hdigit _ (by omega)
    · exact hpad
  | case4 a b c src ih =>
    have ha := a.isLt
    have hb := b.isLt
    have hc := c.isLt
    rw [quads, List.mem_append] at hx
    rcases hx with hx | hx
    · simp only [quad, List.mem_cons, List.not_mem_nil, or_false] at hx
      rcases hx with rfl | rfl | rfl | rfl <;> exact hdigit _ (by omega)
    · exact ih hx

/-! ## Encoding -/

/-- The first byte of three. -/
theorem takeByte_one (dst : CString) (col : ℕ) (a : CChar) :
    takeByte max ⟨dst, col, 0, 0⟩ a = ⟨dst, col, a.toNat, 8⟩ := by
  have ha := shift_in 0 (show 8 ≤ 32 by omega) (show a.toNat < 2 ^ 8 from a.isLt)
  unfold takeByte
  dsimp only
  rw [if_neg (by omega), ha]
  simp

/-- The second one. -/
theorem takeByte_two (dst : CString) (col : ℕ) (a b : CChar) :
    takeByte max ⟨dst, col, a.toNat, 8⟩ b = ⟨dst, col, a.toNat * 256 + b.toNat, 16⟩ := by
  have ha := a.isLt
  have hb := shift_in a.toNat (show 8 ≤ 32 by omega) (show b.toNat < 2 ^ 8 from b.isLt)
  have hmod : a.toNat * 2 ^ 8 % 4294967296 = a.toNat * 256 := by omega
  unfold takeByte
  dsimp only
  rw [if_neg (by omega), hb, hmod]

/-- With the third one the characters go out. -/
theorem takeByte_three (col : ℕ) (hroom : dst.length + 4 ≤ max) :
    takeByte max ⟨dst, col, a.toNat * 256 + b.toNat, 16⟩ c =
      ⟨dst ++ quad a b c, col + 4, 0, 0⟩ := by
  have ha := a.isLt
  have hb := b.isLt
  have hc := c.isLt
  have hin := shift_in (a.toNat * 256 + b.toNat) (show 8 ≤ 32 by omega)
    (show c.toNat < 2 ^ 8 from c.isLt)
  have hmod : (a.toNat * 256 + b.toNat) * 2 ^ 8 % 4294967296 =
      a.toNat * 65536 + b.toNat * 256 := by omega
  rw [hmod] at hin
  unfold takeByte
  dsimp only
  rw [if_pos ⟨rfl, hroom⟩, hin]
  generalize hw : a.toNat * 65536 + b.toNat * 256 + c.toNat = w
  have hfirst : (w >>> 18) % 64 = a.toNat / 4 := by
    rw [Nat.shiftRight_eq_div_pow]
    omega
  have hsecond : (w >>> 12) % 64 = a.toNat % 4 * 16 + b.toNat / 16 := by
    rw [Nat.shiftRight_eq_div_pow]
    omega
  have hthird : (w >>> 6) % 64 = b.toNat % 16 * 4 + c.toNat / 64 := by
    rw [Nat.shiftRight_eq_div_pow]
    omega
  have hfourth : w % 64 = c.toNat % 64 := by omega
  rw [base64At_mod (w >>> 18), base64At_mod (w >>> 12), base64At_mod (w >>> 6), base64At_mod w,
    hfirst, hsecond, hthird, hfourth]
  rfl

theorem breakLine_short (h : linebreaks = true → e.col < 64) : breakLine max linebreaks e = e :=
  if_neg fun hbreak => by
    have hlt := h hbreak.1
    have heq := hbreak.2.2
    omega

/-- A byte that does not fill a line. -/
theorem encodeLoop_cons (h : e.dst.length < max)
    (hcol : linebreaks = true → (takeByte max e c).col < 64) :
    encodeLoop max linebreaks (c :: src) e = encodeLoop max linebreaks src (takeByte max e c) := by
  rw [encodeLoop, if_pos h, breakLine_short hcol]

/-- Three bytes. -/
theorem encodeLoop_three {col : ℕ} (hroom : dst.length + 4 ≤ max)
    (hcol : linebreaks = true → col < 64) :
    encodeLoop max linebreaks (a :: b :: c :: src) ⟨dst, col, 0, 0⟩ =
      encodeLoop max linebreaks src
        (breakLine max linebreaks ⟨dst ++ quad a b c, col + 4, 0, 0⟩) := by
  have hlt : dst.length < max := by omega
  rw [encodeLoop_cons hlt (by rw [takeByte_one]; exact hcol), takeByte_one,
    encodeLoop_cons hlt (by rw [takeByte_two]; exact hcol), takeByte_two, encodeLoop, if_pos hlt,
    takeByte_three col hroom]

/-- The last line break does not count. -/
theorem withoutBreaks_encodeEnd_eq : withoutBreaks (encodeEnd max linebreaks e) = withoutBreaks
    (if e.bits ≠ 0 ∧ e.dst.length + 4 ≤ max then
      e.dst ++ [base64At (((e.byte <<< (24 - e.bits)) % 4294967296) >>> 18),
        base64At (((e.byte <<< (24 - e.bits)) % 4294967296) >>> 12),
        if e.bits = 16 then base64At (((e.byte <<< (24 - e.bits)) % 4294967296) >>> 6) else chr '=',
        chr '=']
    else e.dst) := by
  have hlast : ∀ s : CString, withoutBreaks
      (if linebreaks = true ∧ s.length < max then s ++ [chr '\n'] else s) = withoutBreaks s := by
    intro s
    split_ifs
    · rw [withoutBreaks_append]
      exact List.append_nil _
    · rfl
  exact hlast _

theorem withoutBreaks_encodeEnd_one (col : ℕ) (hroom : dst.length + 4 ≤ max) :
    withoutBreaks (encodeEnd max linebreaks ⟨dst, col, a.toNat, 8⟩) =
      withoutBreaks dst ++ quads [a] := by
  have ha := a.isLt
  have hshift : (a.toNat <<< (24 - 8)) % 4294967296 = a.toNat * 65536 := by
    rw [Nat.shiftLeft_eq]
    omega
  have hfirst : ((a.toNat * 65536) >>> 18) % 64 = a.toNat / 4 := by
    rw [Nat.shiftRight_eq_div_pow]
    omega
  have hsecond : ((a.toNat * 65536) >>> 12) % 64 = a.toNat % 4 * 16 := by
    rw [Nat.shiftRight_eq_div_pow]
    omega
  rw [withoutBreaks_encodeEnd_eq]
  dsimp only
  rw [if_pos ⟨by omega, hroom⟩, if_neg (by omega), withoutBreaks_append, hshift,
    base64At_mod (_ >>> 18), base64At_mod (_ >>> 12), hfirst, hsecond]
  exact congrArg _ (withoutBreaks_quads [a])

theorem withoutBreaks_encodeEnd_two (col : ℕ) (hroom : dst.length + 4 ≤ max) :
    withoutBreaks (encodeEnd max linebreaks ⟨dst, col, a.toNat * 256 + b.toNat, 16⟩) =
      withoutBreaks dst ++ quads [a, b] := by
  have ha := a.isLt
  have hb := b.isLt
  generalize hw : a.toNat * 256 + b.toNat = w
  have hshift : (w <<< (24 - 16)) % 4294967296 = w * 256 := by
    rw [Nat.shiftLeft_eq]
    omega
  have hfirst : ((w * 256) >>> 18) % 64 = a.toNat / 4 := by
    rw [Nat.shiftRight_eq_div_pow]
    omega
  have hsecond : ((w * 256) >>> 12) % 64 = a.toNat % 4 * 16 + b.toNat / 16 := by
    rw [Nat.shiftRight_eq_div_pow]
    omega
  have hthird : ((w * 256) >>> 6) % 64 = b.toNat % 16 * 4 := by
    rw [Nat.shiftRight_eq_div_pow]
    omega
  rw [withoutBreaks_encodeEnd_eq]
  dsimp only
  rw [if_pos ⟨by omega, hroom⟩, if_pos rfl, withoutBreaks_append, hshift,
    base64At_mod (_ >>> 18), base64At_mod (_ >>> 12), base64At_mod (_ >>> 6), hfirst, hsecond,
    hthird]
  exact congrArg _ (withoutBreaks_quads [a, b])

/-- **What is encoded with room for all**, from a point where no bits remain. -/
theorem withoutBreaks_encodeEnd (src : CString) : ∀ (dst : CString) (col : ℕ),
    (linebreaks = true → col < 64 ∧ col % 4 = 0) → dst.length + 4 * ((src.length + 2) / 3) +
      (if linebreaks then (col + 4 * (src.length / 3)) / 64 else 0) ≤ max →
        withoutBreaks (encodeEnd max linebreaks (encodeLoop max linebreaks src ⟨dst, col, 0, 0⟩)) =
          withoutBreaks dst ++ quads src := by
  induction src using quads.induct with
  | case1 =>
    intro dst col _ _
    rw [encodeLoop, withoutBreaks_encodeEnd_eq, quads, List.append_nil, if_neg fun h => h.1 rfl]
  | case2 a =>
    intro dst col hcol hroom
    have hone : [a].length = 1 := rfl
    rw [hone] at hroom
    rw [encodeLoop_cons (show dst.length < max by omega)
      (by rw [takeByte_one]; exact fun h => (hcol h).1), takeByte_one, encodeLoop,
      withoutBreaks_encodeEnd_one col (by omega)]
  | case3 a b =>
    intro dst col hcol hroom
    have htwo : [a, b].length = 2 := rfl
    rw [htwo] at hroom
    have hlt : dst.length < max := by omega
    rw [encodeLoop_cons hlt (by rw [takeByte_one]; exact fun h => (hcol h).1), takeByte_one,
      encodeLoop_cons hlt (by rw [takeByte_two]; exact fun h => (hcol h).1), takeByte_two,
      encodeLoop, withoutBreaks_encodeEnd_two col (by omega)]
  | case4 a b c src ih =>
    intro dst col hcol hroom
    have hlen : (a :: b :: c :: src).length = src.length + 3 := rfl
    have hbreaks : withoutBreaks (quad a b c) = quad a b c := by
      have h := withoutBreaks_quads [a, b, c]
      rwa [quads, quads, List.append_nil] at h
    have happ : (dst ++ quad a b c).length = dst.length + 4 := List.length_append
    rw [hlen] at hroom
    rw [encodeLoop_three (by omega) fun h => (hcol h).1, quads]
    by_cases hbreak : linebreaks = true ∧ col + 4 = 64
    · obtain ⟨hlb, hfull⟩ := hbreak
      rw [if_pos hlb] at hroom
      have hbroken : breakLine max linebreaks ⟨dst ++ quad a b c, col + 4, 0, 0⟩ =
          ⟨dst ++ quad a b c ++ [chr '\n'], 0, 0, 0⟩ :=
        if_pos ⟨hlb, show (dst ++ quad a b c).length < max by omega, hfull⟩
      have hnewline : withoutBreaks [chr '\n'] = [] := rfl
      have hnext := ih (dst ++ quad a b c ++ [chr '\n']) 0 (fun _ => ⟨by omega, rfl⟩) (by
        rw [if_pos hlb, List.length_append, happ, List.length_singleton]
        omega)
      rw [hbroken, hnext, withoutBreaks_append, withoutBreaks_append, hbreaks, hnewline,
        List.append_nil, List.append_assoc]
    · have hsame : breakLine max linebreaks ⟨dst ++ quad a b c, col + 4, 0, 0⟩ =
          ⟨dst ++ quad a b c, col + 4, 0, 0⟩ := if_neg fun h => hbreak ⟨h.1, h.2.2⟩
      have hnext := ih (dst ++ quad a b c) (col + 4) (fun hlb => by
          have hne : col + 4 ≠ 64 := fun h => hbreak ⟨hlb, h⟩
          have hlt := hcol hlb
          omega) (by
        rw [happ]
        split_ifs at hroom ⊢ <;> omega)
      rw [hsame, hnext, withoutBreaks_append, hbreaks, List.append_assoc]

end Base64

end Trismedia
