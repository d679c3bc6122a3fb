import Mathlib.Data.List.TakeWhile
import Trismedia.Uri.Model
/-!
# What the decoder makes of an encoded string

The encoder does not rewrite `%`, so a `%` of the string is an escape to the
decoder wherever a number seems to follow. `Safe` says that none does: the
decoder reads up to the first rewritten character, which begins with `%` and
ends every number.
-/


namespace Trismedia

namespace Uri

open CString

/-- What the encoder makes of a character. -/
def encodeChar (doreserved : Bool) (c : CChar) : CString :=
  if needsEscape doreserved c then escaped c else [c]

/-- What the encoder makes of a string. -/
def encoded (doreserved : Bool) (s : CString) : CString := s.flatMap (encodeChar doreserved)

/-- The characters before the first that is rewritten. -/
def plain (doreserved : Bool) (s : CString) : CString := s.takeWhile fun c => !needsEscape doreserved c

/-- The decoder takes a `%` before `r` for an escape. -/
def ReadsEscape (doreserved : Bool) (r : CString) : Prop :=
  2 ≤ r.length ∧ (sscanf2x (plain doreserved r)).isSome = true

/-- **No `%` of the string is taken for an escape.** -/
def Safe (doreserved : Bool) (s : CString) : Prop :=
  ∀ a r, s = a ++ chr '%' :: r → ¬ReadsEscape doreserved r

variable {doreserved : Bool} {s r t : CString} {c x y : CChar}

theorem encoded_cons : encoded doreserved (c :: s) = encodeChar doreserved c ++ encoded doreserved s :=
  List.flatMap_cons

theorem encoded_plain (h : needsEscape doreserved c = false) :
    encoded doreserved (c :: s) = c :: encoded doreserved s := by
  rw [encoded_cons, encodeChar, h]
  rfl

theorem encoded_escaped (h : needsEscape doreserved c = true) :
    encoded doreserved (c :: s) = chr '%' :: hexDigit (c.toNat / 16) :: hexDigit (c.toNat % 16) ::
      encoded doreserved s := by
  rw [encoded_cons, encodeChar, h]
  rfl

theorem needsEscape_percent : needsEscape doreserved (chr '%') = false := by
  cases doreserved <;> decide

/-! ## Numbers -/

theorem hexVal_hexDigit : ∀ n < 16, hexVal (hexDigit n) = some n := by decide

theorem hexDigit_ne : ∀ n < 16, hexDigit n ≠ chr '%' ∧ hexDigit n ≠ chr '+' ∧ hexDigit n ≠ chr '-' ∧
    hexDigit n ≠ chr 'x' ∧ hexDigit n ≠ chr 'X' ∧ isSpace (hexDigit n) = false ∧
    needsEscape doreserved (hexDigit n) = false := by
  cases doreserved <;> decide

/-- A number that is written with two digits is read. -/
theorem sscanf2x_digits {m n : ℕ} (hm : m < 16) (hn : n < 16) (t : CString) :
    sscanf2x (hexDigit m :: hexDigit n :: t) = some (16 * m + n) := by
  obtain ⟨-, hplus, hminus, -, -, hspace, -⟩ := @hexDigit_ne false m hm
  obtain ⟨-, -, -, hx, hX, -, -⟩ := @hexDigit_ne false n hn
  have hnot : ¬(hexDigit m = chr '0' ∧ (hexDigit n = chr 'x' ∨ hexDigit n = chr 'X')) := by
    rintro ⟨-, h | h⟩
    · exact hx h
    · exact hX h
  rw [sscanf2x, List.dropWhile_cons_of_neg (by rw [hspace]; exact Bool.noConfusion), scanNumber,
    if_neg hplus, if_neg hminus, hexVal_hexDigit m hm, Option.bind_some, List.head?_cons]
  dsimp only
  rw [if_neg hnot, hexVal_hexDigit n hn]

theorem hexVal_percent : hexVal (chr '%') = none := by decide

/-- A `%` ends a number, as the end of the string does. -/
theorem scanNumber_percent (p z : CString) :
    scanNumber (p ++ chr '%' :: z) = scanNumber p := by
  cases p with
  | nil =>
    show scanNumber (chr '%' :: z) = none
    rw [scanNumber, if_neg (by decide), if_neg (by decide), hexVal_percent, Option.bind_none]
  | cons c p =>
    cases p with
    | nil =>
      show scanNumber (c :: chr '%' :: z) = scanNumber [c]
      rw [scanNumber, scanNumber, List.head?_cons, List.head?_nil, Option.bind_some,
        Option.bind_none, hexVal_percent]
      have hx : ¬(c = chr '0' ∧ (chr '%' = chr 'x' ∨ chr '%' = chr 'X')) := by
        rintro ⟨-, h | h⟩
        · exact absurd h (by decide)
        · exact absurd h (by decide)
      simp only [if_neg hx, hexVal_percent]
    | cons d p => rfl

theorem sscanf2x_percent (p z : CString) : sscanf2x (p ++ chr '%' :: z) = sscanf2x p := by
  induction p with
  | nil =>
    show sscanf2x (chr '%' :: z) = none
    rw [sscanf2x, List.dropWhile_cons_of_neg (by decide)]
    exact scanNumber_percent [] z
  | cons c p ih =>
    by_cases hc : isSpace c = true
    · have hskip : ∀ t : CString, sscanf2x (c :: t) = sscanf2x t := by
        intro t
        rw [sscanf2x, List.dropWhile_cons_of_pos hc, sscanf2x]
      rw [List.cons_append, hskip, hskip, ih]
    · rw [sscanf2x, sscanf2x, List.cons_append, List.dropWhile_cons_of_neg hc,
        List.dropWhile_cons_of_neg hc]
      exact scanNumber_percent (c :: p) z

/-- What the encoder makes of a string: its plain beginning, and then nothing
or a `%`. -/
theorem encoded_split (doreserved : Bool) (s : CString) :
    encoded doreserved s = plain doreserved s ∨
      ∃ z, encoded doreserved s = plain doreserved s ++ chr '%' :: z := by
  induction s with
  | nil => exact Or.inl rfl
  | cons c s ih =>
    by_cases hc : needsEscape doreserved c = true
    · have hplain : plain doreserved (c :: s) = [] :=
        List.takeWhile_cons_of_neg (by rw [hc]; exact Bool.noConfusion)
      rw [hplain]
      exact Or.inr ⟨_, encoded_escaped hc⟩
    · have hc' : needsEscape doreserved c = false := Bool.eq_false_iff.2 hc
      have hplain : plain doreserved (c :: s) = c :: plain doreserved s := by
        rw [plain, List.takeWhile_cons_of_pos (by rw [hc']; rfl), plain]
      rw [encoded_plain hc', hplain]
      rcases ih with h | ⟨z, h⟩
      · exact Or.inl (by rw [h])
      · exact Or.inr ⟨z, by rw [h, List.cons_append]⟩

/-- **What is read of the encoded string** is read of its plain beginning. -/
theorem sscanf2x_encoded (doreserved : Bool) (s : CString) :
    sscanf2x (encoded doreserved s) = sscanf2x (plain doreserved s) := by
  rcases encoded_split doreserved s with h | ⟨z, h⟩
  · rw [h]
  · rw [h, sscanf2x_percent]

/-! ## One step of the decoder -/

theorem decode_cons_ne (h : c ≠ chr '%') (t : CString) :
    trisUriDecode (c :: t) = c :: trisUriDecode t := by
  match t with
  | [] => rfl
  | [_] => rfl
  | _ :: _ :: _ => rw [trisUriDecode, if_neg h]

/-- An escape of the encoder is decoded. -/
theorem decode_escaped (c : CChar) (t : CString) :
    trisUriDecode (chr '%' :: hexDigit (c.toNat / 16) :: hexDigit (c.toNat % 16) :: t) =
      c :: trisUriDecode t := by
  have hlt : c.toNat < 256 := c.isLt
  have hvalue : 16 * (c.toNat / 16) + c.toNat % 16 = c.toNat := by omega
  have hread : sscanf2x (hexDigit (c.toNat / 16) :: hexDigit (c.toNat % 16) :: t) = some c.toNat := by
    rw [sscanf2x_digits (by omega) (by omega), hvalue]
  rw [trisUriDecode, if_pos rfl, hread]
  show BitVec.ofNat 8 c.toNat :: _ = _
  rw [BitVec.ofNat_toNat, BitVec.setWidth_eq]

/-- The plain beginning of a string that has a number is not empty. -/
theorem plain_cons_of_some (h : (sscanf2x (plain doreserved r)).isSome = true) :
    ∃ x r', r = x :: r' ∧ needsEscape doreserved x = false := by
  cases r with
  | nil =>
    have hnil : plain doreserved [] = [] := rfl
    rw [hnil] at h
    exact absurd h (by decide)
  | cons x r' =>
    refine ⟨x, r', rfl, Bool.eq_false_iff.2 fun hx => ?_⟩
    rw [plain, List.takeWhile_cons_of_neg (by rw [hx]; exact Bool.noConfusion)] at h
    exact absurd h (by decide)

/-- **A `%` of the string is copied** where it does not read as an escape. -/
theorem decode_percent_safe (h : ¬ReadsEscape doreserved r) :
    trisUriDecode (chr '%' :: encoded doreserved r) =
      chr '%' :: trisUriDecode (encoded doreserved r) := by
  rcases he : encoded doreserved r with _ | ⟨a, _ | ⟨b, t⟩⟩
  · rfl
  · rfl
  · have hnone : sscanf2x (a :: b :: t) = none := by
      rw [← he, sscanf2x_encoded]
      refine Option.not_isSome_iff_eq_none.1 fun hsome => h ⟨?_, hsome⟩
      obtain ⟨x, r', rfl, hx⟩ := plain_cons_of_some hsome
      rw [encoded_plain hx] at he
      cases r' with
      | nil => exact absurd (List.tail_eq_of_cons_eq he) (by simp [encoded])
      | cons y r' =>
        rw [List.length_cons, List.length_cons]
        omega
    rw [trisUriDecode, if_pos rfl, hnone]

/-- Where it reads as one, the two characters after it go with it: both of
the string, or one and the `%` of a rewritten one. -/
theorem decode_percent (h : ReadsEscape doreserved r) :
    ∃ v x y r', r = x :: y :: r' ∧
      ((needsEscape doreserved y = false ∧
        trisUriDecode (chr '%' :: encoded doreserved r) =
          v :: trisUriDecode (encoded doreserved r')) ∨
      (needsEscape doreserved y = true ∧
        trisUriDecode (chr '%' :: encoded doreserved r) =
          v :: hexDigit (y.toNat / 16) :: hexDigit (y.toNat % 16) ::
            trisUriDecode (encoded doreserved r'))) := by
  obtain ⟨hlen, hsome⟩ := h
  obtain ⟨x, r₁, rfl, hx⟩ := plain_cons_of_some hsome
  rw [← sscanf2x_encoded, encoded_plain hx] at hsome
  rcases r₁ with _ | ⟨y, r'⟩
  · exact absurd hlen (by simp)
  · by_cases hy : needsEscape doreserved y = true
    · rw [encoded_escaped hy] at hsome
      obtain ⟨v, hv⟩ := Option.isSome_iff_exists.1 hsome
      refine ⟨BitVec.ofNat 8 v, x, y, r', rfl, Or.inr ⟨hy, ?_⟩⟩
      have hlt : y.toNat < 256 := y.isLt
      rw [encoded_plain hx, encoded_escaped hy, trisUriDecode, if_pos rfl, hv]
      dsimp only
      rw [decode_cons_ne (@hexDigit_ne doreserved _ (by omega)).1,
        decode_cons_ne (@hexDigit_ne doreserved _ (by omega)).1]
    · have hy' : needsEscape doreserved y = false := Bool.eq_false_iff.2 hy
      rw [encoded_plain hy'] at hsome
      obtain ⟨v, hv⟩ := Option.isSome_iff_exists.1 hsome
      refine ⟨BitVec.ofNat 8 v, x, y, r', rfl, Or.inl ⟨hy', ?_⟩⟩
      rw [encoded_plain hx, encoded_plain hy', trisUriDecode, if_pos rfl, hv]

/-! ## The round trip -/

theorem Safe.tail (h : Safe doreserved (c :: s)) : Safe doreserved s := by
  intro a r hs
  exact h (c :: a) r (by rw [hs, List.cons_append])

theorem safe_cons (hs : Safe doreserved s) (hc : c = chr '%' → ¬ReadsEscape doreserved s) :
    Safe doreserved (c :: s) := by
  intro a r heq
  cases a with
  | nil =>
    obtain ⟨rfl, rfl⟩ := List.cons.inj heq
    exact hc rfl
  | cons b a => exact hs a r (List.tail_eq_of_cons_eq heq)

theorem decode_cons_of_ne (hc : c ≠ chr '%') : trisUriDecode (encoded doreserved (c :: s)) =
    c :: trisUriDecode (encoded doreserved s) := by
  by_cases he : needsEscape doreserved c = true
  · rw [encoded_escaped he, decode_escaped]
  · rw [encoded_plain (Bool.eq_false_iff.2 he), decode_cons_ne hc]

/-- **A safe string comes back.** -/
theorem decode_encoded (h : Safe doreserved s) : trisUriDecode (encoded doreserved s) = s := by
  induction s with
  | nil => rfl
  | cons c s ih =>
    by_cases hc : c = chr '%'
    · subst hc
      rw [encoded_plain needsEscape_percent, decode_percent_safe (h [] s rfl), ih h.tail]
    · rw [decode_cons_of_ne hc, ih h.tail]

/-- The decoder gives no more characters than the string had. -/
theorem decode_length (n : ℕ) (s : CString) (hn : s.length ≤ n) :
    (trisUriDecode (encoded doreserved s)).length ≤ s.length := by
  induction n generalizing s with
  | zero =>
    obtain rfl := List.length_eq_zero_iff.1 (Nat.le_zero.1 hn)
    exact Nat.le_refl _
  | succ n ih =>
    cases s with
    | nil => exact Nat.le_refl _
    | cons c s =>
      rw [List.length_cons] at hn ⊢
      have htail := ih s (by omega)
      by_cases hc : c = chr '%'
      · subst hc
        rw [encoded_plain needsEscape_percent]
        by_cases hr : ReadsEscape doreserved s
        · obtain ⟨v, x, y, r', rfl, h⟩ := decode_percent hr
          rw [List.length_cons, List.length_cons] at hn ⊢
          have hrest := ih r' (by omega)
          rcases h with ⟨-, h⟩ | ⟨-, h⟩
          · rw [h, List.length_cons]
            omega
          · rw [h, List.length_cons, List.length_cons, List.length_cons]
            omega
        · rw [decode_percent_safe hr, List.length_cons]
          omega
      · rw [decode_cons_of_ne hc, List.length_cons]
        omega

/-- **A string that comes back is safe**: what is taken for an escape is
missing in the end, or a digit stands for a character that is rewritten. -/
theorem safe_of_decode (h : trisUriDecode (encoded doreserved s) = s) : Safe doreserved s := by
  induction s with
  | nil =>
    intro a r heq
    exact absurd heq (by simp)
  | cons c s ih =>
    by_cases hc : c = chr '%'
    · subst hc
      rw [encoded_plain needsEscape_percent] at h
      by_cases hr : ReadsEscape doreserved s
      · obtain ⟨v, x, y, r', rfl, hcase⟩ := decode_percent hr
        rcases hcase with ⟨-, hd⟩ | ⟨hy, hd⟩
        · rw [hd] at h
          have hlen := congrArg List.length (List.tail_eq_of_cons_eq h)
          have hle := @decode_length doreserved _ r' (Nat.le_refl _)
          rw [List.length_cons, List.length_cons] at hlen
          omega
        · rw [hd] at h
          have hdigit := List.head_eq_of_cons_eq (List.tail_eq_of_cons_eq
            (List.tail_eq_of_cons_eq h))
          have hlt : y.toNat < 256 := y.isLt
          have hplain := (@hexDigit_ne doreserved (y.toNat % 16) (by omega)).2.2.2.2.2.2
          rw [hdigit, hy] at hplain
          exact Bool.noConfusion hplain
      · rw [decode_percent_safe hr] at h
        exact safe_cons (ih (List.tail_eq_of_cons_eq h)) fun _ => hr
    · rw [decode_cons_of_ne hc] at h
      exact safe_cons (ih (List.tail_eq_of_cons_eq h)) fun hx => absurd hx hc

/-- **The round trip** is right exactly where the string is safe. -/
theorem decode_asString_iff (hs : (0 : CChar) ∉ s) :
    asString (trisUriDecode (encoded doreserved s)) = s ↔ Safe doreserved s := by
  constructor
  · intro h
    -- the string that is read is a beginning of what was written, and not shorter
    have hpre : asString (trisUriDecode (encoded doreserved s)) <+:
        trisUriDecode (encoded doreserved s) := List.takeWhile_prefix _
    rw [h] at hpre
    exact safe_of_decode (hpre.eq_of_length_le (decode_length _ s (Nat.le_refl _))).symm
  · intro h
    rw [decode_encoded h, asString, List.takeWhile_eq_self_iff]
    intro c hc
    exact decide_eq_true fun h0 => hs (h0 ▸ hc)

end Uri

/-!
## Where the encoder writes

The string is first copied as far as the buffer goes. From the first
character that is rewritten on, the loop writes the rest of the encoded
string with no look at the buffer, so what it leaves there is the encoded
string, wherever that ends.
-/

namespace Uri

open CString Memory

/-- The writes are all to the `buflen` bytes from `outbuf` on. -/
def Inside (outbuf buflen : ℕ) (ws : List Write) : Prop :=
  ∀ w ∈ ws, outbuf ≤ w.1 ∧ w.1 + w.2.length ≤ outbuf + buflen

/-- Some character is rewritten. -/
def AnyEscape (doreserved : Bool) (s : CString) : Prop := ∃ c ∈ s, needsEscape doreserved c = true

variable {doreserved : Bool} {s : CString} {c : CChar} {m : ℕ → CChar} {outbuf ptr o buflen : ℕ}

theorem encodeChar_length (doreserved : Bool) (c : CChar) :
    (encodeChar doreserved c).length = 1 + 2 * (if needsEscape doreserved c then 1 else 0) := by
  rw [encodeChar]
  by_cases h : needsEscape doreserved c = true
  · rw [if_pos h, if_pos h]
    rfl
  · rw [if_neg h, if_neg h]
    rfl

/-- Each character that is rewritten takes two places more. -/
theorem encoded_length (doreserved : Bool) (s : CString) :
    (encoded doreserved s).length = s.length + 2 * s.countP (needsEscape doreserved) := by
  induction s with
  | nil => rfl
  | cons c s ih =>
    rw [encoded_cons, List.length_append, ih, encodeChar_length, List.length_cons, List.countP_cons]
    omega

theorem inside_cons {w : Write} {ws : List Write} : Inside outbuf buflen (w :: ws) ↔
    (outbuf ≤ w.1 ∧ w.1 + w.2.length ≤ outbuf + buflen) ∧ Inside outbuf buflen ws :=
  List.forall_mem_cons

theorem inside_append {ws ws' : List Write} : Inside outbuf buflen (ws ++ ws') ↔
    Inside outbuf buflen ws ∧ Inside outbuf buflen ws' := List.forall_mem_append

/-! ## The copy -/

/-- **The copy stays in the buffer** exactly where it has a byte. -/
theorem copyWrites_inside (hdst : 0 < outbuf) (s : CString) (k : ℕ) (hk : k ≤ buflen) :
    Inside outbuf buflen (copyWrites s (outbuf + (buflen - k)) k) ↔ 0 < buflen := by
  induction s generalizing k with
  | nil =>
    rw [copyWrites, inside_cons]
    by_cases h0 : k = 0
    · subst h0
      simp only [if_pos, List.length_singleton]
      constructor
      · intro h
        omega
      · exact fun h => ⟨by omega, fun w hw => absurd hw List.not_mem_nil⟩
    · simp only [if_neg h0, List.length_singleton]
      exact ⟨fun _ => by omega, fun _ => ⟨by omega, fun w hw => absurd hw List.not_mem_nil⟩⟩
  | cons c s ih =>
    cases k with
    | zero =>
      rw [copyWrites, inside_cons]
      simp only [List.length_singleton]
      constructor
      · intro h
        omega
      · exact fun h => ⟨by omega, fun w hw => absurd hw List.not_mem_nil⟩
    | succ k =>
      have hnext : outbuf + (buflen - (k + 1)) + 1 = outbuf + (buflen - k) := by omega
      rw [copyWrites, inside_cons, hnext, ih k (by omega)]
      simp only [List.length_singleton]
      exact ⟨fun h => h.2, fun h => ⟨by omega, h⟩⟩

/-- A string that is copied whole stands in the buffer. -/
theorem copyWrites_load (hs : s.length < buflen) :
    load (applyWrites m (copyWrites s outbuf buflen)) outbuf (s.length + 1) = s ++ [0] ∧
      ∀ x < outbuf, applyWrites m (copyWrites s outbuf buflen) x = m x := by
  induction s generalizing m outbuf buflen with
  | nil =>
    have hne : buflen ≠ 0 := by simp at hs; omega
    rw [copyWrites, if_neg hne]
    refine ⟨load_store m outbuf [0], fun x hx => store_before hx⟩
  | cons c s ih =>
    rw [List.length_cons] at hs
    obtain ⟨k, rfl⟩ : ∃ k, buflen = k + 1 := ⟨buflen - 1, by omega⟩
    have hstep : applyWrites m (copyWrites (c :: s) outbuf (k + 1)) =
        applyWrites (store m outbuf [c]) (copyWrites s (outbuf + 1) k) := rfl
    obtain ⟨hload, hkept⟩ := @ih (store m outbuf [c]) (outbuf + 1) k (by omega)
    rw [hstep]
    constructor
    · have hhead : applyWrites (store m outbuf [c]) (copyWrites s (outbuf + 1) k) outbuf = c := by
        rw [hkept outbuf (Nat.lt_succ_self outbuf)]
        exact List.head_eq_of_cons_eq (load_store m outbuf [c])
      rw [List.length_cons, load, hhead, hload]
      rfl
    · intro x hx
      rw [hkept x (by omega)]
      exact store_before hx

/-! ## The loop -/

theorem applyWrites_before {ws : List Write} {q x : ℕ} (h : ∀ w ∈ ws, q ≤ w.1) (hx : x < q) :
    applyWrites m ws x = m x := by
  induction ws generalizing m with
  | nil => rfl
  | cons w ws ih =>
    have hstep : applyWrites m (w :: ws) = applyWrites (store m w.1 w.2) ws := rfl
    have hw : q ≤ w.1 := h w List.mem_cons_self
    rw [hstep, ih fun v hv => h v (List.mem_cons_of_mem w hv)]
    exact store_before (by omega)

/-- The bytes that are written for a character: a NUL comes with three of them. -/
def charWrite (doreserved : Bool) (c : CChar) : CString :=
  encodeChar doreserved c ++ if needsEscape doreserved c then [0] else []

theorem charWrite_length (doreserved : Bool) (c : CChar) :
    (encodeChar doreserved c).length ≤ (charWrite doreserved c).length ∧
      (charWrite doreserved c).length ≤ (encodeChar doreserved c).length + 1 := by
  rw [charWrite, List.length_append]
  split
  · exact ⟨by omega, Nat.le_refl _⟩
  · exact ⟨by omega, Nat.le_succ _⟩

theorem encodeLoop_cons_some (s : CString) (c : CChar) (ptr o : ℕ) :
    encodeLoop doreserved outbuf (c :: s) ptr (some o) = (o, charWrite doreserved c) ::
      encodeLoop doreserved outbuf s (ptr + 1) (some (o + (encodeChar doreserved c).length)) := by
  rw [encodeLoop, charWrite, encodeChar]
  by_cases h : needsEscape doreserved c = true
  · simp only [if_pos h]
    rfl
  · simp only [if_neg h]
    rfl

theorem encodeLoop_cons_none (s : CString) (c : CChar) (ptr : ℕ) :
    encodeLoop doreserved outbuf (c :: s) ptr none =
      if needsEscape doreserved c then
        encodeLoop doreserved outbuf (c :: s) ptr (some (outbuf + ptr))
      else encodeLoop doreserved outbuf s (ptr + 1) none := by
  by_cases h : needsEscape doreserved c = true
  · rw [if_pos h, encodeLoop, encodeLoop, if_pos h, if_pos h]
    rfl
  · rw [if_neg h, encodeLoop, if_neg h]

/-- **After the first rewritten character** the rest is written where `out`
is, and the NUL behind it is the last byte. -/
theorem encodeLoop_some (s : CString) (ptr o : ℕ) :
    (∀ w ∈ encodeLoop doreserved outbuf s ptr (some o),
      o ≤ w.1 ∧ w.1 + w.2.length ≤ o + (encoded doreserved s).length + 1) ∧
    (∃ w ∈ encodeLoop doreserved outbuf s ptr (some o),
      w.1 + w.2.length = o + (encoded doreserved s).length + 1) ∧
    ∀ m : ℕ → CChar, load (applyWrites m (encodeLoop doreserved outbuf s ptr (some o))) o
      ((encoded doreserved s).length + 1) = encoded doreserved s ++ [0] := by
  induction s generalizing ptr o with
  | nil =>
    refine ⟨fun w hw => ?_, ⟨(o, [0]), List.mem_cons_self, rfl⟩, fun m => load_store m o [0]⟩
    rw [List.mem_singleton.1 hw]
    exact ⟨Nat.le_refl o, Nat.le_refl _⟩
  | cons c s ih =>
    obtain ⟨hle, hle'⟩ := charWrite_length doreserved c
    have henc : (encoded doreserved (c :: s)).length =
        (encodeChar doreserved c).length + (encoded doreserved s).length := by
      rw [encoded_cons, List.length_append]
    obtain ⟨hall, ⟨w, hw, hlast⟩, hload⟩ := ih (ptr + 1) (o + (encodeChar doreserved c).length)
    rw [encodeLoop_cons_some]
    refine ⟨fun v hv => ?_, ⟨w, List.mem_cons_of_mem _ hw, by omega⟩, fun m => ?_⟩
    · rcases List.mem_cons.1 hv with rfl | hv
      · exact ⟨Nat.le_refl o, by dsimp only; omega⟩
      · have hv' := hall v hv
        omega
    · have hstep : ∀ ws : List Write, applyWrites m ((o, charWrite doreserved c) :: ws) =
          applyWrites (store m o (charWrite doreserved c)) ws := fun _ => rfl
      -- what comes after leaves the character as it is
      have hfirst : load (applyWrites (store m o (charWrite doreserved c))
          (encodeLoop doreserved outbuf s (ptr + 1)
            (some (o + (encodeChar doreserved c).length)))) o (encodeChar doreserved c).length =
          encodeChar doreserved c := by
        have hput : load (store m o (charWrite doreserved c)) o (encodeChar doreserved c).length =
            encodeChar doreserved c := load_store_prefix m o _ _
        refine (load_congr fun x _ hx => ?_).trans hput
        exact applyWrites_before (fun v hv => (hall v hv).1) hx
      rw [hstep, henc, Nat.add_assoc, load_add, hfirst, hload, encoded_cons, List.append_assoc]

/-- **Before it** the copy stands where the loop would write. -/
theorem encodeLoop_none (s : CString) (ptr : ℕ) (m : ℕ → CChar)
    (hm : load m (outbuf + ptr) (s.length + 1) = s ++ [0]) :
    (¬AnyEscape doreserved s → encodeLoop doreserved outbuf s ptr none = []) ∧
    (AnyEscape doreserved s →
      (∀ w ∈ encodeLoop doreserved outbuf s ptr none, outbuf + ptr ≤ w.1 ∧
        w.1 + w.2.length ≤ outbuf + ptr + (encoded doreserved s).length + 1) ∧
      ∃ w ∈ encodeLoop doreserved outbuf s ptr none,
        w.1 + w.2.length = outbuf + ptr + (encoded doreserved s).length + 1) ∧
    load (applyWrites m (encodeLoop doreserved outbuf s ptr none)) (outbuf + ptr)
      ((encoded doreserved s).length + 1) = encoded doreserved s ++ [0] := by
  induction s generalizing ptr with
  | nil =>
    refine ⟨fun _ => rfl, ?_, hm⟩
    rintro ⟨c, hc, -⟩
    exact absurd hc List.not_mem_nil
  | cons c s ih =>
    rw [encodeLoop_cons_none]
    by_cases hc : needsEscape doreserved c = true
    · rw [if_pos hc]
      obtain ⟨hall, hlast, hload⟩ :=
        @encodeLoop_some doreserved outbuf (c :: s) ptr (outbuf + ptr)
      refine ⟨fun h => absurd ⟨c, List.mem_cons_self, hc⟩ h, fun _ => ⟨hall, hlast⟩, hload m⟩
    · rw [if_neg hc]
      have hc' : needsEscape doreserved c = false := Bool.eq_false_iff.2 hc
      rw [List.length_cons, load, List.cons_append] at hm
      have hhead : m (outbuf + ptr) = c := List.head_eq_of_cons_eq hm
      obtain ⟨hnone, hsome, hload⟩ := ih (ptr + 1) (List.tail_eq_of_cons_eq hm)
      have hany : AnyEscape doreserved (c :: s) ↔ AnyEscape doreserved s := by
        constructor
        · rintro ⟨d, hd, hx⟩
          rcases List.mem_cons.1 hd with rfl | hd
          · exact absurd hx hc
          · exact ⟨d, hd, hx⟩
        · rintro ⟨d, hd, hx⟩
          exact ⟨d, List.mem_cons_of_mem c hd, hx⟩
      have hafter : ∀ w ∈ encodeLoop doreserved outbuf s (ptr + 1) none,
          outbuf + ptr + 1 ≤ w.1 := by
        intro w hw
        by_cases hs : AnyEscape doreserved s
        · exact ((hsome hs).1 w hw).1
        · rw [hnone hs] at hw
          exact absurd hw List.not_mem_nil
      rw [hany, encoded_plain hc', List.length_cons]
      refine ⟨hnone, fun hs => ?_, ?_⟩
      · obtain ⟨hall, w, hw, hlast⟩ := hsome hs
        refine ⟨fun v hv => ?_, w, hw, by omega⟩
        have hv' := hall v hv
        omega
      · rw [load, applyWrites_before hafter (Nat.lt_succ_self _), hhead]
        have hrest := hload
        rw [show outbuf + (ptr + 1) = outbuf + ptr + 1 by omega] at hrest
        rw [hrest]
        rfl

/-! ## The call -/

/-- **The encoder stays in the buffer** exactly where it has a byte, and room
for the encoded string if that is another one. -/
theorem trisUriEncode_inside (hdst : 0 < outbuf) (s : CString) :
    Inside outbuf buflen (trisUriEncode s outbuf buflen doreserved) ↔
      0 < buflen ∧ (AnyEscape doreserved s → (encoded doreserved s).length < buflen) := by
  have hcopy := copyWrites_inside hdst s buflen (Nat.le_refl buflen)
  rw [Nat.sub_self, Nat.add_zero] at hcopy
  rw [trisUriEncode, inside_append, hcopy]
  -- the loop writes the same whatever is in memory
  obtain ⟨hnone, hsome, -⟩ := @encodeLoop_none doreserved outbuf s 0
    (store (fun _ => 0) outbuf (s ++ [0])) (by
      have hload := load_store (fun _ => (0 : CChar)) outbuf (s ++ [0])
      rw [List.length_append, List.length_singleton] at hload
      exact hload)
  refine and_congr_right fun hpos => ⟨fun hin hs => ?_, fun hfit w hw => ?_⟩
  · obtain ⟨-, w, hw, hlast⟩ := hsome hs
    have hw' := (hin w hw).2
    omega
  · by_cases hs : AnyEscape doreserved s
    · have hw' := (hsome hs).1 w hw
      have hlt := hfit hs
      omega
    · rw [hnone hs] at hw
      exact absurd hw List.not_mem_nil

theorem encoded_nonzero (hs : (0 : CChar) ∉ s) : (0 : CChar) ∉ encoded doreserved s := by
  intro hmem
  obtain ⟨c, hc, hzero⟩ := List.mem_flatMap.1 hmem
  rw [encodeChar] at hzero
  by_cases he : needsEscape doreserved c = true
  · rw [if_pos he] at hzero
    have hlt : c.toNat < 256 := c.isLt
    have hdigit : ∀ n < 16, hexDigit n ≠ 0 := by decide
    rcases List.mem_cons.1 hzero with h | hzero
    · exact absurd h (by decide)
    · rcases List.mem_cons.1 hzero with h | hzero
      · exact hdigit _ (by omega) h.symm
      · exact hdigit _ (by omega) (List.mem_singleton.1 hzero).symm
  · rw [if_neg he] at hzero
    exact hs (List.mem_singleton.1 hzero ▸ hc)

/-- **What the encoder leaves in a buffer** that is large enough. -/
theorem trisUriEncode_strAt (hs : (0 : CChar) ∉ s) (m : ℕ → CChar) (hlen : s.length < buflen) :
    StrAt (applyWrites m (trisUriEncode s outbuf buflen doreserved)) outbuf
      (encoded doreserved s) := by
  have hstep : applyWrites m (trisUriEncode s outbuf buflen doreserved) =
      applyWrites (applyWrites m (copyWrites s outbuf buflen))
        (encodeLoop doreserved outbuf s 0 none) := List.foldl_append
  obtain ⟨-, -, hload⟩ := @encodeLoop_none doreserved outbuf s 0 _ (copyWrites_load hlen).1
  rw [hstep]
  exact ⟨hload, encoded_nonzero hs⟩

/-- **What the two functions are to do** with a string and a buffer: with
three times as many bytes as characters, and one, the decoder gives back the
string; and the encoder writes to the buffer only. -/
def UriRight (s : CString) (doreserved : Bool) (m : ℕ → CChar) (outbuf buflen : ℕ) : Prop :=
  (3 * s.length + 1 ≤ buflen → ∃ e,
    StrAt (applyWrites m (trisUriEncode s outbuf buflen doreserved)) outbuf e ∧
      asString (trisUriDecode e) = s) ∧
  Inside outbuf buflen (trisUriEncode s outbuf buflen doreserved)

end Uri

end Trismedia
