import Mathlib.Data.List.Lex
import Mathlib.Data.Prod.Lex
import Trismedia.Pbx.Dialplan
/-!
# The order of extensions

`ext_cmp` of `main/pbx.c`, by which the extensions of a context are kept
in order: a name that is no pattern comes before every pattern, and of two
patterns the more specific one comes first, character by character.
`ext_cmp1` gives each character of a pattern its score and the set of
characters it stands for. It writes at `bitwise[c / 8]` for an ordinary
character, and `char` is signed, so a byte from 128 on is a write before
the array; there, and where a range that ends at 255 never ends, the
result is `none`.

The result zero does not mean the names are equal: `_X` and `_x` compare
equal, and an empty set compares equal to the end of the string. What is
negative is nevertheless a strict order.
-/


namespace Trismedia

namespace Pbx

open CString

/-- What `memcmp` and `strcmp` return, as far as its sign goes: the bytes
are compared as `unsigned char`. -/
def bytesCmp (a b : List ℕ) : ℤ := if a < b then -1 else if b < a then 1 else 0

/-- `strcmp` -/
def strcmp (a b : CString) : ℤ := bytesCmp (a.map BitVec.toNat) (b.map BitVec.toNat)

/-- `unsigned char bitwise[32]` -/
abbrev Bitwise := List ℕ

/-- `{ 0, }` -/
def Bitwise.zero : Bitwise := List.replicate 32 0

/-- One character of a range: it is counted where its bit was not set. -/
def markChar (st : Bitwise × ℕ) (c : ℕ) : Bitwise × ℕ :=
  let mask := 1 <<< (c % 8)
  if st.1.getD (c / 8) 0 &&& mask = 0 then
    (st.1.modify (c / 8) (· ||| mask), st.2 + 0x100)
  else st

/-- `for (; c1 <= c2; c1++)`, which never ends where `c2` is 255. -/
def markRange (st : Bitwise × ℕ) (c1 c2 : ℕ) : Option (Bitwise × ℕ) :=
  if c2 = 255 then none
  else some ((List.range' c1 (c2 + 1 - c1)).foldl markChar st)

/-- The loop over what stands between the brackets, with the smallest
first character so far. -/
def markSet (st : Bitwise × ℕ) (cmin : ℕ) : CString → Option (Bitwise × ℕ × ℕ)
  | c1 :: dash :: c2 :: rest =>
    if dash = chr '-' then do
      let st ← markRange st c1.toNat c2.toNat
      markSet st (min cmin c1.toNat) rest
    else do
      let st ← markRange st c1.toNat c1.toNat
      markSet st (min cmin c1.toNat) (dash :: c2 :: rest)
  | c1 :: rest => do
    let st ← markRange st c1.toNat c1.toNat
    markSet st (min cmin c1.toNat) rest
  | [] => some (st.1, st.2, cmin)

/-- A score and the set it is of. -/
abbrev Code := ℕ × Bitwise

/-- **`ext_cmp1`.** The code of the first character or set, and what is
left of the string: `none` where `*p` is set to `NULL`. -/
def extCmp1 : CString → Option (Code × Option CString)
  | [] => some ((0x30000, Bitwise.zero), none)
  | c :: p =>
    if toupper c = chr 'N' then
      some ((0x0800 ||| 50, (Bitwise.zero.set 6 0xfc).set 7 0x03), some p)
    else if toupper c = chr 'X' then
      some ((0x0A00 ||| 48, (Bitwise.zero.set 6 0xff).set 7 0x03), some p)
    else if toupper c = chr 'Z' then
      some ((0x0900 ||| 49, (Bitwise.zero.set 6 0xfe).set 7 0x03), some p)
    else if c = chr '.' then some ((0x10000, Bitwise.zero), some p)
    else if c = chr '!' then some ((0x20000, Bitwise.zero), some p)
    else if c = chr '[' then
      match strchr (chr ']') p with
      | none => some ((0x40000, Bitwise.zero), some p)
      | some (set, rest) => do
        let (bitwise, count, cmin) ← markSet (Bitwise.zero, 0) 0xff set
        some ((if count = 0 then 0x30000 else count ||| cmin, bitwise), some rest)
    else if 128 ≤ c.toNat then none
    else some ((0x0100 ||| c.toNat, Bitwise.zero.set (c.toNat / 8) (1 <<< (c.toNat % 8))), some p)

/-- The scores are compared, and the sets where these are equal. -/
def codeCmp (a b : Code) : ℤ :=
  let ret := (a.1 : ℤ) - b.1
  if ret = 0 then bytesCmp a.2 b.2 else ret

theorem extCmp1_length {a rest : CString} {c : Code} (h : extCmp1 a = some (c, some rest)) :
    rest.length < a.length := by
  cases a with
  | nil => simp [extCmp1] at h
  | cons x p =>
    have hp : p.length < (x :: p).length := Nat.lt_succ_self _
    rw [extCmp1] at h
    split at h
    · simp only [Option.some.injEq, Prod.mk.injEq] at h; exact h.2 ▸ hp
    split at h
    · simp only [Option.some.injEq, Prod.mk.injEq] at h; exact h.2 ▸ hp
    split at h
    · simp only [Option.some.injEq, Prod.mk.injEq] at h; exact h.2 ▸ hp
    split at h
    · simp only [Option.some.injEq, Prod.mk.injEq] at h; exact h.2 ▸ hp
    split at h
    · simp only [Option.some.injEq, Prod.mk.injEq] at h; exact h.2 ▸ hp
    split at h
    · split at h
      · simp only [Option.some.injEq, Prod.mk.injEq] at h; exact h.2 ▸ hp
      · rename_i set r hr
        simp only [Option.bind_eq_bind, Option.bind_eq_some_iff, Option.some.injEq,
          Prod.mk.injEq] at h
        obtain ⟨_, _, _, hrest⟩ := h
        have := strchr_length hr
        exact hrest ▸ this.trans hp
    split at h
    · cases h
    · simp only [Option.some.injEq, Prod.mk.injEq] at h; exact h.2 ▸ hp

/-- The loop of `ext_cmp`, over two patterns after their `_`. -/
def patternCmp (a b : CString) : Option ℤ :=
  match _h : extCmp1 a, extCmp1 b with
  | some (ca, a'), some (cb, b') =>
    if codeCmp ca cb = 0 then
      match a', b' with
      | some a', some b' => patternCmp a' b'
      | _, _ => some 0
    else some (if 0 < codeCmp ca cb then 1 else -1)
  | _, _ => none
termination_by a.length
decreasing_by exact extCmp1_length _h

/-- **`ext_cmp`** -/
def extCmp (a b : CString) : Option ℤ :=
  if a.head? ≠ some (chr '_') then
    some (if b.head? = some (chr '_') then -1 else strcmp a b)
  else if b.head? ≠ some (chr '_') then some 1
  else patternCmp a.tail b.tail

/-! ## Its order

What is compared first decides, so the negative results compose. -/

variable {a b c : CString} {r r' : ℤ}

theorem bytesCmp_neg {a b : List ℕ} : bytesCmp a b < 0 ↔ a < b := by
  unfold bytesCmp
  by_cases h : a < b
  · simp [h]
  · by_cases h' : b < a
    · simp [h, h']
    · simp [h, h']

theorem bytesCmp_pos {a b : List ℕ} : 0 < bytesCmp a b ↔ b < a := by
  unfold bytesCmp
  by_cases h : a < b
  · simp [h, not_lt_of_gt h]
  · by_cases h' : b < a
    · simp [h, h']
    · simp [h, h']

theorem bytesCmp_zero {a b : List ℕ} : bytesCmp a b = 0 ↔ a = b := by
  unfold bytesCmp
  constructor
  · intro h
    by_cases hab : a < b
    · simp [hab] at h
    · by_cases hba : b < a
      · simp [hab, hba] at h
      · exact eq_of_le_of_not_lt (not_lt.1 hba) hab
  · rintro rfl
    simp

theorem strcmp_neg : strcmp a b < 0 ↔ a.map BitVec.toNat < b.map BitVec.toNat := bytesCmp_neg

theorem strcmp_zero : strcmp a b = 0 ↔ a = b := by
  unfold strcmp
  rw [bytesCmp_zero]
  exact (List.map_injective_iff.2 fun x y h => BitVec.eq_of_toNat_eq h).eq_iff

/-- The code comes before the other. -/
def codeLt (a b : Code) : Prop := a.1 < b.1 ∨ a.1 = b.1 ∧ a.2 < b.2

theorem codeCmp_neg {a b : Code} : codeCmp a b < 0 ↔ codeLt a b := by
  unfold codeCmp codeLt
  by_cases h : (a.1 : ℤ) - b.1 = 0
  · rw [if_pos h, bytesCmp_neg]
    have hab : a.1 = b.1 := by omega
    simp [hab]
  · rw [if_neg h]
    omega

theorem codeCmp_pos {a b : Code} : 0 < codeCmp a b ↔ codeLt b a := by
  unfold codeCmp codeLt
  by_cases h : (a.1 : ℤ) - b.1 = 0
  · rw [if_pos h, bytesCmp_pos]
    have hab : a.1 = b.1 := by omega
    simp [hab]
  · rw [if_neg h]
    omega

theorem codeCmp_zero {a b : Code} : codeCmp a b = 0 ↔ a = b := by
  unfold codeCmp
  by_cases h : (a.1 : ℤ) - b.1 = 0
  · rw [if_pos h, bytesCmp_zero]
    have hab : a.1 = b.1 := by omega
    simp [Prod.ext_iff, hab]
  · rw [if_neg h]
    constructor
    · intro h0
      exact absurd h0 h
    · rintro rfl
      omega

theorem codeLt_trans {a b c : Code} (h : codeLt a b) (h' : codeLt b c) : codeLt a c := by
  rcases h with h | ⟨h1, h2⟩ <;> rcases h' with h' | ⟨h1', h2'⟩
  · exact .inl (h.trans h')
  · exact .inl (h1' ▸ h)
  · exact .inl (h1 ▸ h')
  · exact .inr ⟨h1.trans h1', h2.trans h2'⟩

/-- One round of the loop. -/
theorem patternCmp_step {ca cb : Code} {a' b' : Option CString} (ha : extCmp1 a = some (ca, a'))
    (hb : extCmp1 b = some (cb, b')) : patternCmp a b =
      if codeCmp ca cb = 0 then
        match a', b' with
        | some a', some b' => patternCmp a' b'
        | _, _ => some 0
      else some (if 0 < codeCmp ca cb then 1 else -1) := by
  rw [patternCmp]
  split
  · rename_i da x db y hx hy
    rw [ha, Option.some.injEq, Prod.mk.injEq] at hx
    rw [hb, Option.some.injEq, Prod.mk.injEq] at hy
    obtain ⟨rfl, rfl⟩ := hx
    obtain ⟨rfl, rfl⟩ := hy
    cases a' <;> cases b' <;> rfl
  · rename_i hno
    exact absurd hb (hno _ _ _ _ ha)

/-- What a round can do. -/
theorem patternCmp_some (h : patternCmp a b = some r) :
    ∃ ca a' cb b', extCmp1 a = some (ca, a') ∧ extCmp1 b = some (cb, b') ∧
      (codeLt ca cb ∧ r = -1 ∨ codeLt cb ca ∧ r = 1 ∨
        ca = cb ∧ (a' = none ∨ b' = none) ∧ r = 0 ∨
        ca = cb ∧ ∃ x y, a' = some x ∧ b' = some y ∧ patternCmp x y = some r) := by
  rcases ha : extCmp1 a with _ | ⟨ca, a'⟩
  · rw [patternCmp] at h
    simp [ha] at h
  rcases hb : extCmp1 b with _ | ⟨cb, b'⟩
  · rw [patternCmp] at h
    simp [hb] at h
  refine ⟨ca, a', cb, b', rfl, rfl, ?_⟩
  rw [patternCmp_step ha hb] at h
  by_cases h0 : codeCmp ca cb = 0
  · rw [if_pos h0] at h
    have hab := codeCmp_zero.1 h0
    cases a' with
    | none => exact .inr (.inr (.inl ⟨hab, .inl rfl, by simpa using h.symm⟩))
    | some x =>
      cases b' with
      | none => exact .inr (.inr (.inl ⟨hab, .inr rfl, by simpa using h.symm⟩))
      | some y => exact .inr (.inr (.inr ⟨hab, x, y, rfl, rfl, h⟩))
  · rw [if_neg h0, Option.some.injEq] at h
    by_cases hpos : 0 < codeCmp ca cb
    · rw [if_pos hpos] at h
      exact .inr (.inl ⟨codeCmp_pos.1 hpos, h.symm⟩)
    · rw [if_neg hpos] at h
      have hneg : codeCmp ca cb < 0 := by omega
      exact .inl ⟨codeCmp_neg.1 hneg, h.symm⟩

theorem patternCmp_of_lt {ca cb : Code} {a' b' : Option CString} (ha : extCmp1 a = some (ca, a'))
    (hb : extCmp1 b = some (cb, b')) (h : codeLt ca cb) : patternCmp a b = some (-1) := by
  have hneg := codeCmp_neg.2 h
  rw [patternCmp_step ha hb, if_neg (by omega), if_neg (by omega)]

theorem patternCmp_of_gt {ca cb : Code} {a' b' : Option CString} (ha : extCmp1 a = some (ca, a'))
    (hb : extCmp1 b = some (cb, b')) (h : codeLt cb ca) : patternCmp a b = some 1 := by
  have hpos := codeCmp_pos.2 h
  rw [patternCmp_step ha hb, if_neg (by omega), if_pos hpos]

theorem patternCmp_of_end {ca : Code} {a' b' : Option CString} (ha : extCmp1 a = some (ca, a'))
    (hb : extCmp1 b = some (ca, b')) (h : a' = none ∨ b' = none) : patternCmp a b = some 0 := by
  rw [patternCmp_step ha hb, if_pos (codeCmp_zero.2 rfl)]
  rcases h with rfl | rfl
  · rfl
  · cases a' <;> rfl

theorem patternCmp_of_eq {ca : Code} {x y : CString} (ha : extCmp1 a = some (ca, some x))
    (hb : extCmp1 b = some (ca, some y)) : patternCmp a b = patternCmp x y := by
  rw [patternCmp_step ha hb, if_pos (codeCmp_zero.2 rfl)]

theorem patternCmp_swap (h : patternCmp a b = some r) : patternCmp b a = some (-r) := by
  induction hn : a.length using Nat.strong_induction_on generalizing a b with
  | _ n ih =>
    obtain ⟨ca, a', cb, b', ha, hb, hr⟩ := patternCmp_some h
    rcases hr with ⟨hlt, rfl⟩ | ⟨hgt, rfl⟩ | ⟨rfl, hend, rfl⟩ | ⟨rfl, x, y, rfl, rfl, hxy⟩
    · exact patternCmp_of_gt hb ha hlt
    · exact patternCmp_of_lt hb ha hgt
    · exact patternCmp_of_end hb ha hend.symm
    · rw [patternCmp_of_eq hb ha]
      exact ih x.length (hn ▸ extCmp1_length ha) hxy rfl

/-- Where two patterns part decides against a third one too. -/
theorem patternCmp_trans (h : patternCmp a b = some r) (hr : r < 0)
    (h' : patternCmp b c = some r') (hr' : r' < 0) : patternCmp a c = some (-1) := by
  induction hn : a.length using Nat.strong_induction_on generalizing a b c with
  | _ n ih =>
    obtain ⟨ca, a', cb, b', ha, hb, hab⟩ := patternCmp_some h
    obtain ⟨cb', b'', cc, c', hb', hc, hbc⟩ := patternCmp_some h'
    obtain ⟨rfl, rfl⟩ : cb = cb' ∧ b' = b'' := by
      rw [hb] at hb'
      simpa using hb'
    rcases hab with ⟨hab, -⟩ | ⟨-, rfl⟩ | ⟨-, -, rfl⟩ | ⟨rfl, x, y, rfl, rfl, hxy⟩
    · rcases hbc with ⟨hbc, -⟩ | ⟨-, rfl⟩ | ⟨-, -, rfl⟩ | ⟨rfl, -⟩
      · exact patternCmp_of_lt ha hc (codeLt_trans hab hbc)
      · omega
      · omega
      · exact patternCmp_of_lt ha hc hab
    · omega
    · omega
    · rcases hbc with ⟨hbc, -⟩ | ⟨-, rfl⟩ | ⟨-, -, rfl⟩ | ⟨rfl, y', z, hy, rfl, hyz⟩
      · exact patternCmp_of_lt ha hc hbc
      · omega
      · omega
      · obtain rfl : y = y' := by simpa using hy
        rw [patternCmp_of_eq ha hc]
        exact ih x.length (hn ▸ extCmp1_length ha) hxy hyz rfl

/-- **The negative results are a strict order.** -/
theorem extCmp_trans (h : extCmp a b = some r) (hr : r < 0) (h' : extCmp b c = some r')
    (hr' : r' < 0) : ∃ r'', extCmp a c = some r'' ∧ r'' < 0 := by
  unfold extCmp at h h' ⊢
  by_cases ha : a.head? = some (chr '_') <;> by_cases hb : b.head? = some (chr '_') <;>
    by_cases hc : c.head? = some (chr '_') <;>
    simp only [ha, hb, hc, ne_eq, not_true_eq_false, not_false_eq_true, if_true, if_false,
      Option.some.injEq] at h h' ⊢
  · exact ⟨-1, patternCmp_trans h hr h' hr', by omega⟩
  · omega
  · omega
  · omega
  · exact ⟨-1, rfl, by omega⟩
  · omega
  · exact ⟨-1, rfl, by omega⟩
  · subst h h'
    exact ⟨_, rfl, strcmp_neg.2 ((strcmp_neg.1 hr).trans (strcmp_neg.1 hr'))⟩

end Pbx

end Trismedia
