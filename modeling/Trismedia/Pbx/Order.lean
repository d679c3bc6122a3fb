import Trismedia.Pbx.ExtCmp
import Trismedia.Pbx.Modes
/-!
# Patterns that compare equal

The code that `ext_cmp1` gives to a token of a pattern has a bit for each
character that the token accepts, so patterns that compare equal match the
same dialed strings, and equal patterns compare alike with every other. Both
hold of patterns whose sets are not empty: an empty set has the code of the end
of the string, but does not end the comparison of two strings that both have
one.
-/


namespace Trismedia

namespace Pbx

open CString

variable {p rest : CString} {bw : Bitwise} {n c : ℕ}

/-! ## The bits of a set -/

/-- The bit of a character. -/
def Bitwise.bitAt (bw : Bitwise) (n : ℕ) : Bool := (bw.getD (n / 8) 0).testBit (n % 8)

theorem testBit_of_and {x k : ℕ} (h : x &&& 1 <<< k ≠ 0) : x.testBit k = true := by
  by_contra hno
  refine h (Nat.eq_of_testBit_eq fun i => ?_)
  rw [Nat.testBit_and, Nat.one_shiftLeft, Nat.testBit_two_pow, Nat.zero_testBit]
  by_cases hk : k = i
  · subst hk
    simpa using hno
  · simp [hk]

theorem bitAt_modify (hlen : bw.length = 32) (hc : c < 256) :
    Bitwise.bitAt (bw.modify (c / 8) (· ||| 1 <<< (c % 8))) n =
      (bw.bitAt n || decide (n = c)) := by
  have hin : c / 8 < bw.length := by omega
  unfold Bitwise.bitAt
  by_cases hq : n / 8 = c / 8
  · have hget : (bw.modify (c / 8) (· ||| 1 <<< (c % 8))).getD (n / 8) 0 =
        bw.getD (n / 8) 0 ||| 1 <<< (c % 8) := by
      rw [hq]
      simp [List.getD_eq_getElem?_getD, hin]
    rw [hget, Nat.testBit_or, Nat.one_shiftLeft, Nat.testBit_two_pow]
    have heq : (c % 8 = n % 8) ↔ n = c := by omega
    simp [heq]
  · have hget : (bw.modify (c / 8) (· ||| 1 <<< (c % 8))).getD (n / 8) 0 = bw.getD (n / 8) 0 := by
      simp [List.getD_eq_getElem?_getD, Ne.symm hq]
    rw [hget]
    have hne : n ≠ c := by
      rintro rfl
      exact hq rfl
    simp [hne]

theorem markChar_spec {st : Bitwise × ℕ} (hlen : st.1.length = 32) (hc : c < 256) :
    (markChar st c).1.length = 32 ∧
      ∀ n, (markChar st c).1.bitAt n = (st.1.bitAt n || decide (n = c)) := by
  unfold markChar
  simp only
  split
  · exact ⟨by simp [hlen], fun n => bitAt_modify hlen hc⟩
  · rename_i hset
    refine ⟨hlen, fun n => ?_⟩
    by_cases hn : n = c
    · subst hn
      have hbit : st.1.bitAt n = true := testBit_of_and hset
      simp [hbit]
    · simp [hn]

theorem foldl_markChar_spec {l : List ℕ} {st : Bitwise × ℕ} (hlen : st.1.length = 32)
    (hl : ∀ c ∈ l, c < 256) : (l.foldl markChar st).1.length = 32 ∧
      ∀ n, (l.foldl markChar st).1.bitAt n = (st.1.bitAt n || decide (n ∈ l)) := by
  induction l generalizing st with
  | nil => exact ⟨hlen, by simp⟩
  | cons c l ih =>
    obtain ⟨h1, h2⟩ := markChar_spec hlen (hl c List.mem_cons_self)
    obtain ⟨h3, h4⟩ := ih h1 fun d hd => hl d (List.mem_cons_of_mem _ hd)
    refine ⟨h3, fun n => ?_⟩
    rw [List.foldl_cons, h4, h2, Bool.or_assoc]
    congr 1
    by_cases hn : n = c <;> simp [hn]

/-- A range sets the bits from its first to its last character. -/
theorem markRange_spec {st : Bitwise × ℕ} {c2 : ℕ} (hlen : st.1.length = 32) (c1 : ℕ)
    (hc : c2 < 255) :
    ∃ st', markRange st c1 c2 = some st' ∧ st'.1.length = 32 ∧
      ∀ n, st'.1.bitAt n = (st.1.bitAt n || decide (c1 ≤ n ∧ n ≤ c2)) := by
  obtain ⟨h1, h2⟩ := foldl_markChar_spec (l := List.range' c1 (c2 + 1 - c1)) hlen (by
    intro c hmem
    rw [List.mem_range'_1] at hmem
    omega)
  refine ⟨_, by rw [markRange, if_neg (by omega)], h1, fun n => ?_⟩
  rw [h2]
  congr 1
  rw [decide_eq_decide, List.mem_range'_1]
  omega

/-- The bytes of a string are `1` to `127`. -/
def Ascii (s : CString) : Prop := ∀ c ∈ s, 0 < c.toNat ∧ c.toNat < 128

instance {s : CString} : Decidable (Ascii s) :=
  inferInstanceAs (Decidable (∀ c ∈ s, 0 < c.toNat ∧ c.toNat < 128))

theorem Ascii.of_subset {s s' : CString} (h : Ascii s) (hsub : s' ⊆ s) : Ascii s' :=
  fun c hc => h c (hsub hc)

theorem toInt_of_lt {c : CChar} (h : c.toNat < 128) : c.toInt = c.toNat := by
  rw [BitVec.toInt_eq_toNat_cond, if_pos (by omega)]

/-- A signed range of such bytes is the range of their numbers. -/
theorem range_iff {a b d : CChar} (ha : a.toNat < 128) (hb : b.toNat < 128) :
    (a.toInt ≤ d.toInt ∧ d.toInt ≤ b.toInt) ↔ (a.toNat ≤ d.toNat ∧ d.toNat ≤ b.toNat) := by
  rw [toInt_of_lt ha, toInt_of_lt hb, BitVec.toInt_eq_toNat_cond]
  have hd := d.isLt
  split <;> omega

theorem single_iff {a d : CChar} : (a.toNat ≤ d.toNat ∧ d.toNat ≤ a.toNat) ↔ d = a := by
  rw [← BitVec.toNat_inj]
  omega

/-- **The loop over a set** sets the bits of the characters in it. -/
theorem markSet_spec {st : Bitwise × ℕ} {cmin : ℕ} {set : CString} (hlen : st.1.length = 32)
    (hset : Ascii set) : ∃ bitwise count cmin', markSet st cmin set = some (bitwise, count, cmin') ∧
      bitwise.length = 32 ∧
        ∀ d : CChar, bitwise.bitAt d.toNat = (st.1.bitAt d.toNat || inSet d set) := by
  induction hn : set.length using Nat.strongRecOn generalizing st cmin set with
  | _ n ih =>
    subst hn
    have single : ∀ a rest, Ascii (a :: rest) →
        (∀ st', markRange st a.toNat a.toNat = some st' →
          markSet st cmin set = markSet st' (min cmin a.toNat) rest) →
        (∀ d, inSet d set = (decide (d = a) || inSet d rest)) → rest.length < set.length →
        ∃ bitwise count cmin', markSet st cmin set = some (bitwise, count, cmin') ∧
          bitwise.length = 32 ∧
            ∀ d : CChar, bitwise.bitAt d.toNat = (st.1.bitAt d.toNat || inSet d set) := by
      intro a rest hasc heq hin hlt
      obtain ⟨-, ha⟩ := hasc a List.mem_cons_self
      obtain ⟨st', hmark, hlen', hbit⟩ :=
        markRange_spec hlen a.toNat (by omega : a.toNat < 255)
      obtain ⟨bitwise, count, cmin', hrun, hlen'', hbits⟩ :=
        ih rest.length hlt hlen' (hasc.of_subset (List.subset_cons_self _ _)) rfl
      refine ⟨bitwise, count, cmin', by rw [heq st' hmark]; exact hrun, hlen'', fun d => ?_⟩
      rw [hbits, hbit, hin, Bool.or_assoc]
      simp only [single_iff]
    match set, hset with
    | [], _ => exact ⟨st.1, st.2, cmin, by rw [markSet], hlen, fun d => by simp [inSet]⟩
    | [a], hset =>
      refine single a [] hset (fun st' hmark => ?_) (fun d => ?_) (by simp)
      · rw [markSet]
        · simp [hmark]
        · simp
      · simp [inSet]
    | [a, b], hset =>
      refine single a [b] hset (fun st' hmark => ?_) (fun d => ?_) (by simp)
      · rw [markSet]
        · simp [hmark]
        · simp
      · simp [inSet]
    | a :: dash :: b :: rest, hset =>
      by_cases hdash : dash = chr '-'
      · obtain ⟨-, ha⟩ := hset a (by simp)
        obtain ⟨-, hb⟩ := hset b (by simp)
        obtain ⟨st', hmark, hlen', hbit⟩ :=
          markRange_spec hlen a.toNat (by omega : b.toNat < 255)
        obtain ⟨bitwise, count, cmin', hrun, hlen'', hbits⟩ :=
          ih rest.length (by simp only [List.length_cons]; omega) hlen'
            (hset.of_subset fun c hc => by simp [hc]) rfl
        refine ⟨bitwise, count, cmin', ?_, hlen'', fun d => ?_⟩
        · rw [markSet, if_pos hdash, hmark]
          exact hrun
        · rw [hbits, hbit, inSet, if_pos hdash, Bool.or_assoc]
          simp only [range_iff ha hb]
      · refine single a (dash :: b :: rest) hset (fun st' hmark => ?_) (fun d => ?_) (by simp)
        · rw [markSet, if_neg hdash, hmark]
          rfl
        · rw [inSet, if_neg hdash]

/-! ## The codes of what is first -/

/-- What stands between the brackets of a pattern, given after its `_`. -/
def brackets : CString → List CString
  | [] => []
  | c :: p =>
    if c = chr '[' then
      match _h : strchr (chr ']') p with
      | none => brackets p
      | some (set, rest) => set :: brackets rest
    else brackets p
termination_by p => p.length
decreasing_by
  · simp
  · have hlen := strchr_length _h
    simp only [List.length_cons]
    omega
  · simp

theorem brackets_closed {set : CString} (h : strchr (chr ']') p = some (set, rest)) :
    brackets (chr '[' :: p) = set :: brackets rest := by
  rw [brackets, if_pos rfl]
  split
  · rename_i h'
    rw [h] at h'
    cases h'
  · rename_i h'
    rw [h] at h'
    obtain ⟨rfl, rfl⟩ := Prod.mk.inj (Option.some.inj h')
    rfl

theorem brackets_unclosed (h : strchr (chr ']') p = none) :
    brackets (chr '[' :: p) = brackets p := by
  rw [brackets, if_pos rfl]
  split
  · rfl
  · rename_i h'
    rw [h] at h'
    cases h'

theorem brackets_other {x : CChar} (h : x ≠ chr '[') : brackets (x :: p) = brackets p := by
  rw [brackets, if_neg h]

/-- **No set is empty.** -/
def Filled (p : CString) : Prop := ∀ set ∈ brackets p, ∃ d, inSet d set = true

/-- **No set is just a character** that would not stand for itself outside. -/
def Plain (p : CString) : Prop :=
  ∀ set ∈ brackets p, ∀ c, c = chr '-' ∨ c = chr ' ' ∨ c = chr '/' →
    ∃ d, inSet d set ≠ decide (d = c)

/-- The code of an ordinary character. -/
def ordCode (c : CChar) : Code :=
  (0x0100 ||| c.toNat, Bitwise.zero.set (c.toNat / 8) (1 <<< (c.toNat % 8)))

/-- The code of an end. -/
def tailCode : Tail → Code
  | .exact => (0x30000, Bitwise.zero)
  | .oneOrMore => (0x10000, Bitwise.zero)
  | .zeroOrMore => (0x20000, Bitwise.zero)
  | .unclosed => (0x40000, Bitwise.zero)

/-- What the code tells of the first of a pattern. -/
inductive Reads (code : Code) : Option CString → Front → Prop
  | token {t : Token} {rest : CString} (accepts : ∀ d, t.accepts d = code.2.bitAt d.toNat)
      (filled : code.2 ≠ Bitwise.zero)
      (plain : ∀ c, c = chr '-' ∨ c = chr ' ' ∨ c = chr '/' → code ≠ ordCode c) :
      Reads code (some rest) (.token t rest)
  | separator {x : CChar} {rest : CString} (sep : x = chr ' ' ∨ x = chr '-') (ord : code = ordCode x) :
      Reads code (some rest) (.separator rest)
  | slash {rest : CString} (ord : code = ordCode (chr '/')) : Reads code (some rest) (.tail .exact)
  | tail {p' : Option CString} {e : Tail} (ord : code = tailCode e) (fin : p' = none ↔ e = .exact) :
      Reads code p' (.tail e)

theorem zero_bitAt (n : ℕ) : Bitwise.zero.bitAt n = false := by
  unfold Bitwise.bitAt Bitwise.zero
  rw [List.getD_eq_getElem?_getD, List.getElem?_replicate]
  split <;> simp

theorem ne_zero_of_bitAt (h : bw.bitAt n = true) : bw ≠ Bitwise.zero := by
  rintro rfl
  rw [zero_bitAt] at h
  cases h

/-- The set of an ordinary character has its bit. -/
theorem ordCode_bitAt {c : CChar} (hc : c.toNat < 128) :
    (ordCode c).2.bitAt n = decide (n = c.toNat) := by
  have hset : (ordCode c).2 =
      Bitwise.zero.modify (c.toNat / 8) (· ||| 1 <<< (c.toNat % 8)) := by
    unfold ordCode Bitwise.zero
    rw [List.modify_eq_set, List.getElem?_replicate, if_pos (by omega)]
    simp
  rw [hset, bitAt_modify (by decide) (by omega), zero_bitAt, Bool.false_or]

theorem ordCode_ne_zero {c : CChar} (hc : c.toNat < 128) : (ordCode c).2 ≠ Bitwise.zero :=
  ne_zero_of_bitAt (n := c.toNat) (by rw [ordCode_bitAt hc]; simp)

theorem ordCode_inj {c d : CChar} (hc : c.toNat < 128) (hd : d.toNat < 128)
    (h : ordCode c = ordCode d) : c = d := by
  have hbit := ordCode_bitAt (n := c.toNat) hc
  rw [h, ordCode_bitAt hd, decide_eq_decide] at hbit
  exact BitVec.eq_of_toNat_eq (hbit.2 rfl)

theorem toupper_open {q : CChar} : toupper q = chr '[' ↔ q = chr '[' := by
  revert q
  decide

theorem toupper_dot {q : CChar} : toupper q = chr '.' ↔ q = chr '.' := by
  revert q
  decide

theorem toupper_separator {q : CChar} :
    toupper q = chr ' ' ∨ toupper q = chr '-' ↔ q = chr ' ' ∨ q = chr '-' := by
  revert q
  decide

theorem separator_lt {c : CChar} (h : c = chr '-' ∨ c = chr ' ' ∨ c = chr '/') : c.toNat < 128 := by
  rcases h with rfl | rfl | rfl <;> decide

/-- A range of digits has just their bits. -/
theorem span_reads {first last : CChar} {score : ℕ} {b6 b7 : ℕ}
    (hbits : ∀ d : CChar, (Token.span first last).accepts d =
      Bitwise.bitAt ((Bitwise.zero.set 6 b6).set 7 b7) d.toNat)
    (hnine : (Token.span first last).accepts (chr '9') = true)
    (hlow : ∀ c, c = chr '-' ∨ c = chr ' ' ∨ c = chr '/' →
      (Token.span first last).accepts c = false) :
    Reads (score, (Bitwise.zero.set 6 b6).set 7 b7) (some rest)
      (.token (.span first last) rest) := by
  refine Reads.token hbits (ne_zero_of_bitAt (n := (chr '9').toNat) ?_) fun c hc heq => ?_
  · exact (hbits _).symm.trans hnine
  · have hbit := ordCode_bitAt (n := c.toNat) (separator_lt hc)
    rw [← heq, ← hbits, hlow c hc] at hbit
    simp at hbit

/-- The code of a set has a bit for each character in it. -/
theorem extCmp1_set {set : CString} (hs : strchr (chr ']') p = some (set, rest)) (hp : Ascii p) :
    ∃ code, extCmp1 (chr '[' :: p) = some (code, some rest) ∧
      ∀ d : CChar, code.2.bitAt d.toNat = inSet d set := by
  have hset : Ascii set := hp.of_subset fun x hx => by simp [(strchr_eq hs).1, hx]
  obtain ⟨bitwise, count, cmin, hrun, -, hbits⟩ :=
    @markSet_spec (Bitwise.zero, 0) 0xff set (by decide) hset
  refine ⟨(if count = 0 then 0x30000 else count ||| cmin, bitwise), ?_, fun d => ?_⟩
  · rw [extCmp1, if_neg (by decide), if_neg (by decide), if_neg (by decide), if_neg (by decide),
      if_neg (by decide), if_pos rfl, hs]
    simp [hrun]
  · rw [hbits, zero_bitAt, Bool.false_or]

/-- A set that is not closed ends nothing. -/
theorem extCmp1_unclosed (hs : strchr (chr ']') p = none) :
    extCmp1 (chr '[' :: p) = some (tailCode .unclosed, some p) := by
  rw [extCmp1, if_neg (by decide), if_neg (by decide), if_neg (by decide), if_neg (by decide),
    if_neg (by decide), if_pos rfl, hs]
  rfl

/-- **The code of what is first** tells what it matches. -/
theorem reads_front {code : Code} {p' : Option CString} (h : extCmp1 p = some (code, p'))
    (hp : Ascii p) (hfill : Filled p) (hplain : Plain p) : Reads code p' (front p) := by
  cases p with
  | nil =>
    obtain ⟨rfl, rfl⟩ := Prod.mk.inj (Option.some.inj h)
    exact Reads.tail rfl (by simp)
  | cons q ps =>
    rw [front]
    by_cases hslash : q = chr '/'
    · subst hslash
      obtain ⟨rfl, rfl⟩ := Prod.mk.inj (Option.some.inj h)
      exact Reads.slash rfl
    rw [if_neg hslash]
    by_cases hset : q = chr '['
    · subst hset
      rw [if_pos (by decide)]
      have hps : Ascii ps := hp.of_subset (List.subset_cons_self _ _)
      cases hs : strchr (chr ']') ps with
      | none =>
        rw [extCmp1_unclosed hs] at h
        obtain ⟨rfl, rfl⟩ := Prod.mk.inj (Option.some.inj h)
        exact Reads.tail rfl (by simp)
      | some r =>
        obtain ⟨set, rest⟩ := r
        obtain ⟨code', hcode, hbits⟩ := extCmp1_set hs hps
        rw [hcode] at h
        obtain ⟨rfl, rfl⟩ := Prod.mk.inj (Option.some.inj h)
        have hmem : set ∈ brackets (chr '[' :: ps) := by simp [brackets_closed hs]
        obtain ⟨d, hd⟩ := hfill set hmem
        refine Reads.token (fun d => (hbits d).symm) (ne_zero_of_bitAt (n := d.toNat) ?_)
          fun c hc heq => ?_
        · rw [hbits]
          exact hd
        · obtain ⟨d, hd⟩ := hplain set hmem c hc
          have hbit := ordCode_bitAt (n := d.toNat) (separator_lt hc)
          rw [← heq, hbits] at hbit
          refine hd ?_
          rw [hbit, decide_eq_decide, BitVec.toNat_inj]
    rw [extCmp1] at h
    rw [if_neg (fun hup => hset (toupper_open.1 hup))]
    by_cases hN : toupper q = chr 'N'
    · rw [if_pos hN] at h ⊢
      obtain ⟨rfl, rfl⟩ := Prod.mk.inj (Option.some.inj h)
      exact span_reads (by decide) (by decide) (by decide)
    rw [if_neg hN] at h ⊢
    by_cases hX : toupper q = chr 'X'
    · rw [if_pos hX] at h ⊢
      obtain ⟨rfl, rfl⟩ := Prod.mk.inj (Option.some.inj h)
      exact span_reads (by decide) (by decide) (by decide)
    rw [if_neg hX] at h ⊢
    by_cases hZ : toupper q = chr 'Z'
    · rw [if_pos hZ] at h ⊢
      obtain ⟨rfl, rfl⟩ := Prod.mk.inj (Option.some.inj h)
      exact span_reads (by decide) (by decide) (by decide)
    rw [if_neg hZ] at h ⊢
    by_cases hdot : q = chr '.'
    · rw [if_pos hdot] at h
      rw [if_pos (toupper_dot.2 hdot)]
      obtain ⟨rfl, rfl⟩ := Prod.mk.inj (Option.some.inj h)
      exact Reads.tail rfl (by simp)
    rw [if_neg hdot] at h
    rw [if_neg (fun hup => hdot (toupper_dot.1 hup))]
    by_cases hbang : q = chr '!'
    · rw [if_pos hbang] at h
      rw [if_pos (toupper_bang.2 hbang)]
      obtain ⟨rfl, rfl⟩ := Prod.mk.inj (Option.some.inj h)
      exact Reads.tail rfl (by simp)
    rw [if_neg hbang, if_neg hset] at h
    rw [if_neg (fun hup => hbang (toupper_bang.1 hup))]
    obtain ⟨-, hq⟩ := hp q List.mem_cons_self
    rw [if_neg (by omega)] at h
    obtain ⟨rfl, rfl⟩ := Prod.mk.inj (Option.some.inj h)
    by_cases hsep : q = chr ' ' ∨ q = chr '-'
    · rw [if_pos (toupper_separator.2 hsep)]
      exact Reads.separator hsep rfl
    · rw [if_neg (fun hup => hsep (toupper_separator.1 hup))]
      refine Reads.token (fun d => ?_) (ordCode_ne_zero hq) fun c hc heq => ?_
      · have hbit := ordCode_bitAt (n := d.toNat) hq
        refine Eq.trans ?_ hbit.symm
        rw [Token.accepts, decide_eq_decide, BitVec.toNat_inj]
      · have hqc := ordCode_inj hq (separator_lt hc) heq
        subst hqc
        tauto

/-- What is left of a pattern is a part of it, with sets of it. -/
theorem extCmp1_rest {code : Code} (h : extCmp1 p = some (code, some rest)) :
    rest ⊆ p ∧ brackets rest ⊆ brackets p := by
  cases p with
  | nil =>
    obtain ⟨-, hno⟩ := Prod.mk.inj (Option.some.inj h)
    cases hno
  | cons q ps =>
    by_cases hset : q = chr '['
    · subst hset
      cases hs : strchr (chr ']') ps with
      | none =>
        rw [extCmp1_unclosed hs] at h
        obtain ⟨-, hrest⟩ := Prod.mk.inj (Option.some.inj h)
        obtain rfl := Option.some.inj hrest
        rw [brackets_unclosed hs]
        exact ⟨List.subset_cons_self _ _, fun _ hx => hx⟩
      | some r =>
        obtain ⟨set, rest'⟩ := r
        rw [extCmp1, if_neg (by decide), if_neg (by decide), if_neg (by decide), if_neg (by decide),
          if_neg (by decide), if_pos rfl, hs] at h
        simp only [Option.bind_eq_bind, Option.bind_eq_some_iff, Option.some.injEq,
          Prod.mk.injEq] at h
        obtain ⟨_, _, _, rfl⟩ := h
        rw [brackets_closed hs, (strchr_eq hs).1]
        exact ⟨fun x hx => by simp [hx], List.subset_cons_self _ _⟩
    · have hrest : rest = ps := by
        rw [extCmp1] at h
        repeat' split at h
        all_goals first
          | exact absurd (by assumption) hset
          | (simp only [Option.some.injEq, Prod.mk.injEq] at h; exact h.2.symm)
          | cases h
      rw [hrest, brackets_other hset]
      exact ⟨List.subset_cons_self _ _, fun _ hx => hx⟩

/-- A string is used up where nothing is left. -/
theorem extCmp1_none {code : Code} (h : extCmp1 p = some (code, none)) :
    code = (0x30000, Bitwise.zero) := by
  cases p with
  | nil =>
    obtain ⟨rfl, -⟩ := Prod.mk.inj (Option.some.inj h)
    rfl
  | cons q ps =>
    rw [extCmp1] at h
    repeat' split at h
    all_goals simp [Option.bind_eq_some_iff] at h

theorem Filled.left {code : Code} (h : Filled p) (h' : extCmp1 p = some (code, some rest)) :
    Filled rest :=
  fun set hmem => h set ((extCmp1_rest h').2 hmem)

theorem Plain.left {code : Code} (h : Plain p) (h' : extCmp1 p = some (code, some rest)) :
    Plain rest :=
  fun set hmem => h set ((extCmp1_rest h').2 hmem)

theorem Ascii.left {code : Code} (h : Ascii p) (h' : extCmp1 p = some (code, some rest)) :
    Ascii rest :=
  h.of_subset (extCmp1_rest h').1

/-- **Only the end of the string has its code**, where no set is empty. -/
theorem extCmp1_end {p' : Option CString} (h : extCmp1 p = some ((0x30000, Bitwise.zero), p'))
    (hp : Ascii p) (hfill : Filled p) : p' = none := by
  cases p with
  | nil =>
    obtain ⟨-, rfl⟩ := Prod.mk.inj (Option.some.inj h)
    rfl
  | cons q ps =>
    exfalso
    by_cases hset : q = chr '['
    · subst hset
      cases hs : strchr (chr ']') ps with
      | none =>
        rw [extCmp1_unclosed hs] at h
        simp [tailCode] at h
      | some r =>
        obtain ⟨set, rest⟩ := r
        obtain ⟨code, hcode, hbits⟩ := extCmp1_set hs (hp.of_subset (List.subset_cons_self _ _))
        rw [hcode] at h
        obtain ⟨rfl, -⟩ := Prod.mk.inj (Option.some.inj h)
        obtain ⟨d, hd⟩ := hfill set (by simp [brackets_closed hs])
        rw [← hbits, zero_bitAt] at hd
        cases hd
    · obtain ⟨-, hq⟩ := hp q List.mem_cons_self
      rw [extCmp1] at h
      repeat' split at h
      all_goals first
        | exact absurd (by assumption) hset
        | (simp at h; done)
        | omega
        | exact ordCode_ne_zero hq (congrArg Prod.snd (Prod.mk.inj (Option.some.inj h)).1)

/-! ## The comparison of two patterns -/

variable {a b : CString} {r : ℤ}

theorem extCmp1_total (hp : Ascii p) : ∃ code p', extCmp1 p = some (code, p') := by
  cases p with
  | nil => exact ⟨_, _, rfl⟩
  | cons q ps =>
    by_cases hset : q = chr '['
    · subst hset
      cases hs : strchr (chr ']') ps with
      | none => exact ⟨_, _, extCmp1_unclosed hs⟩
      | some r =>
        obtain ⟨set, rest⟩ := r
        obtain ⟨code, hcode, -⟩ := extCmp1_set hs (hp.of_subset (List.subset_cons_self _ _))
        exact ⟨_, _, hcode⟩
    · obtain ⟨-, hq⟩ := hp q List.mem_cons_self
      have hlt : ¬ 128 ≤ q.toNat := by omega
      rw [extCmp1]
      simp only [hset, hlt, if_false]
      repeat' split
      all_goals exact ⟨_, _, rfl⟩

/-- The comparison of two patterns has a result. -/
theorem patternCmp_total (ha : Ascii a) (hb : Ascii b) : ∃ r, patternCmp a b = some r := by
  induction hn : a.length using Nat.strongRecOn generalizing a b with
  | _ n ih =>
    obtain ⟨ca, a', ha'⟩ := extCmp1_total ha
    obtain ⟨cb, b', hb'⟩ := extCmp1_total hb
    rw [patternCmp_step ha' hb']
    split
    · cases a' with
      | none => exact ⟨_, rfl⟩
      | some x =>
        cases b' with
        | none => exact ⟨_, rfl⟩
        | some y => exact ih x.length (hn ▸ extCmp1_length ha') (ha.left ha') (hb.left hb') rfl
    · exact ⟨_, rfl⟩

theorem patternCmp_none (h : extCmp1 b = none) : patternCmp a b = none := by
  rw [patternCmp]
  simp [h]

/-- **Two patterns that compare equal** compare alike with every other. -/
theorem patternCmp_congr (h : patternCmp a b = some 0) (ha : Ascii a) (hb : Ascii b)
    (hfa : Filled a) (hfb : Filled b) (c : CString) : patternCmp a c = patternCmp b c := by
  induction hn : a.length using Nat.strongRecOn generalizing a b c with
  | _ n ih =>
    obtain ⟨ca, a', cb, b', ha', hb', hr⟩ := patternCmp_some h
    rcases hc : extCmp1 c with _ | ⟨cc, c'⟩
    · rw [patternCmp_none hc, patternCmp_none hc]
    rw [patternCmp_step ha' hc, patternCmp_step hb' hc]
    rcases hr with ⟨-, h0⟩ | ⟨-, h0⟩ | ⟨rfl, hend, -⟩ | ⟨rfl, x, y, rfl, rfl, hxy⟩
    · omega
    · omega
    · have hboth : a' = none ∧ b' = none := by
        rcases hend with rfl | rfl
        · obtain rfl := extCmp1_none ha'
          exact ⟨rfl, extCmp1_end hb' hb hfb⟩
        · obtain rfl := extCmp1_none hb'
          exact ⟨extCmp1_end ha' ha hfa, rfl⟩
      rw [hboth.1, hboth.2]
    · cases c' with
      | none => rfl
      | some z =>
        simp only
        rw [ih x.length (hn ▸ extCmp1_length ha') hxy (ha.left ha') (hb.left hb') (hfa.left ha')
          (hfb.left hb') z rfl]

/-! ## What two patterns match -/

/-- What is first in two patterns takes the same. -/
inductive Agree : Option CString → Option CString → Front → Front → Prop
  | token {t t' : Token} {rest rest' : CString} (accepts : ∀ d, t.accepts d = t'.accepts d) :
      Agree (some rest) (some rest') (.token t rest) (.token t' rest')
  | separator {rest rest' : CString} :
      Agree (some rest) (some rest') (.separator rest) (.separator rest')
  | tail {a' b' : Option CString} {e : Tail} : Agree a' b' (.tail e) (.tail e)

theorem tailCode_set (e : Tail) : (tailCode e).2 = Bitwise.zero := by cases e <;> rfl

theorem tailCode_inj {e e' : Tail} (h : tailCode e = tailCode e') : e = e' := by
  cases e <;> cases e' <;> first | rfl | simp [tailCode] at h

/-- **One code tells of one kind of front.** -/
theorem Reads.agree {code : Code} {a' b' : Option CString} {f f' : Front} (h : Reads code a' f)
    (h' : Reads code b' f') : Agree a' b' f f' := by
  cases h with
  | token hacc hfill hplain =>
    cases h' with
    | token hacc' _ _ => exact Agree.token fun d => (hacc d).trans (hacc' d).symm
    | separator hsep hord => exact absurd hord (hplain _ (by tauto))
    | slash hord => exact absurd hord (hplain _ (by tauto))
    | tail hord _ => exact absurd (hord ▸ tailCode_set _) hfill
  | separator hsep hord =>
    cases h' with
    | token _ _ hplain => exact absurd hord (hplain _ (by tauto))
    | separator _ _ => exact Agree.separator
    | slash hord' =>
      have heq := ordCode_inj (separator_lt (by tauto)) (by decide) (hord.symm.trans hord')
      subst heq
      exact absurd hsep (by decide)
    | tail hord' _ =>
      have hzero := congrArg Prod.snd (hord.symm.trans hord')
      rw [tailCode_set] at hzero
      exact absurd hzero (ordCode_ne_zero (separator_lt (by tauto)))
  | slash hord =>
    cases h' with
    | token _ _ hplain => exact absurd hord (hplain _ (by tauto))
    | separator hsep hord' =>
      have heq := ordCode_inj (separator_lt (by tauto)) (by decide) (hord'.symm.trans hord)
      subst heq
      exact absurd hsep (by decide)
    | slash _ => exact Agree.tail
    | tail hord' _ =>
      have hzero := congrArg Prod.snd (hord.symm.trans hord')
      rw [tailCode_set] at hzero
      exact absurd hzero (ordCode_ne_zero (by decide))
  | tail hord hfin =>
    cases h' with
    | token _ hfill _ => exact absurd (hord ▸ tailCode_set _) hfill
    | separator hsep hord' =>
      have hzero := congrArg Prod.snd (hord'.symm.trans hord)
      rw [tailCode_set] at hzero
      exact absurd hzero (ordCode_ne_zero (separator_lt (by tauto)))
    | slash hord' =>
      have hzero := congrArg Prod.snd (hord'.symm.trans hord)
      rw [tailCode_set] at hzero
      exact absurd hzero (ordCode_ne_zero (by decide))
    | tail hord' _ =>
      obtain rfl := tailCode_inj (hord.symm.trans hord')
      exact Agree.tail

/-- Two patterns, given after their `_`, that compare equal, and whose sets are
neither empty nor just a separator. -/
structure Alike (a b : CString) : Prop where
  equal : patternCmp a b = some 0
  ascii : Ascii a ∧ Ascii b
  filled : Filled a ∧ Filled b
  plain : Plain a ∧ Plain b

theorem Alike.symm (h : Alike a b) : Alike b a :=
  ⟨by simpa using patternCmp_swap h.equal, h.ascii.symm, h.filled.symm, h.plain.symm⟩

theorem Alike.fronts (h : Alike a b) : ∃ a' b', Agree a' b' (front a) (front b) ∧
    ∀ x y, a' = some x → b' = some y → Alike x y := by
  obtain ⟨ca, a', cb, b', ha', hb', hr⟩ := patternCmp_some h.equal
  have hsame : ca = cb := by
    rcases hr with ⟨-, h0⟩ | ⟨-, h0⟩ | ⟨heq, -⟩ | ⟨heq, -⟩
    · omega
    · omega
    · exact heq
    · exact heq
  subst hsame
  have hra := reads_front ha' h.ascii.1 h.filled.1 h.plain.1
  have hrb := reads_front hb' h.ascii.2 h.filled.2 h.plain.2
  refine ⟨a', b', hra.agree hrb, ?_⟩
  rintro x y rfl rfl
  have hxy : patternCmp x y = some 0 := by
    rw [← patternCmp_of_eq ha' hb']
    exact h.equal
  exact ⟨hxy, ⟨h.ascii.1.left ha', h.ascii.2.left hb'⟩, ⟨h.filled.1.left ha', h.filled.2.left hb'⟩,
    ⟨h.plain.1.left ha', h.plain.2.left hb'⟩⟩

theorem Alike.token {t : Token} (h : Alike a b) (hf : front a = .token t rest) :
    ∃ t' rest', front b = .token t' rest' ∧ (∀ d, t.accepts d = t'.accepts d) ∧ Alike rest rest' := by
  obtain ⟨a', b', hagree, hrest⟩ := h.fronts
  rw [hf] at hagree
  generalize hg : front b = g at hagree
  cases hagree with
  | token hacc => exact ⟨_, _, rfl, hacc, hrest _ _ rfl rfl⟩

theorem Alike.separator (h : Alike a b) (hf : front a = .separator rest) :
    ∃ rest', front b = .separator rest' ∧ Alike rest rest' := by
  obtain ⟨a', b', hagree, hrest⟩ := h.fronts
  rw [hf] at hagree
  generalize hg : front b = g at hagree
  cases hagree with
  | separator => exact ⟨_, rfl, hrest _ _ rfl rfl⟩

theorem Alike.tail {e : Tail} (h : Alike a b) (hf : front a = .tail e) : front b = .tail e := by
  obtain ⟨a', b', hagree, -⟩ := h.fronts
  rw [hf] at hagree
  generalize hg : front b = g at hagree
  cases hagree with
  | tail => rfl

theorem Alike.tail_iff {e : Tail} (h : Alike a b) : front a = .tail e ↔ front b = .tail e :=
  ⟨h.tail, h.symm.tail⟩

/-- **Patterns that compare equal match the same**, round by round. -/
theorem matchLoop_congr (h : Alike a b) (mode : ExtMatch) (data : CString) :
    matchLoop mode a data = matchLoop mode b data := by
  induction a, data using loop_induction generalizing b with
  | nil a =>
    rw [matchLoop_nil, matchLoop_nil]
    by_cases hex : front a = .tail .exact
    · rw [matchEnd_exact hex, matchEnd_exact (h.tail hex)]
    by_cases hzero : front a = .tail .zeroOrMore
    · rw [matchEnd_zeroOrMore hzero, matchEnd_zeroOrMore (h.tail hzero)]
    · rw [matchEnd_other hex hzero,
        matchEnd_other (fun hno => hex (h.tail_iff.2 hno)) fun hno => hzero (h.tail_iff.2 hno)]
  | ended a c ds hex => rw [matchLoop_exact hex, matchLoop_exact (h.tail hex)]
  | dash a ds hex ih =>
    rw [matchLoop_dash hex, matchLoop_dash fun hno => hex (h.tail_iff.2 hno)]
    exact ih h
  | token a t rest c ds hc hf ih =>
    obtain ⟨t', rest', hf', hacc, hrest⟩ := h.token hf
    rw [matchLoop_cons hc, matchLoop_cons hc, hf, hf', Front.step, Front.step, hacc, ih hrest]
  | separator a rest c ds hc hf ih =>
    obtain ⟨rest', hf', hrest⟩ := h.separator hf
    rw [matchLoop_cons hc, matchLoop_cons hc, hf, hf', Front.step, Front.step, ih hrest]
  | tail a e c ds hc hf he =>
    rw [matchLoop_cons hc, matchLoop_cons hc, hf, h.tail hf]

/-! ## `ext_cmp` -/

/-- What a name has after its `_`, where it is a pattern. -/
def patternOf (name : CString) : CString := if name.head? = some (chr '_') then name.tail else []

theorem Ascii.patternOf (h : Ascii a) : Ascii (patternOf a) := by
  unfold Pbx.patternOf
  split
  · exact fun c hc => h c (List.mem_of_mem_tail hc)
  · intro c hc
    cases hc

theorem bytesCmp_swap (a b : List ℕ) : bytesCmp b a = -bytesCmp a b := by
  unfold bytesCmp
  by_cases hab : a < b
  · simp [hab, not_lt_of_gt hab]
  · by_cases hba : b < a
    · simp [hab, hba]
    · simp [hab, hba]

/-- The two cases of `ext_cmp` on patterns and other names. -/
theorem extCmp_pattern (ha : a.head? = some (chr '_')) (hb : b.head? = some (chr '_')) :
    extCmp a b = patternCmp (patternOf a) (patternOf b) := by
  simp [extCmp, patternOf, ha, hb]

theorem extCmp_neg (h : extCmp a b = some r) : extCmp b a = some (-r) := by
  by_cases ha : a.head? = some (chr '_') <;> by_cases hb : b.head? = some (chr '_')
  · rw [extCmp_pattern ha hb] at h
    rw [extCmp_pattern hb ha]
    exact patternCmp_swap h
  · simp only [extCmp, ha, hb, ne_eq, not_true_eq_false, not_false_eq_true, if_true, if_false,
      Option.some.injEq] at h ⊢
    omega
  · simp only [extCmp, ha, hb, ne_eq, not_true_eq_false, not_false_eq_true, if_true, if_false,
      Option.some.injEq] at h ⊢
    omega
  · simp only [extCmp, ha, hb, ne_eq, not_false_eq_true, if_true, if_false,
      Option.some.injEq] at h ⊢
    rw [strcmp, bytesCmp_swap, ← h, strcmp]

theorem extCmp_total (ha : Ascii a) (hb : Ascii b) : ∃ r, extCmp a b = some r := by
  unfold extCmp
  split
  · exact ⟨_, rfl⟩
  split
  · exact ⟨_, rfl⟩
  · exact patternCmp_total (fun c hc => ha c (List.mem_of_mem_tail hc))
      fun c hc => hb c (List.mem_of_mem_tail hc)

/-- Names that compare equal are both patterns or the same. -/
theorem extCmp_zero (h : extCmp a b = some 0) :
    a.head? = some (chr '_') ∧ b.head? = some (chr '_') ∨ a = b := by
  by_cases ha : a.head? = some (chr '_') <;> by_cases hb : b.head? = some (chr '_')
  · exact Or.inl ⟨ha, hb⟩
  · simp [extCmp, ha, hb] at h
  · simp [extCmp, ha, hb] at h
  · simp only [extCmp, ha, hb, ne_eq, not_false_eq_true, if_true, if_false,
      Option.some.injEq] at h
    exact Or.inr (strcmp_zero.1 h)

/-- **Names that compare equal** compare alike with every other. -/
theorem extCmp_congr (h : extCmp a b = some 0) (ha : Ascii a) (hb : Ascii b)
    (hfa : Filled (patternOf a)) (hfb : Filled (patternOf b)) (c : CString) :
    extCmp a c = extCmp b c := by
  rcases extCmp_zero h with ⟨hpa, hpb⟩ | rfl
  · rw [extCmp_pattern hpa hpb] at h
    by_cases hpc : c.head? = some (chr '_')
    · rw [extCmp_pattern hpa hpc, extCmp_pattern hpb hpc]
      exact patternCmp_congr h ha.patternOf hb.patternOf hfa hfb _
    · simp [extCmp, hpa, hpb, hpc]
  · rfl

/-- **`ext_cmp` orders the names** that have no empty set, and names that
compare equal match the same dialed strings but for their own texts, where no
set is just a separator. That it is antisymmetric needs neither. -/
theorem extCmp_preorder (a b c : CString) (ha : Ascii a) (hb : Ascii b) (hc : Ascii c) :
    (∃ r, extCmp a b = some r ∧ extCmp b a = some (-r)) ∧
    (Filled (patternOf a) → Filled (patternOf b) → Filled (patternOf c) →
      ∀ r r', extCmp a b = some r → extCmp b c = some r' → r ≤ 0 → r' ≤ 0 →
        ∃ r'', extCmp a c = some r'' ∧ r'' ≤ 0) ∧
    (Filled (patternOf a) → Filled (patternOf b) → Plain (patternOf a) → Plain (patternOf b) →
      extCmp a b = some 0 → ∀ data, strcaseEq a data = false → strcaseEq b data = false →
        (trisExtensionMatch a data ≠ 0 ↔ trisExtensionMatch b data ≠ 0)) := by
  refine ⟨?_, ?_, ?_⟩
  · obtain ⟨r, hr⟩ := extCmp_total ha hb
    exact ⟨r, hr, extCmp_neg hr⟩
  · intro hfa hfb hfc r r' h h' hr hr'
    rcases Int.lt_or_eq_of_le hr with hlt | rfl
    · rcases Int.lt_or_eq_of_le hr' with hlt' | rfl
      · obtain ⟨r'', hac, hneg⟩ := extCmp_trans h hlt h' hlt'
        exact ⟨r'', hac, by omega⟩
      · have hcb : extCmp c b = some 0 := by simpa using extCmp_neg h'
        have hca : extCmp c a = some (-r) := by
          rw [extCmp_congr hcb hc hb hfc hfb a]
          exact extCmp_neg h
        exact ⟨r, by simpa using extCmp_neg hca, hr⟩
    · exact ⟨r', by rw [extCmp_congr h ha hb hfa hfb c]; exact h', hr'⟩
  · intro hfa hfb hna hnb h data hda hdb
    rcases extCmp_zero h with ⟨hpa, hpb⟩ | rfl
    · rw [extCmp_pattern hpa hpb] at h
      have halike : Alike (patternOf a) (patternOf b) :=
        ⟨h, ⟨ha.patternOf, hb.patternOf⟩, ⟨hfa, hfb⟩, ⟨hna, hnb⟩⟩
      have hmatch := matchLoop_congr halike .eMatch data
      rw [patternOf, if_pos hpa, patternOf, if_pos hpb] at hmatch
      rw [trisExtensionMatch_eq hpa, trisExtensionMatch_eq hpb, hda, hdb, hmatch]
    · exact Iff.rfl

/-- `X`, the set it stands for and `Z`, which comes before both. -/
theorem extCmp_preorder_digits :
    (∃ r, extCmp (str "_Z") (str "_X") = some r ∧ extCmp (str "_X") (str "_Z") = some (-r)) ∧
    (Filled (patternOf (str "_Z")) → Filled (patternOf (str "_X")) →
      Filled (patternOf (str "_[0-9]")) →
      ∀ r r', extCmp (str "_Z") (str "_X") = some r →
        extCmp (str "_X") (str "_[0-9]") = some r' → r ≤ 0 → r' ≤ 0 →
        ∃ r'', extCmp (str "_Z") (str "_[0-9]") = some r'' ∧ r'' ≤ 0) ∧
    (Filled (patternOf (str "_Z")) → Filled (patternOf (str "_X")) →
      Plain (patternOf (str "_Z")) → Plain (patternOf (str "_X")) →
      extCmp (str "_Z") (str "_X") = some 0 → ∀ data, strcaseEq (str "_Z") data = false →
        strcaseEq (str "_X") data = false →
        (trisExtensionMatch (str "_Z") data ≠ 0 ↔ trisExtensionMatch (str "_X") data ≠ 0)) :=
  extCmp_preorder (str "_Z") (str "_X") (str "_[0-9]") (by decide) (by decide) (by decide)

/-- **An empty set** compares equal to the end of a string but does not end the
comparison; a pattern matches its own text, and not that of one it compares
equal to; and a `-` is dropped where the set of it is not. -/
theorem not_extCmp_preorder :
    (extCmp (str "_[]6") (str "_") = some 0 ∧ extCmp (str "_") (str "_[]5") = some 0 ∧
      extCmp (str "_[]6") (str "_[]5") = some 1) ∧
    (extCmp (str "_X") (str "_[0-9]") = some 0 ∧ trisExtensionMatch (str "_X") (str "_x") = 1 ∧
      trisExtensionMatch (str "_[0-9]") (str "_x") = 0) ∧
    (extCmp (str "_-5") (str "_[-]5") = some 0 ∧ trisExtensionMatch (str "_-5") (str "5") = 1 ∧
      trisExtensionMatch (str "_[-]5") (str "5") = 0) := by
  have hnil : extCmp1 [] = some ((0x30000, Bitwise.zero), none) := rfl
  have hempty : ∀ d, extCmp1 (str "[]" ++ d) = some ((0x30000, Bitwise.zero), some d) := by
    intro d
    rfl
  have hsix : extCmp1 (str "6") = some (ordCode (chr '6'), some []) := rfl
  have hfive : extCmp1 (str "5") = some (ordCode (chr '5'), some []) := rfl
  have hX : extCmp1 (str "X") = some ((0x0A00 ||| 48, (Bitwise.zero.set 6 0xff).set 7 0x03), some []) := rfl
  have hset : extCmp1 (str "[0-9]") =
      some ((0x0A00 ||| 48, (Bitwise.zero.set 6 0xff).set 7 0x03), some []) := by decide
  have hdash : extCmp1 (str "-5") = some (ordCode (chr '-'), some (str "5")) := rfl
  have hdash' : extCmp1 (str "[-]5") = some (ordCode (chr '-'), some (str "5")) := by decide
  refine ⟨⟨?_, ?_, ?_⟩, ⟨?_, ?_, ?_⟩, ?_, ?_, ?_⟩
  · exact patternCmp_of_end (hempty (str "6")) hnil (Or.inr rfl)
  · exact patternCmp_of_end hnil (hempty (str "5")) (Or.inl rfl)
  · refine (patternCmp_of_eq (hempty (str "6")) (hempty (str "5"))).trans ?_
    exact patternCmp_of_gt hsix hfive (Or.inl (by decide))
  · refine (patternCmp_of_eq hX hset).trans ?_
    exact patternCmp_of_end hnil hnil (Or.inl rfl)
  · rw [trisExtensionMatch_eq (by decide), if_pos (by decide)]
  · rw [trisExtensionMatch_eq (by decide), if_neg (by decide)]
    exact (matchLoop_cons (by decide) .eMatch (str "[0-9]") (str "x")).trans (by decide)
  · refine (patternCmp_of_eq hdash hdash').trans ?_
    refine (patternCmp_of_eq hfive hfive).trans ?_
    exact patternCmp_of_end hnil hnil (Or.inl rfl)
  · rw [trisExtensionMatch_eq (by decide), if_neg (by decide)]
    refine (matchLoop_cons (by decide) .eMatch (str "-5") []).trans ?_
    refine (matchLoop_cons (by decide) .eMatch (str "5") []).trans ?_
    exact (matchLoop_nil .eMatch []).trans (by decide)
  · rw [trisExtensionMatch_eq (by decide), if_neg (by decide)]
    exact (matchLoop_cons (by decide) .eMatch (str "[-]5") []).trans (by decide)

end Pbx

end Trismedia
