import Trismedia.Pbx.Match
/-!
# The language of a pattern

A pattern is a row of tokens, each for one character, and an end that asks for
nothing more, for one character or more, or for any number of them. `-` and a
blank between tokens are dropped, and so is every `-` of the dialed string. The
loop of `_extension_match_core` accepts that language but for what its
separators do at the ends: it stops before the `-` at the end of a dialed
string, and does not pass a separator of the pattern once the dialed string is
used up.
-/


namespace Trismedia

namespace Pbx

open CString

/-- What stands for one character. -/
inductive Token
  | span (first last : CChar)
  | set (chars : CString)
  | lit (c : CChar)

/-- The character matches. -/
def Token.accepts (d : CChar) : Token → Bool
  | span first last => first.toInt ≤ d.toInt ∧ d.toInt ≤ last.toInt
  | set chars => inSet d chars
  | lit c => d = c

/-- How a pattern ends: with the string or a `/`, with `.`, with `!`, or with a
bracket that is not closed. -/
inductive Tail
  | exact
  | oneOrMore
  | zeroOrMore
  | unclosed
  deriving DecidableEq

/-- What is first in a pattern. -/
inductive Front
  | token (t : Token) (rest : CString)
  | separator (rest : CString)
  | tail (e : Tail)

/-- The first of a pattern, after its `_`. -/
def front : CString → Front
  | [] => .tail .exact
  | p :: ps =>
    if p = chr '/' then .tail .exact
    else if toupper p = chr '[' then
      match strchr (chr ']') ps with
      | none => .tail .unclosed
      | some (chars, rest) => .token (.set chars) rest
    else if toupper p = chr 'N' then .token (.span (chr '2') (chr '9')) ps
    else if toupper p = chr 'X' then .token (.span (chr '0') (chr '9')) ps
    else if toupper p = chr 'Z' then .token (.span (chr '1') (chr '9')) ps
    else if toupper p = chr '.' then .tail .oneOrMore
    else if toupper p = chr '!' then .tail .zeroOrMore
    else if toupper p = chr ' ' ∨ toupper p = chr '-' then .separator ps
    else .token (.lit p) ps

theorem front_token_length {p rest : CString} {t : Token} (h : front p = .token t rest) :
    rest.length < p.length := by
  cases p with
  | nil => cases h
  | cons c ps =>
    rw [front] at h
    rw [List.length_cons]
    split at h
    · cases h
    split at h
    · split at h
      · cases h
      · rename_i hs
        injection h with _ hrest
        have hlen := strchr_length hs
        rw [hrest] at hlen
        omega
    repeat' split at h
    all_goals first | cases h; omega | cases h

theorem front_separator_length {p rest : CString} (h : front p = .separator rest) :
    rest.length < p.length := by
  cases p with
  | nil => cases h
  | cons c ps =>
    rw [front] at h
    rw [List.length_cons]
    split at h
    · cases h
    split at h
    · split at h <;> cases h
    repeat' split at h
    all_goals first | cases h; omega | cases h

/-- **The tokens of a pattern** and its end. -/
def tokens (p : CString) : List Token × Tail :=
  match _h : front p with
  | .token t rest => (t :: (tokens rest).1, (tokens rest).2)
  | .separator rest => tokens rest
  | .tail e => ([], e)
termination_by p.length
decreasing_by
  · exact front_token_length _h
  · exact front_separator_length _h

/-- Each token takes one character, and the end what is left. -/
def Accepts : List Token → Tail → CString → Prop
  | [], .exact, d => d = []
  | [], .oneOrMore, d => d ≠ []
  | [], .zeroOrMore, _ => True
  | [], .unclosed, _ => False
  | _ :: _, _, [] => False
  | t :: ts, e, c :: d => t.accepts c ∧ Accepts ts e d

/-- What is left of a dialed string without its separators. -/
def digitsOf (data : CString) : CString := data.filter (· ≠ chr '-')

/-- **The language of a pattern**, given after its `_`. -/
def InLanguage (p data : CString) : Prop := Accepts (tokens p).1 (tokens p).2 (digitsOf data)

/-- A separator stands before the end of the pattern, a `/` or a final `!`. -/
def trailing (p : CString) : Bool :=
  match _h : front p with
  | .token _ rest => trailing rest
  | .separator rest =>
    (match front rest with
      | .tail .exact => true
      | .tail .zeroOrMore => true
      | _ => false) || trailing rest
  | .tail _ => false
termination_by p.length
decreasing_by
  · exact front_token_length _h
  · exact front_separator_length _h

/-- **Separators are in the way**: the dialed string has just the characters
that the tokens take, and it ends in a `-` or the pattern in a separator. -/
def Blocked (p data : CString) : Prop :=
  Accepts (tokens p).1 .exact (digitsOf data) ∧
    ((tokens p).2 = .exact ∧ (data.getLast? = some (chr '-') ∨ trailing p = true) ∨
      (tokens p).2 = .zeroOrMore ∧ trailing p = true)

variable {p rest data ds : CString} {t : Token} {c : CChar} {mode : ExtMatch} {e : Tail}

/-! ## Reading a pattern from its front -/

theorem tokens_token (h : front p = .token t rest) :
    tokens p = (t :: (tokens rest).1, (tokens rest).2) := by
  rw [tokens]
  split
  · rename_i h'
    rw [h] at h'
    injection h' with ht hrest
    rw [ht, hrest]
  · rename_i h'
    rw [h] at h'
    cases h'
  · rename_i h'
    rw [h] at h'
    cases h'

theorem tokens_separator (h : front p = .separator rest) : tokens p = tokens rest := by
  rw [tokens]
  split
  · rename_i h'
    rw [h] at h'
    cases h'
  · rename_i h'
    rw [h] at h'
    injection h' with hrest
    rw [hrest]
  · rename_i h'
    rw [h] at h'
    cases h'

theorem tokens_tail (h : front p = .tail e) : tokens p = ([], e) := by
  rw [tokens]
  split
  · rename_i h'
    rw [h] at h'
    cases h'
  · rename_i h'
    rw [h] at h'
    cases h'
  · rename_i h'
    rw [h] at h'
    injection h' with he
    rw [he]

theorem trailing_token (h : front p = .token t rest) : trailing p = trailing rest := by
  rw [trailing]
  split
  · rename_i h'
    rw [h] at h'
    injection h' with _ hrest
    rw [hrest]
  · rename_i h'
    rw [h] at h'
    cases h'
  · rename_i h'
    rw [h] at h'
    cases h'

theorem trailing_tail (h : front p = .tail e) : trailing p = false := by
  rw [trailing]
  split
  · rename_i h'
    rw [h] at h'
    cases h'
  · rename_i h'
    rw [h] at h'
    cases h'
  · rfl

theorem trailing_separator (h : front p = .separator rest) :
    trailing p = true ↔
      front rest = .tail .exact ∨ front rest = .tail .zeroOrMore ∨ trailing rest = true := by
  rw [trailing]
  split
  · rename_i h'
    rw [h] at h'
    cases h'
  · rename_i h'
    rw [h] at h'
    injection h' with hrest
    rw [← hrest, Bool.or_eq_true, ← or_assoc]
    refine or_congr_left ?_
    cases front rest with
    | token t r => simp
    | separator r => simp
    | tail e => cases e <;> simp
  · rename_i h'
    rw [h] at h'
    cases h'

/-- **Where only separators are left** before an end that needs nothing, they
are trailing ones. -/
theorem trailing_of_tokens_nil (hnil : (tokens p).1 = [])
    (he : (tokens p).2 = .exact ∨ (tokens p).2 = .zeroOrMore) :
    trailing p = true ∨ front p = .tail .exact ∨ front p = .tail .zeroOrMore := by
  induction hn : p.length using Nat.strongRecOn generalizing p with
  | _ n ih =>
    subst hn
    cases hf : front p with
    | token t rest =>
      rw [tokens_token hf] at hnil
      cases hnil
    | tail e =>
      rw [tokens_tail hf] at he
      rcases he with rfl | rfl
      · exact Or.inr (Or.inl rfl)
      · exact Or.inr (Or.inr rfl)
    | separator rest =>
      rw [tokens_separator hf] at hnil he
      left
      rw [trailing_separator hf]
      rcases ih rest.length (front_separator_length hf) hnil he rfl with h | h | h
      · exact Or.inr (Or.inr h)
      · exact Or.inl h
      · exact Or.inr (Or.inl h)

/-! ## The loop -/

/-- The loop at the end of the dialed string. -/
theorem matchLoop_nil (mode : ExtMatch) (p : CString) : matchLoop mode p [] = matchEnd mode p [] := by
  cases p with
  | nil => rw [matchLoop]; simp
  | cons q ps => rw [matchLoop]; simp

/-- What the loop does with a character that is no separator. -/
def Front.step (mode : ExtMatch) (c : CChar) (ds : CString) : Front → ℕ
  | token t rest => if t.accepts c then matchLoop mode rest ds else 0
  | separator rest => matchLoop mode rest (c :: ds)
  | tail .oneOrMore => 1
  | tail .zeroOrMore => 2
  | tail _ => 0

theorem span_step {first last : CChar} {a : ℕ} :
    (if c.toInt < first.toInt ∨ c.toInt > last.toInt then 0 else a) =
      if (Token.span first last).accepts c then a else 0 := by
  by_cases h : c.toInt < first.toInt ∨ c.toInt > last.toInt
  · have hnot : ¬ (first.toInt ≤ c.toInt ∧ c.toInt ≤ last.toInt) := by omega
    simp [Token.accepts, h, hnot]
  · have hin : first.toInt ≤ c.toInt ∧ c.toInt ≤ last.toInt := by omega
    simp [Token.accepts, h, hin]

/-- **One round of the loop.** -/
theorem matchLoop_cons (hc : c ≠ chr '-') (mode : ExtMatch) (p ds : CString) :
    matchLoop mode p (c :: ds) = (front p).step mode c ds := by
  cases p with
  | nil =>
    rw [matchLoop]
    · simp [matchEnd, front, Front.step]
    · simp
  | cons q ps =>
    rw [matchLoop, front]
    by_cases hslash : q = chr '/'
    · rw [if_pos hslash, if_pos hslash]
      simp [matchEnd, Front.step]
    rw [if_neg hslash, if_neg hslash, if_neg hc]
    by_cases hset : toupper q = chr '['
    · rw [if_pos hset, if_pos hset]
      cases hs : strchr (chr ']') ps with
      | none =>
        split
        · rfl
        · rename_i h
          cases h
      | some r =>
        obtain ⟨chars, rest⟩ := r
        split
        · rename_i h
          cases h
        · rename_i h
          obtain ⟨rfl, rfl⟩ := Prod.mk.inj (Option.some.inj h)
          rfl
    rw [if_neg hset, if_neg hset]
    by_cases hN : toupper q = chr 'N'
    · rw [if_pos hN, if_pos hN]
      exact span_step
    rw [if_neg hN, if_neg hN]
    by_cases hX : toupper q = chr 'X'
    · rw [if_pos hX, if_pos hX]
      exact span_step
    rw [if_neg hX, if_neg hX]
    by_cases hZ : toupper q = chr 'Z'
    · rw [if_pos hZ, if_pos hZ]
      exact span_step
    rw [if_neg hZ, if_neg hZ]
    by_cases hdot : toupper q = chr '.'
    · rw [if_pos hdot, if_pos hdot]
      rfl
    rw [if_neg hdot, if_neg hdot]
    by_cases hbang : toupper q = chr '!'
    · rw [if_pos hbang, if_pos hbang]
      rfl
    rw [if_neg hbang, if_neg hbang]
    by_cases hsep : toupper q = chr ' ' ∨ toupper q = chr '-'
    · rw [if_pos hsep, if_pos hsep]
      rfl
    · rw [if_neg hsep, if_neg hsep]
      by_cases hq : c = q
      · simp [Front.step, Token.accepts, hq]
      · simp [Front.step, Token.accepts, hq]

/-- A pattern whose end needs nothing more has none or goes on with a `/`. -/
theorem front_exact : front p = .tail .exact ↔ p = [] ∨ p.head? = some (chr '/') := by
  cases p with
  | nil => simp [front]
  | cons q ps =>
    rw [front]
    by_cases hslash : q = chr '/'
    · simp [hslash]
    · rw [if_neg hslash]
      have hno : ¬ (q :: ps = [] ∨ (q :: ps).head? = some (chr '/')) := by simp [hslash]
      refine iff_of_false ?_ hno
      intro h
      repeat' split at h
      all_goals cases h

theorem toupper_bang {q : CChar} : toupper q = chr '!' ↔ q = chr '!' := by
  revert q
  decide

theorem front_zeroOrMore : front p = .tail .zeroOrMore ↔ p.head? = some (chr '!') := by
  cases p with
  | nil => simp [front]
  | cons q ps =>
    rw [List.head?_cons, Option.some.injEq]
    constructor
    · intro h
      rw [front] at h
      by_contra hq
      have hup : ¬ toupper q = chr '!' := fun hup => hq (toupper_bang.1 hup)
      rw [if_neg hup] at h
      repeat' split at h
      all_goals cases h
    · rintro rfl
      rfl

/-- A `-` in the dialed string is passed unless the pattern has ended. -/
theorem matchLoop_dash (h : front p ≠ .tail .exact) (mode : ExtMatch) (ds : CString) :
    matchLoop mode p (chr '-' :: ds) = matchLoop mode p ds := by
  rw [ne_eq, front_exact, not_or] at h
  obtain ⟨hne, hslash⟩ := h
  obtain ⟨q, ps, rfl⟩ := List.exists_cons_of_ne_nil hne
  have hq : q ≠ chr '/' := fun hq => hslash (by rw [hq]; rfl)
  rw [matchLoop, if_neg hq, if_pos rfl]

/-- Where the pattern has ended no character is left to match. -/
theorem matchLoop_exact (h : front p = .tail .exact) (mode : ExtMatch) (c : CChar) (ds : CString) :
    matchLoop mode p (c :: ds) = 0 := by
  rcases front_exact.1 h with rfl | hslash
  · rw [matchLoop]
    · simp [matchEnd]
    · simp
  · cases p with
    | nil => cases hslash
    | cons q ps =>
      obtain rfl := Option.some.inj hslash
      rw [matchLoop, if_pos rfl]
      simp [matchEnd]

/-- **Induction along the loop**, round by round. -/
theorem loop_induction {motive : CString → CString → Prop}
    (nil : ∀ p, motive p [])
    (ended : ∀ p c ds, front p = .tail .exact → motive p (c :: ds))
    (dash : ∀ p ds, front p ≠ .tail .exact → motive p ds → motive p (chr '-' :: ds))
    (token : ∀ p t rest c ds, c ≠ chr '-' → front p = .token t rest → motive rest ds →
      motive p (c :: ds))
    (separator : ∀ p rest c ds, c ≠ chr '-' → front p = .separator rest → motive rest (c :: ds) →
      motive p (c :: ds))
    (tail : ∀ p e c ds, c ≠ chr '-' → front p = .tail e → e ≠ .exact → motive p (c :: ds))
    (p data : CString) : motive p data := by
  induction hn : p.length + data.length using Nat.strongRecOn generalizing p data with
  | _ n ih =>
    subst hn
    cases data with
    | nil => exact nil p
    | cons c ds =>
      by_cases hex : front p = .tail .exact
      · exact ended p c ds hex
      by_cases hdash : c = chr '-'
      · subst hdash
        exact dash p ds hex (ih _ (by simp) p ds rfl)
      cases hf : front p with
      | token t rest =>
        have hlen := front_token_length hf
        exact token p t rest c ds hdash hf (ih _ (by simp only [List.length_cons]; omega) rest ds rfl)
      | separator rest =>
        have hlen := front_separator_length hf
        exact separator p rest c ds hdash hf
          (ih _ (by simp only [List.length_cons]; omega) rest (c :: ds) rfl)
      | tail e =>
        refine tail p e c ds hdash hf fun he => hex ?_
        rw [hf, he]

/-! ## What the loop accepts -/

theorem digitsOf_dash (ds : CString) : digitsOf (chr '-' :: ds) = digitsOf ds := by
  simp [digitsOf]

theorem digitsOf_cons (hc : c ≠ chr '-') (ds : CString) : digitsOf (c :: ds) = c :: digitsOf ds := by
  simp [digitsOf, hc]

theorem digitsOf_eq_nil (h : digitsOf data = []) (hne : data ≠ []) :
    data.getLast? = some (chr '-') := by
  have hlast := List.getLast_mem hne
  have hdash : data.getLast hne = chr '-' := by
    by_contra hno
    have hmem : data.getLast hne ∈ digitsOf data := List.mem_filter.2 ⟨hlast, by simpa using hno⟩
    rw [h] at hmem
    cases hmem
  rw [List.getLast?_eq_getLast_of_ne_nil hne, hdash]

theorem accepts_nil {ts : List Token} (h : Accepts ts e []) :
    ts = [] ∧ (e = .exact ∨ e = .zeroOrMore) := by
  cases ts with
  | nil => cases e <;> simp_all [Accepts]
  | cons t ts => exact h.elim

theorem matchEnd_exact (h : front p = .tail .exact) (mode : ExtMatch) :
    matchEnd mode p [] = if mode = .eMatchmore then 0 else 1 := by
  have hp := front_exact.1 h
  rw [matchEnd, if_neg (by simp), if_pos hp]

theorem matchEnd_zeroOrMore (h : front p = .tail .zeroOrMore) (mode : ExtMatch) :
    matchEnd mode p [] = 2 := by
  have hp := front_zeroOrMore.1 h
  have hno : ¬ (p = [] ∨ p.head? = some (chr '/')) := by
    rw [← front_exact, h]
    simp
  rw [matchEnd, if_neg (by simp), if_neg hno, if_pos hp]

theorem matchEnd_other (h : front p ≠ .tail .exact) (h' : front p ≠ .tail .zeroOrMore)
    (mode : ExtMatch) : matchEnd mode p [] = if mode = .eMatch then 0 else 1 := by
  rw [ne_eq, front_exact] at h
  rw [ne_eq, front_zeroOrMore] at h'
  rw [matchEnd, if_neg (by simp), if_neg h, if_neg h']

/-- The first of a pattern that takes nothing more, or any number, tells so. -/
theorem blocked_of_nil (h : front p ≠ .tail .exact) (h' : front p ≠ .tail .zeroOrMore)
    (hl : InLanguage p data) (hd : digitsOf data = []) : Blocked p data := by
  rw [InLanguage, hd] at hl
  obtain ⟨hnil, he⟩ := accepts_nil hl
  have htrail : trailing p = true :=
    (trailing_of_tokens_nil hnil he).resolve_right fun hno => hno.elim h h'
  refine ⟨by rw [hd, hnil]; exact rfl, ?_⟩
  rcases he with he | he
  · exact Or.inl ⟨he, Or.inr htrail⟩
  · exact Or.inr ⟨he, htrail⟩

/-- A `-` of the dialed string is dropped, and blocks nothing that was not
blocked without it. -/
theorem blocked_dash (h : front p ≠ .tail .exact) :
    Blocked p (chr '-' :: ds) ↔ Blocked p ds := by
  unfold Blocked
  rw [digitsOf_dash]
  cases ds with
  | cons d ds => rw [List.getLast?_cons_cons]
  | nil =>
    refine and_congr_right fun hl => ?_
    obtain ⟨hnil, -⟩ := accepts_nil hl
    refine or_congr_left (and_congr_right fun he => ?_)
    have htrail : trailing p = true := by
      rcases trailing_of_tokens_nil hnil (Or.inl he) with ht | hf | hf
      · exact ht
      · exact absurd hf h
      · rw [tokens_tail hf] at he
        cases he
    simp [htrail]

/-- **What the loop accepts** on an exact match: the language of the pattern,
but where separators are in the way. -/
theorem matchLoop_eMatch_iff : matchLoop .eMatch p data ≠ 0 ↔
    InLanguage p data ∧ ¬ Blocked p data := by
  induction p, data using loop_induction with
  | nil p =>
    rw [matchLoop_nil]
    by_cases hex : front p = .tail .exact
    · rw [matchEnd_exact hex]
      simp [InLanguage, Blocked, tokens_tail hex, trailing_tail hex, digitsOf, Accepts]
    by_cases hzero : front p = .tail .zeroOrMore
    · rw [matchEnd_zeroOrMore hzero]
      simp [InLanguage, Blocked, tokens_tail hzero, trailing_tail hzero, digitsOf, Accepts]
    rw [matchEnd_other hex hzero]
    refine iff_of_false (by simp) fun h => h.2 ?_
    exact blocked_of_nil hex hzero h.1 rfl
  | ended p c ds hex =>
    rw [matchLoop_exact hex]
    refine iff_of_false (by simp) fun h => h.2 ?_
    have hl := h.1
    rw [InLanguage, tokens_tail hex] at hl
    rw [Blocked, tokens_tail hex]
    exact ⟨hl, Or.inl ⟨rfl, Or.inl (digitsOf_eq_nil hl (List.cons_ne_nil _ _))⟩⟩
  | dash p ds hex ih =>
    rw [matchLoop_dash hex, ih, blocked_dash hex, InLanguage, InLanguage, digitsOf_dash]
  | token p t rest c ds hc hf ih =>
    have hsame : InLanguage p (c :: ds) ∧ ¬ Blocked p (c :: ds) ↔
        t.accepts c = true ∧ InLanguage rest ds ∧ ¬ Blocked rest ds := by
      have hlast : (c :: ds).getLast? = some (chr '-') ↔ ds.getLast? = some (chr '-') := by
        cases ds with
        | nil => simp [hc]
        | cons d ds => rw [List.getLast?_cons_cons]
      unfold InLanguage Blocked
      rw [tokens_token hf, trailing_token hf, digitsOf_cons hc, hlast]
      simp only [Accepts]
      tauto
    rw [matchLoop_cons hc, hf, hsame, ← ih]
    by_cases hacc : t.accepts c = true
    · simp [Front.step, hacc]
    · simp [Front.step, hacc]
  | separator p rest c ds hc hf ih =>
    have hsame : Blocked p (c :: ds) ↔ Blocked rest (c :: ds) := by
      unfold Blocked
      rw [tokens_separator hf]
      refine and_congr_right fun hl => ?_
      rw [digitsOf_cons hc] at hl
      have htrail : trailing p = true ↔ trailing rest = true := by
        rw [trailing_separator hf]
        refine ⟨fun h => ?_, fun h => Or.inr (Or.inr h)⟩
        rcases h with h | h | h
        · rw [tokens_tail h] at hl
          cases hl
        · rw [tokens_tail h] at hl
          cases hl
        · exact h
      rw [htrail]
    have hlang : InLanguage p (c :: ds) ↔ InLanguage rest (c :: ds) := by
      unfold InLanguage
      rw [tokens_separator hf]
    rw [matchLoop_cons hc, hf, hsame, hlang]
    exact ih
  | tail p e c ds hc hf he =>
    rw [matchLoop_cons hc, hf]
    cases e <;>
      simp [Front.step, InLanguage, Blocked, tokens_tail hf, digitsOf_cons hc, Accepts]

/-! ## `tris_extension_match` -/

variable {pattern : CString}

theorem trisExtensionMatch_eq (hp : pattern.head? = some (chr '_')) :
    trisExtensionMatch pattern data =
      if strcaseEq pattern data then 1 else matchLoop .eMatch pattern.tail data := by
  unfold trisExtensionMatch extensionMatchCore
  simp [ExtMatch.mask, hp]

/-- **What a pattern matches**: its own text, whatever the case, and the strings
of its language, and nothing else. Nothing is said of the strings of the
language where separators are in the way. -/
theorem extensionMatch_language (hp : pattern.head? = some (chr '_')) (data : CString) :
    (trisExtensionMatch pattern data ≠ 0 →
      strcaseEq pattern data = true ∨ InLanguage pattern.tail data) ∧
    (strcaseEq pattern data = true ∨ InLanguage pattern.tail data ∧ ¬ Blocked pattern.tail data →
      trisExtensionMatch pattern data ≠ 0) := by
  rw [trisExtensionMatch_eq hp]
  by_cases hown : strcaseEq pattern data = true
  · simp [hown]
  · rw [if_neg hown, matchLoop_eMatch_iff]
    exact ⟨fun h => Or.inr h.1, fun h => h.resolve_left hown⟩

/-- A pattern of a digit, and the string that it is, given in lower case. -/
theorem extensionMatch_language_digit :
    (trisExtensionMatch (str "_X") (str "_x") ≠ 0 →
      strcaseEq (str "_X") (str "_x") = true ∨ InLanguage (str "_X").tail (str "_x")) ∧
    (strcaseEq (str "_X") (str "_x") = true ∨
        InLanguage (str "_X").tail (str "_x") ∧ ¬ Blocked (str "_X").tail (str "_x") →
      trisExtensionMatch (str "_X") (str "_x") ≠ 0) :=
  extensionMatch_language (by decide) (str "_x")

/-- **A pattern dialed as it is written** is matched, and need not be in its
language. -/
theorem not_extensionMatch_language :
    ¬ ∀ data, trisExtensionMatch (str "_X") data ≠ 0 ↔ InLanguage (str "X") data := by
  intro h
  have hlang := (h (str "_X")).1 (by rw [trisExtensionMatch_eq (by decide)]; decide)
  have hf : front (str "X") = .token (.span (chr '0') (chr '9')) [] := rfl
  have hd : digitsOf (str "_X") = [chr '_', chr 'X'] := rfl
  rw [InLanguage, tokens_token hf, hd] at hlang
  exact absurd hlang.1 (by decide)

end Pbx

end Trismedia
