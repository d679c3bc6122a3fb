import Trismedia.Pbx.Language
/-!
# The modes of matching

A dialed string can match where it matches or where more can be dialed, and
more can be dialed where some longer string matches. The loop of
`_extension_match_core` answers so in its three modes, for patterns that have a
string to complete any row of their tokens; the tests before the loop bring in
a pattern's own text, and names that are no patterns are compared with regard
to case in one mode only.
-/


namespace Trismedia

namespace Pbx

open CString

variable {p rest data s : CString} {t : Token} {e : Tail}

/-! ## The three answers -/

/-- **The loop can match** exactly where it matches or more can follow. -/
theorem matchLoop_eCanmatch_iff : matchLoop .eCanmatch p data ≠ 0 ↔
    matchLoop .eMatch p data ≠ 0 ∨ matchLoop .eMatchmore p data ≠ 0 := by
  induction p, data using loop_induction with
  | nil p =>
    rw [matchLoop_nil, matchLoop_nil, matchLoop_nil]
    by_cases hex : front p = .tail .exact
    · simp [matchEnd_exact hex]
    by_cases hzero : front p = .tail .zeroOrMore
    · simp [matchEnd_zeroOrMore hzero]
    · simp [matchEnd_other hex hzero]
  | ended p c ds hex => simp [matchLoop_exact hex]
  | dash p ds hex ih => rw [matchLoop_dash hex, matchLoop_dash hex, matchLoop_dash hex, ih]
  | token p t rest c ds hc hf ih =>
    rw [matchLoop_cons hc, matchLoop_cons hc, matchLoop_cons hc, hf]
    by_cases hacc : t.accepts c = true
    · simpa [Front.step, hacc] using ih
    · simp [Front.step, hacc]
  | separator p rest c ds hc hf ih =>
    rw [matchLoop_cons hc, matchLoop_cons hc, matchLoop_cons hc, hf]
    exact ih
  | tail p e c ds hc hf he =>
    rw [matchLoop_cons hc, matchLoop_cons hc, matchLoop_cons hc, hf]
    cases e <;> simp [Front.step]

/-- **Where a longer string matches**, more can be dialed. -/
theorem matchmore_of_match (hs : s ≠ []) (h : matchLoop .eMatch p (data ++ s) ≠ 0) :
    matchLoop .eMatchmore p data ≠ 0 := by
  induction p, data using loop_induction with
  | nil p =>
    rw [matchLoop_nil]
    rw [List.nil_append] at h
    obtain ⟨c, s, rfl⟩ := List.exists_cons_of_ne_nil hs
    by_cases hex : front p = .tail .exact
    · exact absurd (matchLoop_exact hex .eMatch c s) h
    by_cases hzero : front p = .tail .zeroOrMore
    · simp [matchEnd_zeroOrMore hzero]
    · simp [matchEnd_other hex hzero]
  | ended p c ds hex => exact absurd (matchLoop_exact hex .eMatch c (ds ++ s)) h
  | dash p ds hex ih =>
    rw [List.cons_append, matchLoop_dash hex] at h
    rw [matchLoop_dash hex]
    exact ih h
  | token p t rest c ds hc hf ih =>
    rw [List.cons_append, matchLoop_cons hc, hf] at h
    rw [matchLoop_cons hc, hf]
    by_cases hacc : t.accepts c = true
    · simp only [Front.step, hacc, if_true] at h ⊢
      exact ih h
    · simp [Front.step, hacc] at h
  | separator p rest c ds hc hf ih =>
    rw [List.cons_append, matchLoop_cons hc, hf] at h
    rw [matchLoop_cons hc, hf]
    exact ih h
  | tail p e c ds hc hf he =>
    rw [List.cons_append, matchLoop_cons hc, hf] at h
    rw [matchLoop_cons hc, hf]
    cases e <;> simp [Front.step] at h ⊢

/-! ## Completing a string -/

/-- **A pattern that can be completed**, given after its `_`: its sets are
closed and have characters that can be dialed, it does not end in `!`, and no
separator stands before its end. -/
structure Completable (p : CString) : Prop where
  sets : ∀ chars, Token.set chars ∈ (tokens p).1 → ∃ c, c ≠ chr '-' ∧ inSet c chars = true
  tail : (tokens p).2 = .exact ∨ (tokens p).2 = .oneOrMore
  clean : trailing p = false

theorem Completable.token (h : Completable p) (hf : front p = .token t rest) : Completable rest := by
  have hsets := h.sets
  have htail := h.tail
  have hclean := h.clean
  rw [tokens_token hf] at hsets htail
  rw [trailing_token hf] at hclean
  exact ⟨fun chars hmem => hsets chars (List.mem_cons_of_mem _ hmem), htail, hclean⟩

theorem Completable.separator (h : Completable p) (hf : front p = .separator rest) :
    Completable rest := by
  have hsets := h.sets
  have htail := h.tail
  rw [tokens_separator hf] at hsets htail
  refine ⟨hsets, htail, ?_⟩
  by_contra hno
  rw [Bool.not_eq_false] at hno
  have hclean := h.clean
  rw [(trailing_separator hf).2 (Or.inr (Or.inr hno))] at hclean
  cases hclean

theorem toupper_dash : toupper (chr '-') = chr '-' := by decide

/-- A character that stands for itself is no separator. -/
theorem front_lit {c : CChar} (h : front p = .token (.lit c) rest) : c ≠ chr '-' := by
  rintro rfl
  cases p with
  | nil => cases h
  | cons q ps =>
    rw [front] at h
    repeat' split at h
    all_goals first
      | (cases h; done)
      | (cases h; exact absurd (Or.inr toupper_dash) (by assumption))

/-- `9` is a digit for each of `N`, `X` and `Z`. -/
theorem front_span {first last : CChar} (h : front p = .token (.span first last) rest) :
    (Token.span first last).accepts (chr '9') = true := by
  cases p with
  | nil => cases h
  | cons q ps =>
    rw [front] at h
    repeat' split at h
    all_goals first
      | (cases h; done)
      | (cases h; decide)

/-- **Each token can be dialed.** -/
theorem Completable.dialed (h : Completable p) (hf : front p = .token t rest) :
    ∃ c, c ≠ chr '-' ∧ t.accepts c = true := by
  cases ht : t with
  | span first last =>
    rw [ht] at hf
    exact ⟨chr '9', by decide, front_span hf⟩
  | set chars =>
    refine h.sets chars ?_
    rw [tokens_token hf, ht]
    exact List.mem_cons_self
  | lit c =>
    rw [ht] at hf
    exact ⟨c, front_lit hf, by simp [Token.accepts]⟩

/-- **A pattern that can be completed** is completed by a string without
separators, which is empty only where nothing is left of the pattern. -/
theorem Completable.completion (h : Completable p) :
    ∃ s, digitsOf s = s ∧ Accepts (tokens p).1 (tokens p).2 s ∧ (front p ≠ .tail .exact → s ≠ []) := by
  induction hn : p.length using Nat.strongRecOn generalizing p with
  | _ n ih =>
    subst hn
    cases hf : front p with
    | token t rest =>
      obtain ⟨s, hs, hacc, -⟩ := ih _ (front_token_length hf) (h.token hf) rfl
      obtain ⟨c, hc, hc'⟩ := h.dialed hf
      refine ⟨c :: s, by rw [digitsOf_cons hc, hs], ?_, fun _ => List.cons_ne_nil _ _⟩
      rw [tokens_token hf]
      exact ⟨hc', hacc⟩
    | separator rest =>
      obtain ⟨s, hs, hacc, hne⟩ := ih _ (front_separator_length hf) (h.separator hf) rfl
      refine ⟨s, hs, by rw [tokens_separator hf]; exact hacc, fun _ => hne fun hex => ?_⟩
      have htrail := (trailing_separator hf).2 (Or.inl hex)
      rw [h.clean] at htrail
      cases htrail
    | tail e =>
      have htail := h.tail
      rw [tokens_tail hf] at htail ⊢
      rcases htail with rfl | rfl
      · exact ⟨[], rfl, rfl, fun hno => absurd rfl hno⟩
      · exact ⟨[chr '0'], by decide, List.cons_ne_nil _ _, fun _ => List.cons_ne_nil _ _⟩

theorem Completable.not_blocked (h : Completable p) (hs : digitsOf s = s) : ¬ Blocked p s := by
  rintro ⟨-, ⟨-, hlast | htrail⟩ | ⟨-, htrail⟩⟩
  · have hmem : chr '-' ∈ digitsOf s := by
      rw [hs]
      exact List.mem_of_getLast? hlast
    simp [digitsOf] at hmem
  · rw [h.clean] at htrail
    cases htrail
  · rw [h.clean] at htrail
    cases htrail

/-- **Where more can be dialed**, some longer string matches. -/
theorem Completable.match_of_matchmore (h : Completable p)
    (hmore : matchLoop .eMatchmore p data ≠ 0) :
    ∃ s, s ≠ [] ∧ matchLoop .eMatch p (data ++ s) ≠ 0 := by
  induction p, data using loop_induction with
  | nil p =>
    obtain ⟨s, hs, hacc, hne⟩ := h.completion
    refine ⟨s, hne fun hex => ?_, ?_⟩
    · rw [matchLoop_nil, matchEnd_exact hex] at hmore
      simp at hmore
    · rw [List.nil_append, matchLoop_eMatch_iff, InLanguage, hs]
      exact ⟨hacc, h.not_blocked hs⟩
  | ended p c ds hex => exact absurd (matchLoop_exact hex _ c ds) hmore
  | dash p ds hex ih =>
    rw [matchLoop_dash hex] at hmore
    obtain ⟨s, hs, hmatch⟩ := ih h hmore
    refine ⟨s, hs, ?_⟩
    rw [List.cons_append, matchLoop_dash hex]
    exact hmatch
  | token p t rest c ds hc hf ih =>
    rw [matchLoop_cons hc, hf] at hmore
    by_cases hacc : t.accepts c = true
    · simp only [Front.step, hacc, if_true] at hmore
      obtain ⟨s, hs, hmatch⟩ := ih (h.token hf) hmore
      refine ⟨s, hs, ?_⟩
      rw [List.cons_append, matchLoop_cons hc, hf]
      simpa only [Front.step, hacc, if_true] using hmatch
    · simp [Front.step, hacc] at hmore
  | separator p rest c ds hc hf ih =>
    rw [matchLoop_cons hc, hf] at hmore
    obtain ⟨s, hs, hmatch⟩ := ih (h.separator hf) hmore
    refine ⟨s, hs, ?_⟩
    rw [List.cons_append, matchLoop_cons hc, hf]
    exact hmatch
  | tail p e c ds hc hf he =>
    refine ⟨[chr '0'], List.cons_ne_nil _ _, ?_⟩
    rw [matchLoop_cons hc, hf] at hmore
    rw [List.cons_append, matchLoop_cons hc, hf]
    cases e <;> simp [Front.step] at hmore ⊢

/-! ## `_extension_match_core` -/

variable {pattern : CString}

theorem core_pattern (hp : pattern.head? = some (chr '_')) {mode : ExtMatch} :
    extensionMatchCore pattern data mode =
      if mode.mask = .eMatch ∧ strcaseEq pattern data then 1
      else matchLoop mode.mask pattern.tail data := by
  unfold extensionMatchCore
  simp [hp]

/-- A name that is no pattern is matched by itself. -/
theorem core_name_match (hp : pattern.head? ≠ some (chr '_')) :
    extensionMatchCore pattern data .eMatch ≠ 0 ↔ pattern = data := by
  unfold extensionMatchCore
  simp only [ExtMatch.mask, hp, false_and, and_false, if_false, ne_eq, not_false_eq_true, if_true]
  by_cases heq : pattern = data
  · simp [heq]
  · simp [heq]

/-- In the other modes the beginning of a name is enough, whatever the case. -/
theorem core_name_begin (hp : pattern.head? ≠ some (chr '_')) {mode : ExtMatch}
    (hm : mode = .eCanmatch ∨ mode = .eMatchmore) :
    extensionMatchCore pattern data mode ≠ 0 ↔ data.length ≤ pattern.length ∧
      strcaseEq (pattern.take data.length) data = true ∧
      (mode = .eMatchmore → data.length < pattern.length) := by
  unfold extensionMatchCore
  by_cases hlen : pattern.length < data.length
  · have hno : ¬ data.length ≤ pattern.length := by omega
    rcases hm with rfl | rfl <;> simp [ExtMatch.mask, hp, hlen, hno]
  have hle : data.length ≤ pattern.length := by omega
  by_cases hnil : data = []
  · rcases hm with rfl | rfl <;>
      simp [ExtMatch.mask, hp, hnil, strcaseEq, lower, List.length_pos_iff]
  by_cases hcase : strcaseEq (pattern.take data.length) data = true
  · rcases hm with rfl | rfl <;> simp [ExtMatch.mask, hp, hle, hcase]
  · rcases hm with rfl | rfl <;> simp [ExtMatch.mask, hp, hle, hcase, hnil]

/-- **The three modes of a pattern** agree but for its own text, which matches
whatever the loop says of it. -/
theorem core_pattern_modes (hp : pattern.head? = some (chr '_')) (data : CString) :
    (extensionMatchCore pattern data .eCanmatch ≠ 0 ∨ strcaseEq pattern data = true ↔
      extensionMatchCore pattern data .eMatch ≠ 0 ∨
        extensionMatchCore pattern data .eMatchmore ≠ 0) ∧
    (Completable pattern.tail →
      (extensionMatchCore pattern data .eMatchmore ≠ 0 ∨
          (∃ s, s ≠ [] ∧ strcaseEq pattern (data ++ s) = true) ↔
        ∃ s, s ≠ [] ∧ extensionMatchCore pattern (data ++ s) .eMatch ≠ 0)) := by
  have hmatch : ∀ d, extensionMatchCore pattern d .eMatch ≠ 0 ↔
      strcaseEq pattern d = true ∨ matchLoop .eMatch pattern.tail d ≠ 0 := by
    intro d
    rw [core_pattern hp]
    by_cases hown : strcaseEq pattern d = true <;> simp [ExtMatch.mask, hown]
  have hcan : extensionMatchCore pattern data .eCanmatch = matchLoop .eCanmatch pattern.tail data := by
    rw [core_pattern hp]
    simp [ExtMatch.mask]
  have hmore : extensionMatchCore pattern data .eMatchmore =
      matchLoop .eMatchmore pattern.tail data := by
    rw [core_pattern hp]
    simp [ExtMatch.mask]
  rw [hcan, hmore, hmatch, matchLoop_eCanmatch_iff]
  refine ⟨by tauto, fun hcompl => ?_⟩
  constructor
  · rintro (h | ⟨s, hs, hown⟩)
    · obtain ⟨s, hs, h⟩ := hcompl.match_of_matchmore h
      exact ⟨s, hs, (hmatch _).2 (Or.inr h)⟩
    · exact ⟨s, hs, (hmatch _).2 (Or.inl hown)⟩
  · rintro ⟨s, hs, h⟩
    rcases (hmatch _).1 h with hown | h
    · exact Or.inr ⟨s, hs, hown⟩
    · exact Or.inl (matchmore_of_match hs h)

theorem strcaseEq_refl (a : CString) : strcaseEq a a = true := by
  simp [strcaseEq]

/-- **The three modes of a name** agree where the dialed string, if it begins
the name, does so in the same case. -/
theorem core_name_modes (hp : pattern.head? ≠ some (chr '_'))
    (hcase : strcaseEq (pattern.take data.length) data = true → data <+: pattern) :
    (extensionMatchCore pattern data .eCanmatch ≠ 0 ↔
      extensionMatchCore pattern data .eMatch ≠ 0 ∨
        extensionMatchCore pattern data .eMatchmore ≠ 0) ∧
    (extensionMatchCore pattern data .eMatchmore ≠ 0 ↔
      ∃ s, s ≠ [] ∧ extensionMatchCore pattern (data ++ s) .eMatch ≠ 0) := by
  rw [core_name_begin hp (Or.inl rfl), core_name_begin hp (Or.inr rfl), core_name_match hp]
  have hbegin : ∀ s, pattern = data ++ s → strcaseEq (pattern.take data.length) data = true := by
    rintro s rfl
    rw [List.take_left]
    exact strcaseEq_refl data
  constructor
  · constructor
    · rintro ⟨hle, hc, -⟩
      obtain ⟨s, rfl⟩ := hcase hc
      cases s with
      | nil => exact Or.inl (List.append_nil data)
      | cons c s =>
        refine Or.inr ⟨hle, hc, fun _ => ?_⟩
        rw [List.length_append, List.length_cons]
        omega
    · rintro (rfl | ⟨hle, hc, -⟩)
      · exact ⟨Nat.le_refl _, hbegin [] (List.append_nil _).symm, fun h => by cases h⟩
      · exact ⟨hle, hc, fun h => by cases h⟩
  · constructor
    · rintro ⟨-, hc, hlt⟩
      obtain ⟨s, rfl⟩ := hcase hc
      refine ⟨s, ?_, (core_name_match hp).2 rfl⟩
      rintro rfl
      have h := hlt rfl
      rw [List.append_nil] at h
      omega
    · rintro ⟨s, hs, h⟩
      have heq := (core_name_match hp).1 h
      have hlen := congrArg List.length heq
      rw [List.length_append] at hlen
      have hpos := List.length_pos_iff.2 hs
      exact ⟨by omega, hbegin s heq, fun _ => by omega⟩

/-- **The modes of `_extension_match_core` are consistent**, for patterns and
for names, wherever their own texts are not in play. -/
theorem extensionMatchCore_modes (pattern data : CString) :
    (pattern.head? = some (chr '_') →
      (extensionMatchCore pattern data .eCanmatch ≠ 0 ∨ strcaseEq pattern data = true ↔
        extensionMatchCore pattern data .eMatch ≠ 0 ∨
          extensionMatchCore pattern data .eMatchmore ≠ 0) ∧
      (Completable pattern.tail →
        (extensionMatchCore pattern data .eMatchmore ≠ 0 ∨
            (∃ s, s ≠ [] ∧ strcaseEq pattern (data ++ s) = true) ↔
          ∃ s, s ≠ [] ∧ extensionMatchCore pattern (data ++ s) .eMatch ≠ 0))) ∧
    (pattern.head? ≠ some (chr '_') →
      (strcaseEq (pattern.take data.length) data = true → data <+: pattern) →
      (extensionMatchCore pattern data .eCanmatch ≠ 0 ↔
        extensionMatchCore pattern data .eMatch ≠ 0 ∨
          extensionMatchCore pattern data .eMatchmore ≠ 0) ∧
      (extensionMatchCore pattern data .eMatchmore ≠ 0 ↔
        ∃ s, s ≠ [] ∧ extensionMatchCore pattern (data ++ s) .eMatch ≠ 0)) :=
  ⟨fun hp => core_pattern_modes hp data, core_name_modes⟩

/-- `X.` can be completed. -/
theorem completable_digits : Completable (str "X.") := by
  have hf : front (str "X.") = .token (.span (chr '0') (chr '9')) (str ".") := rfl
  have hf' : front (str ".") = .tail .oneOrMore := rfl
  refine ⟨?_, ?_, ?_⟩
  · rw [tokens_token hf, tokens_tail hf']
    simp
  · rw [tokens_token hf, tokens_tail hf']
    exact Or.inr rfl
  · rw [trailing_token hf, trailing_tail hf']

/-- After `4`, more can be dialed for `_X.`; and a name that is dialed in part. -/
theorem extensionMatchCore_modes_digits :
    ((extensionMatchCore (str "_X.") (str "4") .eMatchmore ≠ 0 ∨
        (∃ s, s ≠ [] ∧ strcaseEq (str "_X.") (str "4" ++ s) = true)) ↔
      ∃ s, s ≠ [] ∧ extensionMatchCore (str "_X.") (str "4" ++ s) .eMatch ≠ 0) ∧
    (extensionMatchCore (str "fax") (str "fa") .eMatchmore ≠ 0 ↔
      ∃ s, s ≠ [] ∧ extensionMatchCore (str "fax") (str "fa" ++ s) .eMatch ≠ 0) :=
  ⟨((extensionMatchCore_modes (str "_X.") (str "4")).1 (by decide)).2 completable_digits,
    ((extensionMatchCore_modes (str "fax") (str "fa")).2 (by decide)
      fun _ => ⟨str "x", by decide⟩).2⟩

/-- **A pattern dialed as it is written** matches, and the loop says that it
cannot. -/
theorem not_modes_ownText :
    ¬ ∀ data, (extensionMatchCore (str "_X") data .eCanmatch ≠ 0 ↔
      extensionMatchCore (str "_X") data .eMatch ≠ 0 ∨
        extensionMatchCore (str "_X") data .eMatchmore ≠ 0) := by
  intro h
  have hmatch : extensionMatchCore (str "_X") (str "_X") .eMatch ≠ 0 := by
    rw [core_pattern (by decide)]
    decide
  have hcan := (h (str "_X")).2 (Or.inl hmatch)
  have hd : str "_X" = chr '_' :: [chr 'X'] := rfl
  have hf : front (str "X") = .token (.span (chr '0') (chr '9')) [] := rfl
  rw [core_pattern (by decide), if_neg (by decide)] at hcan
  have hloop : matchLoop .eCanmatch (str "X") (chr '_' :: [chr 'X']) = 0 := by
    rw [matchLoop_cons (by decide), hf]
    rfl
  exact hcan hloop

end Pbx

end Trismedia
