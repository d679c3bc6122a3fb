import Mathlib.Tactic.IntervalCases
import Trismedia.Common.CString
/-!
# Numbers in pieces

A number cut in pieces of one size, where each piece loses an international
prefix, and the whole comes behind its own first piece. Here is for which
numbers of at most 17 digits that gives the number: the prefixes lost have to
make up for the piece that comes twice.
-/


namespace Trismedia

namespace Isup

open CString

/-- A list in pieces of `limit`. -/
def pieces {α : Type*} (limit : ℕ) (l : List α) : List (List α) :=
  if l = [] ∨ limit = 0 then [] else l.take limit :: pieces limit (l.drop limit)
  termination_by l.length
  decreasing_by
    rename_i h
    obtain ⟨hl, hlimit⟩ := not_or.1 h
    have := List.length_pos_iff.2 hl
    rw [List.length_drop]
    omega

/-- A number without the prefix of an international one. -/
def withoutPrefix (number : CString) : CString :=
  if number.take 2 = str "00" then number.drop 2 else number

/-- The pieces of a number, each without a prefix. -/
def again (limit : ℕ) (number : CString) : CString := (pieces limit number).flatMap withoutPrefix

variable {limit : ℕ} {c t number : CString}

@[simp] theorem again_nil : again limit [] = [] := by
  rw [again, pieces, if_pos (Or.inl rfl)]
  rfl

theorem again_cons (hlimit : 0 < limit) (ht : t ≠ []) :
    again limit t = withoutPrefix (t.take limit) ++ again limit (t.drop limit) := by
  rw [again, pieces, if_neg (not_or.2 ⟨ht, by omega⟩), List.flatMap_cons]
  rfl

theorem again_short (hlimit : 0 < limit) (ht : t.length ≤ limit) : again limit t = withoutPrefix t := by
  rcases eq_or_ne t [] with rfl | hne
  · simp [withoutPrefix]
  · rw [again_cons hlimit hne, List.take_of_length_le ht, List.drop_eq_nil_of_le ht, again_nil,
      List.append_nil]

theorem withoutPrefix_neg (h : c.take 2 ≠ str "00") : withoutPrefix c = c := if_neg h

theorem withoutPrefix_pos (h : c.take 2 = str "00") : withoutPrefix c = c.drop 2 := if_pos h

theorem length_prefix (h : c.take 2 = str "00") : 2 ≤ c.length := by
  have hlen := congrArg List.length h
  have htwo : (str "00").length = 2 := rfl
  rw [List.length_take, htwo] at hlen
  omega

theorem length_withoutPrefix (c : CString) : (withoutPrefix c).length =
    c.length - if c.take 2 = str "00" then 2 else 0 := by
  unfold withoutPrefix
  split_ifs
  · rw [List.length_drop]
  · rfl

theorem mem_pieces (hlimit : 0 < limit) {piece : CString} (h : piece ∈ pieces limit t) :
    piece ≠ [] ∧ piece.length ≤ limit ∧ piece.length ≤ t.length ∧ ∀ c ∈ piece, c ∈ t := by
  induction hn : t.length using Nat.strong_induction_on generalizing t with
  | _ n ih =>
    rcases eq_or_ne t [] with rfl | hne
    · rw [pieces, if_pos (Or.inl rfl)] at h
      exact absurd h List.not_mem_nil
    · have hpos := List.length_pos_iff.2 hne
      rw [pieces, if_neg (not_or.2 ⟨hne, by omega⟩), List.mem_cons] at h
      rcases h with rfl | h
      · have hlen : (t.take limit).length = min limit n := by rw [List.length_take, hn]
        refine ⟨List.ne_nil_of_length_pos (by omega), by omega, by omega, fun c hc => ?_⟩
        exact List.mem_of_mem_take hc
      · have hdrop : (t.drop limit).length = n - limit := by rw [List.length_drop, hn]
        obtain ⟨hne', hle, hle', hmem⟩ := ih (n - limit) (by omega) h hdrop
        exact ⟨hne', hle, by omega, fun c hc => List.mem_of_mem_drop (hmem c hc)⟩

theorem pieces_cons (hlimit : 0 < limit) (ht : t ≠ []) :
    pieces limit t = t.take limit :: pieces limit (t.drop limit) := by
  rw [pieces, if_neg (not_or.2 ⟨ht, by omega⟩)]

/-- Pieces made longer. -/
theorem length_longer (hlimit : 0 < limit) {g : CString → CString}
    (hg : ∀ c, c.length < (g c).length) (t : CString) :
    t.length + (pieces limit t).length ≤ ((pieces limit t).flatMap g).length := by
  induction hn : t.length using Nat.strong_induction_on generalizing t with
  | _ n ih =>
    rcases eq_or_ne t [] with rfl | hne
    · rw [pieces, if_pos (Or.inl rfl), ← hn]
      exact le_rfl
    · have hpos := List.length_pos_iff.2 hne
      have hdrop : (t.drop limit).length = n - limit := by rw [List.length_drop, hn]
      have hrest := ih (n - limit) (by omega) (t.drop limit) hdrop
      have hone := hg (t.take limit)
      rw [List.length_take, hn] at hone
      rw [pieces_cons hlimit hne, List.flatMap_cons, List.length_append, List.length_cons]
      omega

/-! ## What is lost -/

/-- At most two digits for each piece are lost, and an even number. -/
theorem length_again (hlimit : 0 < limit) (t : CString) :
    (again limit t).length ≤ t.length ∧ (t.length - (again limit t).length) % 2 = 0 ∧
      t.length ≤ (again limit t).length + 2 * ((t.length + limit - 1) / limit) := by
  induction hn : t.length using Nat.strong_induction_on generalizing t with
  | _ n ih =>
    rcases eq_or_ne t [] with rfl | hne
    · rw [← hn]
      simp
    · have hpos := List.length_pos_iff.2 hne
      have hdrop : (t.drop limit).length = n - limit := by rw [List.length_drop, hn]
      have htake : (t.take limit).length = min limit n := by rw [List.length_take, hn]
      obtain ⟨hle, heven, hmost⟩ := ih (n - limit) (by omega) (t.drop limit) hdrop
      have hwithout := length_withoutPrefix (t.take limit)
      have hcase : (if (t.take limit).take 2 = str "00" then 2 else 0) = 0 ∨
          (if (t.take limit).take 2 = str "00" then 2 else 0) = 2 ∧ 2 ≤ (t.take limit).length := by
        by_cases h : (t.take limit).take 2 = str "00"
        · exact Or.inr ⟨if_pos h, length_prefix h⟩
        · exact Or.inl (if_neg h)
      -- a piece for each step
      have hsteps : (n - limit + limit - 1) / limit + 1 ≤ (n + limit - 1) / limit := by
        rcases Nat.lt_or_ge limit n with hlt | hge
        · have heq : n + limit - 1 = (n - limit + limit - 1) + limit := by omega
          rw [heq, Nat.add_div_right _ hlimit]
        · have heq : n - limit + limit - 1 = limit - 1 := by omega
          rw [heq, Nat.div_eq_of_lt (by omega), Nat.zero_add, Nat.le_div_iff_mul_le hlimit]
          omega
      rw [again_cons hlimit hne, List.length_append]
      omega

theorem again_eq_self_iff (hlimit : 0 < limit) (t : CString) :
    again limit t = t ↔ ∀ piece ∈ pieces limit t, piece.take 2 ≠ str "00" := by
  induction hn : t.length using Nat.strong_induction_on generalizing t with
  | _ n ih =>
    rcases eq_or_ne t [] with rfl | hne
    · have hnone : pieces limit ([] : CString) = [] := by rw [pieces, if_pos (Or.inl rfl)]
      simp [hnone]
    · have hpos := List.length_pos_iff.2 hne
      have hdrop : (t.drop limit).length = n - limit := by rw [List.length_drop, hn]
      have hsplit : pieces limit t = t.take limit :: pieces limit (t.drop limit) := by
        rw [pieces, if_neg (not_or.2 ⟨hne, by omega⟩)]
      have hih := ih (n - limit) (by omega) (t.drop limit) hdrop
      rw [hsplit, List.forall_mem_cons, ← hih, again_cons hlimit hne]
      by_cases h : (t.take limit).take 2 = str "00"
      · refine ⟨fun heq => ?_, fun hboth => absurd h hboth.1⟩
        -- the piece has become shorter
        have hlen := congrArg List.length heq
        have hle := (length_again hlimit (t.drop limit)).1
        have htwo := length_prefix h
        rw [withoutPrefix_pos h, List.length_append, List.length_drop] at hlen
        rw [List.length_take] at htwo hlen
        omega
      · rw [withoutPrefix_neg h]
        constructor
        · intro heq
          have hsame := heq.trans (List.take_append_drop limit t).symm
          exact ⟨h, List.append_cancel_left hsame⟩
        · intro hboth
          rw [hboth.2, List.take_append_drop]

/-! ## The first piece twice -/

/-- A piece that loses nothing cannot come twice. -/
theorem append_again_ne (hlimit : 0 < limit) (hlen : c.length = limit) (h : c.take 2 ≠ str "00")
    (t : CString) : c ++ again limit t ≠ t := by
  induction hn : t.length using Nat.strong_induction_on generalizing t with
  | _ n ih =>
    intro heq
    have htake : t.take limit = c := by rw [← heq, ← hlen, List.take_left]
    have hdrop : t.drop limit = again limit t := by
      rw [← @List.drop_left' _ c (again limit t) limit hlen, heq]
    have hne : t ≠ [] := by
      rintro rfl
      rw [List.take_nil] at htake
      rw [← htake, List.length_nil] at hlen
      omega
    have hpos := List.length_pos_iff.2 hne
    have hshorter : (t.drop limit).length < n := by
      rw [List.length_drop]
      omega
    refine ih _ hshorter (t.drop limit) rfl ?_
    conv_rhs => rw [hdrop, again_cons hlimit hne, htake, withoutPrefix_neg h]

/-- Nor can two digits other than a prefix, in pieces of four. -/
theorem two_append_again_ne (hlen : c.length = 2) (h : c ≠ str "00") (t : CString) :
    c ++ again 4 t ≠ t := by
  induction hn : t.length using Nat.strong_induction_on generalizing t with
  | _ n ih =>
    intro heq
    have hne : t ≠ [] := by
      rintro rfl
      have := congrArg List.length heq
      simp [hlen] at this
    have hprefix : t.take 2 = c := by rw [← heq, ← hlen, List.take_left]
    have hfirst : (t.take 4).take 2 ≠ str "00" := by
      rw [List.take_take, Nat.min_eq_left (by omega), hprefix]
      exact h
    have hagain := again_cons (by omega : 0 < 4) hne
    rw [withoutPrefix_neg hfirst] at hagain
    rw [hagain] at heq
    have hlength := congrArg List.length heq
    have hle := (length_again (by omega : 0 < 4) (t.drop 4)).1
    simp only [List.length_append, List.length_take, List.length_drop] at hlength hle
    -- the next piece is the same digits twice
    obtain ⟨x, y, rfl⟩ := List.length_eq_two.1 hlen
    obtain ⟨p, q, r, s, rest, rfl⟩ : ∃ p q r s rest, t = p :: q :: r :: s :: rest :=
      match t, hlength, hle with
      | p :: q :: r :: s :: rest, _, _ => ⟨p, q, r, s, rest, rfl⟩
      | [], h, _ | [_], h, _ | [_, _], h, _ | [_, _, _], h, _ => by simp at h
    obtain ⟨rfl, rfl, rfl, rfl, hrest⟩ : x = p ∧ y = q ∧ p = r ∧ q = s ∧
        x :: y :: again 4 rest = rest := by
      simp only [List.take_succ_cons, List.take_zero, List.drop_succ_cons, List.drop_zero,
        List.cons_append, List.nil_append, List.cons.injEq] at heq
      obtain ⟨rfl, rfl, rfl, rfl, hrest⟩ := heq
      exact ⟨rfl, rfl, rfl, rfl, hrest⟩
    have hshorter : rest.length < n := by
      rw [← hn]
      simp only [List.length_cons]
      omega
    exact ih _ hshorter rest rfl hrest

/-- **The prefixes lost make up for the first piece**: in pieces of four, six
zeros and no further piece with a prefix; in pieces of six, fourteen zeros. -/
def MakesUp (limit : ℕ) (t : CString) : Prop :=
  limit = 4 ∧ t.take 6 = str "000000" ∧ (∀ piece ∈ pieces 4 (t.drop 8), piece.take 2 ≠ str "00") ∨
    limit = 6 ∧ t.take 14 = str "00000000000000"

/-- A prefix in front, in pieces of four. -/
theorem again_four (u : CString) :
    again 4 (chr '0' :: chr '0' :: u) = u.take 2 ++ again 4 (u.drop 2) := by
  rw [again_cons (by omega) (List.cons_ne_nil _ _)]
  exact congrArg (· ++ again 4 (u.drop 2)) (withoutPrefix_pos rfl)

theorem four_iff (a b : CChar) (r : CString) : a :: b :: again 4 r = r ↔
    (a :: b :: r).take 4 = str "0000" ∧ ∀ piece ∈ pieces 4 (r.drop 4), piece.take 2 ≠ str "00" := by
  have hrest : ∀ u : CString, u.take 2 ++ again 4 (u.drop 2) = u ↔
      ∀ piece ∈ pieces 4 (u.drop 2), piece.take 2 ≠ str "00" := by
    intro u
    rw [← again_eq_self_iff (by omega)]
    refine ⟨fun h => List.append_cancel_left (h.trans (List.take_append_drop 2 u).symm), fun h => ?_⟩
    rw [h, List.take_append_drop]
  constructor
  · intro heq
    have hab : [a, b] = str "00" := by
      by_contra hne
      exact two_append_again_ne rfl hne r heq
    obtain ⟨rfl, rfl⟩ : a = chr '0' ∧ b = chr '0' := by simpa [str] using hab
    obtain ⟨u, rfl⟩ : ∃ u, r = chr '0' :: chr '0' :: u := ⟨_, heq.symm⟩
    rw [again_four, List.cons.injEq, List.cons.injEq] at heq
    exact ⟨rfl, (hrest u).1 heq.2.2⟩
  · rintro ⟨hzeros, hnone⟩
    obtain ⟨rfl, rfl, u, rfl⟩ : a = chr '0' ∧ b = chr '0' ∧ ∃ u, r = chr '0' :: chr '0' :: u :=
      match r, hzeros with
      | [], h | [_], h => by simp [str] at h
      | x :: y :: u, h => by
        obtain ⟨ha, hb, hx, hy⟩ : a = chr '0' ∧ b = chr '0' ∧ x = chr '0' ∧ y = chr '0' := by
          simpa [str] using h
        exact ⟨ha, hb, u, by rw [hx, hy]⟩
    rw [again_four, (hrest u).2 hnone]

/-- A prefix in front of each of two pieces of six. -/
theorem again_six {x y p q : CChar} {u : CString} (hu : u.length ≤ 4) :
    again 6 (chr '0' :: chr '0' :: x :: y :: p :: q :: chr '0' :: chr '0' :: u) =
      x :: y :: p :: q :: u := by
  have hshort : (chr '0' :: chr '0' :: u).length ≤ 6 := by
    simp only [List.length_cons]
    omega
  have hone : withoutPrefix [chr '0', chr '0', x, y, p, q] = [x, y, p, q] := withoutPrefix_pos rfl
  have htwo : withoutPrefix (chr '0' :: chr '0' :: u) = u := withoutPrefix_pos rfl
  rw [again_cons (by omega) (List.cons_ne_nil _ _)]
  simp only [List.take_succ_cons, List.take_zero, List.drop_succ_cons, List.drop_zero]
  rw [again_short (by omega) hshort, hone, htwo]
  rfl

theorem exists_eight {r : CString} (h : 8 ≤ r.length) :
    ∃ x₀ x₁ x₂ x₃ x₄ x₅ x₆ x₇ u, r = x₀ :: x₁ :: x₂ :: x₃ :: x₄ :: x₅ :: x₆ :: x₇ :: u :=
  match r, h with
  | x₀ :: x₁ :: x₂ :: x₃ :: x₄ :: x₅ :: x₆ :: x₇ :: u, _ =>
    ⟨x₀, x₁, x₂, x₃, x₄, x₅, x₆, x₇, u, rfl⟩

theorem six_iff (a b c d : CChar) {r : CString} (hr : r.length ≤ 11) :
    a :: b :: c :: d :: again 6 r = r ↔
      (a :: b :: c :: d :: r).take 12 = str "000000000000" := by
  constructor
  · intro heq
    -- both pieces have lost a prefix
    have hne : r ≠ [] := by
      rintro rfl
      exact absurd heq (List.cons_ne_nil _ _)
    have hlast : (r.drop 6).length ≤ 6 := by
      rw [List.length_drop]
      omega
    have hagain := again_cons (by omega : 0 < 6) hne
    rw [again_short (by omega) hlast] at hagain
    have hlength := congrArg List.length heq
    rw [hagain] at hlength
    simp only [List.length_cons, List.length_append, length_withoutPrefix, List.length_take,
      List.length_drop] at hlength
    have hone : (r.take 6).take 2 = str "00" := by
      by_contra h
      rw [if_neg h] at hlength
      split_ifs at hlength
      all_goals omega
    have htwo : (r.drop 6).take 2 = str "00" := by
      by_contra h
      rw [if_neg h] at hlength
      split_ifs at hlength
      all_goals omega
    have hlong := length_prefix htwo
    rw [List.length_drop] at hlong
    obtain ⟨x₀, x₁, x, y, p, q, x₂, x₃, u, rfl⟩ := exists_eight (r := r) (by omega)
    obtain ⟨rfl, rfl⟩ : x₀ = chr '0' ∧ x₁ = chr '0' := by simpa [str] using hone
    obtain ⟨rfl, rfl⟩ : x₂ = chr '0' ∧ x₃ = chr '0' := by simpa [str] using htwo
    have hu : u.length ≤ 4 := by
      simp only [List.length_cons] at hr
      omega
    rw [again_six hu] at heq
    simp only [List.cons.injEq, and_true] at heq
    obtain ⟨rfl, rfl, rfl, rfl, rfl, rfl, rfl, rfl⟩ := heq
    rfl
  · intro hzeros
    have hlong := congrArg List.length hzeros
    have htwelve : (str "000000000000").length = 12 := rfl
    rw [List.length_take, htwelve] at hlong
    simp only [List.length_cons] at hlong
    obtain ⟨x₀, x₁, x, y, p, q, x₂, x₃, u, rfl⟩ := exists_eight (r := r) (by omega)
    have hu : u.length ≤ 4 := by
      simp only [List.length_cons] at hr
      omega
    obtain ⟨rfl, rfl, rfl, rfl, rfl, rfl, rfl, rfl, rfl, rfl, rfl, rfl⟩ :
        a = chr '0' ∧ b = chr '0' ∧ c = chr '0' ∧ d = chr '0' ∧ x₀ = chr '0' ∧ x₁ = chr '0' ∧
          x = chr '0' ∧ y = chr '0' ∧ p = chr '0' ∧ q = chr '0' ∧ x₂ = chr '0' ∧ x₃ = chr '0' := by
      simpa [str] using hzeros
    rw [again_six hu]

theorem first_twice_iff (hlimit : 0 < limit) (hlt : limit < t.length) (hfew : t.length ≤ 17) :
    (if t.take limit = str "00" then [] else t.take limit) ++ again limit t = t ↔
      MakesUp limit t := by
  have hne : t ≠ [] := List.ne_nil_of_length_pos (by omega)
  have hlen : (t.take limit).length = limit := by
    rw [List.length_take]
    omega
  by_cases hprefix : (t.take limit).take 2 = str "00"
  swap
  · -- nothing is lost of the first piece
    have hpiece : t.take limit ≠ str "00" := by
      intro h
      rw [h] at hprefix
      exact hprefix rfl
    rw [if_neg hpiece]
    refine ⟨fun h => absurd h (append_again_ne hlimit hlen hprefix t), ?_⟩
    rintro (⟨rfl, hzeros, -⟩ | ⟨rfl, hzeros⟩)
    · have := congrArg (List.take 2) hzeros
      rw [List.take_take] at this hprefix
      exact absurd this hprefix
    · have := congrArg (List.take 2) hzeros
      rw [List.take_take] at this hprefix
      exact absurd this hprefix
  · have htwo := length_prefix hprefix
    rw [hlen] at htwo
    have hsplit := List.take_append_drop limit t
    have hrest : (t.drop limit).length = t.length - limit := List.length_drop
    obtain ⟨hle, heven, hmost⟩ := length_again hlimit (t.drop limit)
    rw [hrest] at hle heven hmost
    rw [again_cons hlimit hne, withoutPrefix_pos hprefix]
    rcases Nat.eq_or_lt_of_le htwo with rfl | hlong
    · -- the first piece is the prefix alone
      have hpiece : t.take 2 = str "00" := by rwa [List.take_take] at hprefix
      rw [if_pos hpiece]
      refine ⟨fun heq => ?_, fun h => ?_⟩
      · have hlength := congrArg List.length heq
        simp only [List.nil_append, List.length_append, List.length_drop, List.length_take] at hlength
        omega
      · rcases h with ⟨h, -⟩ | ⟨h, -⟩ <;> omega
    have hpiece : t.take limit ≠ str "00" := by
      intro h
      have hlength := congrArg List.length h
      have hzz : (str "00").length = 2 := rfl
      omega
    rw [if_neg hpiece]
    have hback : t.take limit ++ ((t.take limit).drop 2 ++ again limit (t.drop limit)) = t ↔
        (t.take limit).drop 2 ++ again limit (t.drop limit) = t.drop limit := by
      refine ⟨fun h => List.append_cancel_left (h.trans hsplit.symm), fun h => ?_⟩
      rw [h, hsplit]
    rw [hback]
    by_cases hfour : limit = 4
    · subst hfour
      obtain ⟨x₀, x₁, a, b, r, rfl⟩ : ∃ x₀ x₁ a b r, t = x₀ :: x₁ :: a :: b :: r :=
        match t, hlt with
        | x₀ :: x₁ :: a :: b :: r, _ => ⟨x₀, x₁, a, b, r, rfl⟩
      obtain ⟨rfl, rfl⟩ : x₀ = chr '0' ∧ x₁ = chr '0' := by simpa [str] using hprefix
      refine (four_iff a b r).trans ?_
      simp [MakesUp, str]
    · by_cases hsix : limit = 6
      · subst hsix
        obtain ⟨x₀, x₁, a, b, c, d, r, rfl⟩ :
            ∃ x₀ x₁ a b c d r, t = x₀ :: x₁ :: a :: b :: c :: d :: r :=
          match t, hlt with
          | x₀ :: x₁ :: a :: b :: c :: d :: r, _ => ⟨x₀, x₁, a, b, c, d, r, rfl⟩
        obtain ⟨rfl, rfl⟩ : x₀ = chr '0' ∧ x₁ = chr '0' := by simpa [str] using hprefix
        have hr : r.length ≤ 11 := by
          simp only [List.length_cons] at hfew
          omega
        refine (six_iff a b c d hr).trans ?_
        simp [MakesUp, str]
      · refine ⟨fun heq => ?_, fun h => ?_⟩
        · -- as many digits have to be lost as the first piece brings
          have hlength := congrArg List.length heq
          rw [List.length_append, List.length_drop, hlen, hrest] at hlength
          have hbound : limit ≤ 16 := by omega
          interval_cases limit <;> omega
        · rcases h with ⟨h, -⟩ | ⟨h, -⟩
          · exact absurd h hfour
          · exact absurd h hsix

end Isup

end Trismedia
