import Mathlib.Data.List.Basic
/-!
# Asking along a list

A question is put to the elements of a list in order, until an answer ends
it; some answers take the element out of the list. `scan` gives the
answers, what is left of the list, and whether an answer ended it.
-/


namespace Scan

variable {σ α β : Type*}

/-- How to ask: the answer and the next state, and what an answer does. -/
structure Question (σ α β : Type*) where
  ask : σ → α → β × σ
  ends : β → Prop
  drops : β → Prop
  [decEnds : DecidablePred ends]
  [decDrops : DecidablePred drops]

instance (q : Question σ α β) : DecidablePred q.ends := q.decEnds

instance (q : Question σ α β) : DecidablePred q.drops := q.decDrops

/-- What came of asking. -/
structure Answered (σ α β : Type*) where
  asked : List (α × β)
  left : List α
  state : σ
  ended : Bool

/-- **The scan** of a list. -/
def scan (q : Question σ α β) : σ → List α → Answered σ α β
  | s, [] => ⟨[], [], s, false⟩
  | s, a :: l =>
    if q.ends (q.ask s a).1 then
      ⟨[(a, (q.ask s a).1)], if q.drops (q.ask s a).1 then l else a :: l, (q.ask s a).2, true⟩
    else
      ⟨(a, (q.ask s a).1) :: (scan q (q.ask s a).2 l).asked,
        if q.drops (q.ask s a).1 then (scan q (q.ask s a).2 l).left
          else a :: (scan q (q.ask s a).2 l).left,
        (scan q (q.ask s a).2 l).state, (scan q (q.ask s a).2 l).ended⟩

variable {q : Question σ α β} {s : σ} {a : α} {l l₁ l₂ : List α} {asked asked' : List (α × β)}

theorem scan_cons_of_ends (h : q.ends (q.ask s a).1) : scan q s (a :: l) =
    ⟨[(a, (q.ask s a).1)], if q.drops (q.ask s a).1 then l else a :: l, (q.ask s a).2, true⟩ := by
  rw [scan, if_pos h]

theorem scan_cons_of_goes (h : ¬ q.ends (q.ask s a).1) : scan q s (a :: l) =
    ⟨(a, (q.ask s a).1) :: (scan q (q.ask s a).2 l).asked,
      if q.drops (q.ask s a).1 then (scan q (q.ask s a).2 l).left
        else a :: (scan q (q.ask s a).2 l).left,
      (scan q (q.ask s a).2 l).state, (scan q (q.ask s a).2 l).ended⟩ := by
  rw [scan, if_neg h]

/-- Only elements of the list are asked, in order. -/
theorem asked_prefix : ((scan q s l).asked.map Prod.fst) <+: l := by
  induction l generalizing s with
  | nil => exact List.prefix_rfl
  | cons a l ih =>
    by_cases h : q.ends (q.ask s a).1
    · rw [scan_cons_of_ends h]
      exact ⟨l, rfl⟩
    · rw [scan_cons_of_goes h]
      exact List.cons_prefix_cons.2 ⟨rfl, ih⟩

/-- The first element is asked. -/
theorem asked_ne_nil (h : l ≠ []) : (scan q s l).asked ≠ [] := by
  cases l with
  | nil => exact absurd rfl h
  | cons a l =>
    by_cases h : q.ends (q.ask s a).1
    · rw [scan_cons_of_ends h]
      exact List.cons_ne_nil _ _
    · rw [scan_cons_of_goes h]
      exact List.cons_ne_nil _ _

/-- **Nothing is asked after an answer that ends the scan.** -/
def Quiet (q : Question σ α β) (asked : List (α × β)) : Prop :=
  ∀ l₁ x l₂, asked = l₁ ++ x :: l₂ → q.ends x.2 → l₂ = []

theorem Quiet.nil : Quiet q [] := by
  intro l₁ x l₂ h
  simp at h

/-- What may follow: anything where nothing ended the scan, and nothing
where something did. -/
theorem Quiet.append (h : ∀ x ∈ asked, ¬ q.ends x.2) (h' : Quiet q asked') :
    Quiet q (asked ++ asked') := by
  intro l₁ x l₂ heq hx
  rcases List.append_eq_append_iff.1 heq with ⟨as, rfl, has⟩ | ⟨bs, rfl, hbs⟩
  · exact h' as x l₂ has hx
  · cases bs with
    | nil => exact h' [] x l₂ (by simpa using hbs.symm) hx
    | cons b bs =>
      rw [List.cons_append, List.cons.injEq] at hbs
      exact absurd (hbs.1 ▸ hx) (h b (by simp))

/-- Where an answer ended the scan, no more can be asked. -/
theorem Quiet.eq_of_prefix (h : Quiet q asked') (hpre : asked <+: asked')
    (hended : ∃ l x, asked = l ++ [x] ∧ q.ends x.2) : asked' = asked := by
  obtain ⟨l₂, rfl⟩ := hpre
  obtain ⟨l₁, x, rfl, hends⟩ := hended
  rw [h l₁ x l₂ (by simp) hends, List.append_nil]

/-- The last answer ended the scan, and no other did. -/
theorem scan_ended (h : (scan q s l).ended = true) :
    (∃ l₁ x, (scan q s l).asked = l₁ ++ [x] ∧ q.ends x.2) ∧ Quiet q (scan q s l).asked := by
  induction l generalizing s with
  | nil => cases h
  | cons a l ih =>
    by_cases hends : q.ends (q.ask s a).1
    · rw [scan_cons_of_ends hends]
      refine ⟨⟨[], _, rfl, hends⟩, fun l₁ x l₂ heq _ => ?_⟩
      cases l₁ with
      | nil => exact (List.cons.inj heq).2.symm
      | cons y l₁ => simp at heq
    · rw [scan_cons_of_goes hends] at h ⊢
      obtain ⟨⟨l₁, x, hx, hxends⟩, hquiet⟩ := ih h
      refine ⟨⟨(a, (q.ask s a).1) :: l₁, x, ?_, hxends⟩, ?_⟩
      · rw [hx, List.cons_append]
      · have hone : ∀ x ∈ [(a, (q.ask s a).1)], ¬ q.ends x.2 := by
          intro x hx
          rw [List.mem_singleton.1 hx]
          exact hends
        exact Quiet.append hone hquiet

/-- Where nothing ended the scan, all the list was asked. -/
theorem scan_goes (h : (scan q s l).ended = false) :
    (∀ x ∈ (scan q s l).asked, ¬ q.ends x.2) ∧ (scan q s l).asked.map Prod.fst = l := by
  induction l generalizing s with
  | nil => exact ⟨by simp [scan], rfl⟩
  | cons a l ih =>
    by_cases hends : q.ends (q.ask s a).1
    · rw [scan_cons_of_ends hends] at h
      cases h
    · rw [scan_cons_of_goes hends] at h ⊢
      obtain ⟨hnone, hall⟩ := ih h
      refine ⟨fun x hx => ?_, ?_⟩
      · rcases List.mem_cons.1 hx with rfl | hx
        · exact hends
        · exact hnone x hx
      · rw [List.map_cons, hall]

theorem scan_quiet : Quiet q (scan q s l).asked := by
  by_cases h : (scan q s l).ended = true
  · exact (scan_ended h).2
  · have hnone := (scan_goes (Bool.not_eq_true _ ▸ h)).1
    simpa using Quiet.append hnone (Quiet.nil (q := q))

variable (l₂) in
/-- **One list after the other**, where the first did not end the scan. -/
theorem scan_append_of_goes (h : (scan q s l₁).ended = false) : scan q s (l₁ ++ l₂) =
    ⟨(scan q s l₁).asked ++ (scan q (scan q s l₁).state l₂).asked,
      (scan q s l₁).left ++ (scan q (scan q s l₁).state l₂).left,
      (scan q (scan q s l₁).state l₂).state, (scan q (scan q s l₁).state l₂).ended⟩ := by
  induction l₁ generalizing s with
  | nil => rfl
  | cons a l₁ ih =>
    by_cases hends : q.ends (q.ask s a).1
    · rw [scan_cons_of_ends hends] at h
      cases h
    · rw [scan_cons_of_goes hends] at h
      rw [List.cons_append, scan_cons_of_goes hends, scan_cons_of_goes hends, ih h]
      by_cases hdrop : q.drops (q.ask s a).1
      · simp only [hdrop, if_true, List.cons_append]
      · simp only [hdrop, if_false, List.cons_append]

variable (l₂) in
/-- And where it did. -/
theorem scan_append_of_ended (h : (scan q s l₁).ended = true) : scan q s (l₁ ++ l₂) =
    ⟨(scan q s l₁).asked, (scan q s l₁).left ++ l₂, (scan q s l₁).state, true⟩ := by
  induction l₁ generalizing s with
  | nil => cases h
  | cons a l₁ ih =>
    by_cases hends : q.ends (q.ask s a).1
    · rw [List.cons_append, scan_cons_of_ends hends, scan_cons_of_ends hends]
      by_cases hdrop : q.drops (q.ask s a).1
      · simp only [hdrop, if_true]
      · simp only [hdrop, if_false, List.cons_append]
    · rw [scan_cons_of_goes hends] at h
      rw [List.cons_append, scan_cons_of_goes hends, scan_cons_of_goes hends, ih h]
      by_cases hdrop : q.drops (q.ask s a).1
      · simp only [hdrop, if_true]
      · simp only [hdrop, if_false, List.cons_append]

end Scan
