import Mathlib.Data.List.Basic
/-!
# Traces of a labelled transition system

A system is a relation `step s e t`: from state `s`, event `e` leads to
`t`. A `Trace` is a finite run with the events it produced, oldest
first. This file packages the inductions every run argument uses: an
invariant of the steps is an invariant of the runs, a run splits at any
event, and a step-by-step simulation carries runs to runs.
-/


variable {σ τ ε δ : Type*}

/-- **A run and its events.** `Trace step s evs t` leads from `s` to `t`
by the events `evs`, oldest first. -/
inductive Trace (step : σ → ε → σ → Prop) (s : σ) : List ε → σ → Prop
  | nil : Trace step s [] s
  | snoc {t u : σ} {evs : List ε} {e : ε} :
      Trace step s evs t → step t e u → Trace step s (evs ++ [e]) u

namespace Trace

variable {step : σ → ε → σ → Prop} {s t u : σ} {evs evs' : List ε}

/-- **An invariant of the steps is an invariant of the runs.** The
invariant may speak about the events so far. -/
theorem inv {I : List ε → σ → Prop} (h : Trace step s evs t) (h0 : I [] s)
    (hstep : ∀ evs t e u, I evs t → step t e u → I (evs ++ [e]) u) : I evs t := by
  induction h with
  | nil => exact h0
  | snoc _ he ih => exact hstep _ _ _ _ ih he

/-- The same, for an invariant of the state alone. -/
theorem inv_state {I : σ → Prop} (h : Trace step s evs t) (h0 : I s)
    (hstep : ∀ t e u, I t → step t e u → I u) : I t :=
  h.inv (I := fun _ => I) h0 fun _ t e u => hstep t e u

/-- **Where a property is kept.** If a step keeps `P` exactly when it meets
`C`, the runs with `P` in every state are those whose steps all meet `C`.
`J` is an invariant of all steps. -/
theorem kept_iff_met {J P : σ → Prop} {C : σ → ε → Prop} (hJ : ∀ t e u, J t → step t e u → J u)
    (hP : ∀ t e u, J t → P t → step t e u → (P u ↔ C t e)) (hJs : J s) (hPs : P s) :
    Trace (fun t e u => step t e u ∧ P u) s evs t ↔
      Trace (fun t e u => step t e u ∧ C t e) s evs t := by
  constructor
  · intro h
    have hall : Trace (fun t e u => step t e u ∧ C t e) s evs t ∧ J t ∧ P t := by
      induction h with
      | nil => exact ⟨nil, hJs, hPs⟩
      | snoc _ he ih =>
        obtain ⟨hrun, hJt, hPt⟩ := ih
        have hC := (hP _ _ _ hJt hPt he.1).1 he.2
        exact ⟨hrun.snoc ⟨he.1, hC⟩, hJ _ _ _ hJt he.1, he.2⟩
    exact hall.1
  · intro h
    have hall : Trace (fun t e u => step t e u ∧ P u) s evs t ∧ J t ∧ P t := by
      induction h with
      | nil => exact ⟨nil, hJs, hPs⟩
      | snoc _ he ih =>
        obtain ⟨hrun, hJt, hPt⟩ := ih
        have hPu := (hP _ _ _ hJt hPt he.1).2 he.2
        exact ⟨hrun.snoc ⟨he.1, hPu⟩, hJ _ _ _ hJt he.1, hPu⟩
    exact hall.1

/-- The same, for a property `R` of the steps that leads to states with `P`. -/
theorem kept_iff_met_step {P : σ → Prop} {R : σ → ε → σ → Prop} {C : σ → ε → Prop}
    (hP : ∀ t e u, R t e u → P u)
    (hR : ∀ t e u, P t → step t e u → (R t e u ↔ C t e)) (hPs : P s) :
    Trace (fun t e u => step t e u ∧ R t e u) s evs t ↔
      Trace (fun t e u => step t e u ∧ C t e) s evs t := by
  constructor
  · intro h
    have hall : Trace (fun t e u => step t e u ∧ C t e) s evs t ∧ P t := by
      induction h with
      | nil => exact ⟨nil, hPs⟩
      | snoc _ he ih =>
        obtain ⟨hrun, hPt⟩ := ih
        exact ⟨hrun.snoc ⟨he.1, (hR _ _ _ hPt he.1).1 he.2⟩, hP _ _ _ he.2⟩
    exact hall.1
  · intro h
    have hall : Trace (fun t e u => step t e u ∧ R t e u) s evs t ∧ P t := by
      induction h with
      | nil => exact ⟨nil, hPs⟩
      | snoc _ he ih =>
        obtain ⟨hrun, hPt⟩ := ih
        have hRu := (hR _ _ _ hPt he.1).2 he.2
        exact ⟨hrun.snoc ⟨he.1, hRu⟩, hP _ _ _ hRu⟩
    exact hall.1

theorem append (h : Trace step s evs t) (h' : Trace step t evs' u) :
    Trace step s (evs ++ evs') u := by
  induction h' with
  | nil => rwa [List.append_nil]
  | snoc _ he ih =>
    rw [← List.append_assoc]
    exact ih.snoc he

/-- **A computed run.** What a list of moves leads to by a function that
makes steps is reached by a trace. -/
theorem of_foldlM {next : σ → δ → Option σ} (h : ∀ s a t, next s a = some t → ∃ e, step s e t)
    {l : List δ} (hl : l.foldlM next s = some t) : ∃ evs, Trace step s evs t := by
  induction l generalizing s with
  | nil =>
    obtain rfl : s = t := Option.some.inj hl
    exact ⟨[], nil⟩
  | cons a l ih =>
    rw [List.foldlM_cons] at hl
    obtain ⟨u, hu, hrest⟩ := Option.bind_eq_some_iff.1 hl
    obtain ⟨e, he⟩ := h s a u hu
    obtain ⟨evs, hevs⟩ := ih hrest
    exact ⟨[e] ++ evs, (nil.snoc he).append hevs⟩

theorem single {e : ε} (h : step s e t) : Trace step s [e] t := nil.snoc h

theorem cons {e : ε} (h : step s e t) (h' : Trace step t evs u) : Trace step s (e :: evs) u :=
  (single h).append h'

/-- **A run splits wherever its events do.** -/
theorem split (h : Trace step s (evs ++ evs') u) :
    ∃ t, Trace step s evs t ∧ Trace step t evs' u := by
  generalize hl : evs ++ evs' = l at h
  induction h generalizing evs' with
  | nil =>
    obtain ⟨rfl, rfl⟩ := List.append_eq_nil_iff.1 hl
    exact ⟨s, nil, nil⟩
  | @snoc t u l e ht he ih =>
    rcases List.eq_nil_or_concat' evs' with rfl | ⟨l', e', rfl⟩
    · rw [List.append_nil] at hl
      exact ⟨u, hl ▸ ht.snoc he, nil⟩
    · rw [← List.append_assoc] at hl
      obtain ⟨hl', he'⟩ := List.append_inj' hl rfl
      obtain ⟨m, h1, h2⟩ := ih hl'
      have hee : e' = e := by injection he'
      exact ⟨m, h1, h2.snoc (hee ▸ he)⟩

theorem eq_of_nil (h : Trace step s [] t) : t = s := by
  generalize hl : [] = l at h
  cases h with
  | nil => rfl
  | snoc _ _ => simp at hl

/-- A trace of one event is a step. -/
theorem step_of_single {e : ε} (h : Trace step s [e] t) : step s e t := by
  generalize hl : [e] = l at h
  cases h with
  | nil => cases hl
  | @snoc m _ l e' h0 he =>
    obtain ⟨rfl, rfl⟩ : [] = l ∧ e = e' := by
      have h2 : [] ++ [e] = l ++ [e'] := hl
      simpa using List.append_inj' h2 rfl
    rwa [← h0.eq_of_nil]

/-- **Simulation.** A relation kept by the steps, each concrete event
answered by an abstract step under its image, carries a run of the
concrete system to a run of the abstract one. -/
theorem simulate {astep : τ → δ → τ → Prop} {R : σ → τ → Prop} {f : ε → δ} {a : τ}
    (h : Trace step s evs t) (h0 : R s a)
    (hsim : ∀ t e u b, R t b → step t e u → ∃ c, astep b (f e) c ∧ R u c) :
    ∃ b, Trace astep a (evs.map f) b ∧ R t b := by
  induction h with
  | nil => exact ⟨a, nil, h0⟩
  | snoc _ he ih =>
    obtain ⟨b, hb, hR⟩ := ih
    obtain ⟨c, hc, hRc⟩ := hsim _ _ _ _ hR he
    refine ⟨c, ?_, hRc⟩
    rw [List.map_append]
    exact hb.snoc hc

end Trace
