import Mathlib.Data.List.Basic
/-!
# Programs of atomic actions

A program over a shared state: it returns, or it does one atomic action on
the state and goes on with what the state was. `run` is the program on its
own; `Prog.Step` is one action of it, for a system that lets the actions of
several programs interleave.
-/


/-- A program that acts on a state `σ` and returns an `α`. -/
inductive Prog (σ α : Type*)
  | ret (a : α)
  | act (upd : σ → σ) (k : σ → Prog σ α)

namespace Prog

variable {σ α β : Type*}

/-- Reads what `f` shows of the state. -/
def read (f : σ → β) (k : β → Prog σ α) : Prog σ α := act id fun s => k (f s)

/-- Changes the state. -/
def write (f : σ → σ) (k : Prog σ α) : Prog σ α := act f fun _ => k

/-- **The program on its own.** -/
def run : Prog σ α → σ → α × σ
  | ret a, s => (a, s)
  | act upd k, s => run (k s) (upd s)

@[simp] theorem run_ret (a : α) (s : σ) : run (ret a) s = (a, s) := rfl

@[simp] theorem run_read (f : σ → β) (k : β → Prog σ α) (s : σ) :
    run (read f k) s = run (k (f s)) s := rfl

/-- **One atomic action**, from a program and a state to what is left of the
program and the state after it. -/
inductive Step : Prog σ α → σ → Prog σ α → σ → Prop
  | act (upd : σ → σ) (k : σ → Prog σ α) (s : σ) : Step (act upd k) s (k s) (upd s)

variable {p : Prog σ α} {s t : σ} {f : σ → β} {k : β → Prog σ α} {g : σ → σ} {a : α}

theorem step_read_iff {r : Prog σ α} : Step (read f k) s r t ↔ r = k (f s) ∧ t = s := by
  constructor
  · rintro ⟨⟩
    exact ⟨rfl, rfl⟩
  · intro h
    rw [h.1, h.2]
    exact Step.act id (fun s => k (f s)) s

theorem step_write_iff {q r : Prog σ α} : Step (write g q) s r t ↔ r = q ∧ t = g s := by
  constructor
  · rintro ⟨⟩
    exact ⟨rfl, rfl⟩
  · intro h
    rw [h.1, h.2]
    exact Step.act g (fun _ => q) s

theorem not_step_ret {r : Prog σ α} : ¬ Step (ret a) s r t := nofun

end Prog
