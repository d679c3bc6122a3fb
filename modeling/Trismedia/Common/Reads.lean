import Mathlib.Data.List.Basic
import Mathlib.Logic.Function.Basic
/-!
# What a memory holds

A memory is a function from addresses. `Reads mem x data` says that `data` is
what it has from `x` on, and `slice mem x n` is what it has there. Data that
are put one after the other are read as one; a write elsewhere changes nothing.
-/


variable {α : Type*}

/-- `data` is what the memory has from `x` on. -/
def Reads (mem : ℕ → α) (x : ℕ) : List α → Prop
  | [] => True
  | c :: data => mem x = c ∧ Reads mem (x + 1) data

/-- What the memory has in `n` places from `x` on. -/
def slice (mem : ℕ → α) (x n : ℕ) : List α := (List.range n).map fun k => mem (x + k)

section Reads

variable {mem mem' : ℕ → α} {x i : ℕ} {a b data : List α} {c end_ : α}

theorem reads_append :
    Reads mem x (a ++ b) ↔ Reads mem x a ∧ Reads mem (x + a.length) b := by
  induction a generalizing x with
  | nil => simp [Reads]
  | cons c a ih =>
    have hx : x + 1 + a.length = x + (c :: a).length := by
      rw [List.length_cons]
      omega
    rw [List.cons_append, Reads, Reads, ih, hx, and_assoc]

theorem reads_concat : Reads mem x (data ++ [c]) ↔ Reads mem x data ∧ mem (x + data.length) = c := by
  rw [reads_append]
  exact and_congr_right fun _ => iff_of_eq (and_true _)

/-- What is read depends on its own places only. -/
theorem Reads.congr (h : Reads mem x data)
    (hsame : ∀ j, x ≤ j → j < x + data.length → mem' j = mem j) : Reads mem' x data := by
  induction data generalizing x with
  | nil => trivial
  | cons c data ih =>
    rw [List.length_cons] at hsame
    refine ⟨?_, ih h.2 fun j hj hlt => hsame j (by omega) (by omega)⟩
    rw [hsame x (Nat.le_refl x) (by omega)]
    exact h.1

/-- A write behind what is read. -/
theorem Reads.update (h : Reads mem x data) (hi : x + data.length ≤ i) :
    Reads (Function.update mem i c) x data := by
  refine h.congr fun j _ hlt => ?_
  rw [Function.update_of_ne (by omega)]

/-- One more place is written. -/
theorem Reads.snoc (h : Reads mem x data) :
    Reads (Function.update mem (x + data.length) c) x (data ++ [c]) := by
  rw [reads_concat]
  exact ⟨h.update (Nat.le_refl _), Function.update_self _ _ _⟩

theorem slice_length (mem : ℕ → α) (x n : ℕ) : (slice mem x n).length = n := by
  rw [slice, List.length_map, List.length_range]

theorem mem_slice {n : ℕ} (hi : i < n) : mem (x + i) ∈ slice mem x n :=
  List.mem_map.2 ⟨i, List.mem_range.2 hi, rfl⟩

theorem slice_succ (mem : ℕ → α) (x n : ℕ) : slice mem x (n + 1) = slice mem x n ++ [mem (x + n)] := by
  rw [slice, slice, List.range_succ, List.map_append]
  rfl

theorem reads_slice (mem : ℕ → α) (x n : ℕ) : Reads mem x (slice mem x n) := by
  induction n with
  | zero => trivial
  | succ n ih =>
    rw [slice_succ, reads_concat, slice_length]
    exact ⟨ih, rfl⟩

theorem Reads.slice_eq (h : Reads mem x data) : slice mem x data.length = data := by
  induction data generalizing x with
  | nil => rfl
  | cons c data ih =>
    have htail := ih h.2
    have hshift : ∀ k, mem (x + (k + 1)) = mem (x + 1 + k) := by
      intro k
      rw [show x + (k + 1) = x + 1 + k by omega]
    rw [slice] at htail ⊢
    rw [List.length_cons, List.range_succ_eq_map, List.map_cons, List.map_map]
    simp only [Function.comp_def, Nat.succ_eq_add_one, hshift, Nat.add_zero, h.1, htail]

/-- **A text that is ended** is read in one way. -/
theorem Reads.unique (ha : Reads mem x (a ++ [end_])) (hb : Reads mem x (b ++ [end_]))
    (hna : end_ ∉ a) (hnb : end_ ∉ b) : a = b := by
  induction a generalizing b x with
  | nil =>
    cases b with
    | nil => rfl
    | cons c b =>
      have hc : c = end_ := hb.1.symm.trans ha.1
      exact absurd (by rw [hc]; exact List.mem_cons_self) hnb
  | cons c a ih =>
    cases b with
    | nil =>
      have hc : c = end_ := ha.1.symm.trans hb.1
      exact absurd (by rw [hc]; exact List.mem_cons_self) hna
    | cons d b =>
      obtain rfl : c = d := ha.1.symm.trans hb.1
      rw [ih ha.2 hb.2 (fun hmem => hna (List.mem_cons_of_mem _ hmem))
        fun hmem => hnb (List.mem_cons_of_mem _ hmem)]

end Reads
