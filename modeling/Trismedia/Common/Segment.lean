import Mathlib.Data.List.Basic
import Mathlib.Logic.Function.Basic
/-!
# Singly linked lists in memory

A memory gives the cell at an address, or nothing. `Linked` is what a
program that follows a link sees. `Seg` is the same list written from its
items: each stands at its address in the cell that `node` makes of it and
the address that comes next, so to insert, to remove or to exchange items
is to write the cells of the items around them.
-/


namespace Segment

variable {α β ν : Type*}

/-- **Following `link` from `p` visits `l`** and ends at a null pointer. -/
def Linked (mem : α → Option ν) (link : ν → Option α) : Option α → List (α × ν) → Prop
  | p, [] => p = none
  | p, (a, n) :: l => p = some a ∧ mem a = some n ∧ Linked mem link (link n) l

/-- The address of the first item, or else `q`. -/
def first (addr : β → α) : List β → Option α → Option α
  | [], q => q
  | x :: _, _ => some (addr x)

/-- The address of the last item, or else `q`. -/
def last (addr : β → α) : List β → Option α → Option α
  | [], q => q
  | x :: xs, _ => last addr xs (some (addr x))

/-- The items stand in memory, and the last one leads to `q`. -/
def Seg (mem : α → Option ν) (addr : β → α) (node : β → Option α → ν) :
    List β → Option α → Prop
  | [], _ => True
  | x :: xs, q => mem (addr x) = some (node x (first addr xs q)) ∧ Seg mem addr node xs q

/-- The addresses and the cells of the items. -/
def cells (addr : β → α) (node : β → Option α → ν) : List β → Option α → List (α × ν)
  | [], _ => []
  | x :: xs, q => (addr x, node x (first addr xs q)) :: cells addr node xs q

variable {mem mem' : α → Option ν} {addr : β → α} {node : β → Option α → ν}
variable {link : ν → Option α} {p q q' : Option α} {x : β} {xs ys : List β}

@[simp] theorem first_append : first addr (xs ++ ys) q = first addr xs (first addr ys q) := by
  cases xs <;> rfl

@[simp] theorem last_append : last addr (xs ++ ys) q = last addr ys (last addr xs q) := by
  induction xs generalizing q with
  | nil => rfl
  | cons x xs ih => exact ih

theorem seg_append : Seg mem addr node (xs ++ ys) q ↔
    Seg mem addr node xs (first addr ys q) ∧ Seg mem addr node ys q := by
  induction xs with
  | nil => simp [Seg]
  | cons x xs ih => simp only [List.cons_append, Seg, ih, first_append, and_assoc]

/-- **Other cells may change.** -/
theorem Seg.frame (h : Seg mem addr node xs q) (hm : ∀ x ∈ xs, mem' (addr x) = mem (addr x)) :
    Seg mem' addr node xs q := by
  induction xs with
  | nil => trivial
  | cons x xs ih =>
    refine ⟨(hm x List.mem_cons_self).trans h.1, ih h.2 fun y hy => ?_⟩
    exact hm y (List.mem_cons_of_mem _ hy)

theorem Seg.cell (h : Seg mem addr node xs q) (hx : x ∈ xs) :
    ∃ q', mem (addr x) = some (node x q') := by
  induction xs with
  | nil => cases hx
  | cons y xs ih =>
    rcases List.mem_cons.1 hx with rfl | hx
    · exact ⟨_, h.1⟩
    · exact ih h.2 hx

theorem Seg.snoc : Seg mem addr node (xs ++ [x]) q ↔
    Seg mem addr node xs (some (addr x)) ∧ mem (addr x) = some (node x q) := by
  rw [seg_append]
  simp [Seg, first]

/-- **The last item is made to lead elsewhere.** -/
theorem Seg.relink [DecidableEq α] (h : Seg mem addr node (xs ++ [x]) q) (hx : addr x ∉ xs.map addr) :
    Seg (Function.update mem (addr x) (some (node x q'))) addr node (xs ++ [x]) q' := by
  rw [Seg.snoc] at h ⊢
  refine ⟨h.1.frame fun y hy => ?_, Function.update_self ..⟩
  refine Function.update_of_ne (fun heq => hx ?_) ..
  exact heq ▸ List.mem_map_of_mem hy

theorem Seg.linked (hl : ∀ x q, link (node x q) = q) (h : Seg mem addr node xs none) :
    Linked mem link (first addr xs none) (cells addr node xs none) := by
  induction xs with
  | nil => rfl
  | cons x xs ih =>
    refine ⟨rfl, h.1, ?_⟩
    rw [hl]
    exact ih h.2

/-- What is read from the items is read from their cells. -/
theorem map_cells {γ : Type*} {f : α × ν → γ} {g : β → γ} (hf : ∀ x q, f (addr x, node x q) = g x) :
    (cells addr node xs q).map f = xs.map g := by
  induction xs with
  | nil => rfl
  | cons x xs ih => rw [cells, List.map_cons, List.map_cons, hf, ih]

end Segment
