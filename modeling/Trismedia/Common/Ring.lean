import Mathlib.Data.List.Nodup
import Mathlib.Logic.Function.Basic
/-!
# Circular doubly linked lists in memory

A memory gives the cell at an address, or nothing. The list is written
from its items: `node x n p` is the cell of the item `x` with the address
`n` after it and `p` before it. An `Arc` is a part of the list between two
addresses, and a `Ring` an arc from its own end to its own beginning. A
ring may be read from any of its items, so an item is only ever put in
before the first one or taken out there.
-/


namespace Ring

variable {α β ν : Type*}

/-- The address of the first item, or else `q`. -/
def first (addr : β → α) : List β → α → α
  | [], q => q
  | x :: _, _ => addr x

/-- The address of the last item, or else `p`. -/
def last (addr : β → α) : List β → α → α
  | [], p => p
  | x :: xs, _ => last addr xs (addr x)

/-- **A part of a list**, with `p` before it and `q` after it. -/
def Arc (mem : α → Option ν) (addr : β → α) (node : β → α → α → ν) : α → List β → α → Prop
  | _, [], _ => True
  | p, x :: xs, q =>
    mem (addr x) = some (node x (first addr xs q) p) ∧ Arc mem addr node (addr x) xs q

/-- **A circular list.** -/
def IsRing (mem : α → Option ν) (addr : β → α) (node : β → α → α → ν) : List β → Prop
  | [] => True
  | x :: xs => Arc mem addr node (last addr xs (addr x)) (x :: xs) (addr x)

variable {mem mem' : α → Option ν} {addr : β → α} {node : β → α → α → ν}
variable {p q p' q' : α} {x y : β} {xs ys : List β}

@[simp] theorem first_append : first addr (xs ++ ys) q = first addr xs (first addr ys q) := by
  cases xs <;> rfl

@[simp] theorem last_append : last addr (xs ++ ys) p = last addr ys (last addr xs p) := by
  induction xs generalizing p with
  | nil => rfl
  | cons x xs ih => exact ih

theorem last_mem (addr : β → α) (xs : List β) (p : α) : last addr xs p = p ∨ last addr xs p ∈ xs.map addr := by
  induction xs generalizing p with
  | nil => exact .inl rfl
  | cons x xs ih =>
    right
    rw [last, List.map_cons, List.mem_cons]
    exact ih (addr x)

namespace Arc

theorem append : Arc mem addr node p (xs ++ ys) q ↔
    Arc mem addr node p xs (first addr ys q) ∧ Arc mem addr node (last addr xs p) ys q := by
  induction xs generalizing p with
  | nil => simp [Arc, last]
  | cons x xs ih => simp only [List.cons_append, Arc, ih, first_append, and_assoc, last]

/-- **Other cells may change.** -/
theorem frame (h : Arc mem addr node p xs q) (hm : ∀ x ∈ xs, mem' (addr x) = mem (addr x)) :
    Arc mem' addr node p xs q := by
  induction xs generalizing p with
  | nil => trivial
  | cons x xs ih =>
    refine ⟨(hm x List.mem_cons_self).trans h.1, ih h.2 fun y hy => ?_⟩
    exact hm y (List.mem_cons_of_mem _ hy)

/-- The cell of an item. -/
theorem cell (h : Arc mem addr node p xs q) (hx : x ∈ xs) :
    ∃ n p', mem (addr x) = some (node x n p') := by
  induction xs generalizing p with
  | nil => cases hx
  | cons y xs ih =>
    rcases List.mem_cons.1 hx with rfl | hx
    · exact ⟨_, _, h.1⟩
    · exact ih h.2 hx

variable [DecidableEq α]

/-- **What comes before the first item is changed.** -/
theorem setFirst (h : Arc mem addr node p (x :: xs) q) (hx : addr x ∉ xs.map addr) (p' : α) :
    Arc (Function.update mem (addr x) (some (node x (first addr xs q) p'))) addr node p'
      (x :: xs) q := by
  refine ⟨Function.update_self .., h.2.frame fun y hy => ?_⟩
  refine Function.update_of_ne (fun heq => hx ?_) ..
  exact heq ▸ List.mem_map_of_mem hy

/-- **What comes after the last item is changed.** -/
theorem setLast (h : Arc mem addr node p (xs ++ [x]) q) (hx : addr x ∉ xs.map addr) (q' : α) :
    Arc (Function.update mem (addr x) (some (node x q' (last addr xs p)))) addr node p
      (xs ++ [x]) q' := by
  rw [append] at h ⊢
  refine ⟨h.1.frame fun y hy => ?_, Function.update_self .., trivial⟩
  refine Function.update_of_ne (fun heq => hx ?_) ..
  exact heq ▸ List.mem_map_of_mem hy

end Arc

/-- A part that is not empty, from its end. -/
theorem exists_concat (addr : β → α) (x : β) (xs : List β) (p : α) :
    ∃ zs z, x :: xs = zs ++ [z] ∧ addr z = last addr (x :: xs) p := by
  rcases List.eq_nil_or_concat' (x :: xs) with hnil | ⟨zs, z, hzs⟩
  · cases hnil
  · refine ⟨zs, z, hzs, ?_⟩
    rw [hzs, last_append]
    rfl

theorem isRing_cons : IsRing mem addr node (x :: xs) ↔
    Arc mem addr node (last addr xs (addr x)) (x :: xs) (addr x) := Iff.rfl

namespace IsRing

/-- **A ring is read from any of its items.** -/
theorem rotate (h : IsRing mem addr node (xs ++ ys)) : IsRing mem addr node (ys ++ xs) := by
  cases xs with
  | nil => simpa using h
  | cons x xs =>
    cases ys with
    | nil => simpa using h
    | cons y ys =>
      have harc : Arc mem addr node (last addr (xs ++ y :: ys) (addr x))
          ((x :: xs) ++ (y :: ys)) (addr x) := h
      rw [Arc.append, last_append] at harc
      show Arc mem addr node (last addr (ys ++ x :: xs) (addr y)) ((y :: ys) ++ (x :: xs)) (addr y)
      rw [Arc.append, last_append]
      exact ⟨harc.2, harc.1⟩

theorem cell (h : IsRing mem addr node xs) (hx : x ∈ xs) :
    ∃ n p, mem (addr x) = some (node x n p) := by
  cases xs with
  | nil => cases hx
  | cons y xs => exact Arc.cell h hx

/-- The first item. -/
theorem head (h : IsRing mem addr node (x :: xs)) :
    mem (addr x) = some (node x (first addr xs (addr x)) (last addr xs (addr x))) := h.1

/-- **What comes before an item.** -/
theorem before (h : IsRing mem addr node (xs ++ y :: ys)) :
    ∃ n, mem (addr y) = some (node y n (last addr xs (last addr ys (addr y)))) := by
  have hrot := h.rotate.head
  rw [List.append_eq] at hrot
  rw [last_append] at hrot
  exact ⟨_, hrot⟩

theorem frame (h : IsRing mem addr node xs) (hm : ∀ x ∈ xs, mem' (addr x) = mem (addr x)) :
    IsRing mem' addr node xs := by
  cases xs with
  | nil => trivial
  | cons x xs => exact Arc.frame h hm

variable [DecidableEq α]

theorem singleton (x : β) :
    IsRing (Function.update mem (addr x) (some (node x (addr x) (addr x)))) addr node [x] :=
  ⟨Function.update_self .., trivial⟩

/-- **An item is put in** before the first one: its cell is written, then
the first one's, then the last one's. -/
theorem insert (h : IsRing mem addr node (y :: ys)) (hnd : ((y :: ys).map addr).Nodup)
    (hx : addr x ∉ (y :: ys).map addr) :
    ∃ mem₁ mem₂ z n p, mem₁ = Function.update mem (addr x)
        (some (node x (addr y) (last addr ys (addr y)))) ∧
      mem₁ (addr y) = mem (addr y) ∧
      mem₂ = Function.update mem₁ (addr y) (some (node y (first addr ys (addr y)) (addr x))) ∧
      mem₂ (last addr ys (addr y)) = some (node z n p) ∧
      IsRing (Function.update mem₂ (last addr ys (addr y)) (some (node z (addr x) p))) addr node
        (x :: y :: ys) := by
  have harc : Arc mem addr node (last addr ys (addr y)) (y :: ys) (addr y) := h
  have hne : ∀ z ∈ y :: ys, addr z ≠ addr x := by
    intro z hz heq
    exact hx (heq ▸ List.mem_map_of_mem hz)
  -- the new cell is nowhere in the ring
  have harc₁ : Arc (Function.update mem (addr x) (some (node x (addr y) (last addr ys (addr y)))))
      addr node (last addr ys (addr y)) (y :: ys) (addr y) :=
    harc.frame fun z hz => Function.update_of_ne (hne z hz) ..
  have hndy := (List.nodup_cons.1 hnd).1
  have harc₂ := harc₁.setFirst hndy (addr x)
  obtain ⟨zs, z, hzs, hz⟩ := exists_concat addr y ys (addr x)
  have hzp : addr z = last addr ys (addr y) := hz
  have hzn : addr z ∉ zs.map addr := by
    rw [hzs, List.map_append, List.nodup_append] at hnd
    intro hmem
    exact hnd.2.2 _ hmem (addr z) (by simp) rfl
  have hzmem : z ∈ y :: ys := by simp [hzs]
  have hzarc := harc₂
  rw [hzs] at hzarc
  have hcell := (Arc.append.1 hzarc).2.1
  have harc₃ := hzarc.setLast hzn (addr x)
  refine ⟨_, _, z, addr y, last addr zs (addr x), rfl,
    Function.update_of_ne (hne y List.mem_cons_self) .., rfl, ?_, ?_⟩
  · rw [← hzp] at hcell ⊢
    exact hcell
  · rw [← hzp] at harc₃ ⊢
    refine ⟨?_, ?_⟩
    · rw [Function.update_of_ne (hne z hzmem).symm,
        Function.update_of_ne (hne y List.mem_cons_self).symm, Function.update_self, hzp]
      rfl
    · rw [hzs]
      exact harc₃

/-- **The first item is taken out**: the last one's cell is written, then
the second one's. -/
theorem remove (h : IsRing mem addr node (x :: y :: ys)) (hnd : ((x :: y :: ys).map addr).Nodup) :
    ∃ mem₁ z n p n', mem (last addr ys (addr y)) = some (node z n p) ∧
      mem₁ = Function.update mem (last addr ys (addr y)) (some (node z (addr y) p)) ∧
      mem₁ (addr x) = mem (addr x) ∧
      mem₁ (addr y) = some (node y n' (addr x)) ∧
      IsRing (Function.update mem₁ (addr y) (some (node y n' (last addr ys (addr y))))) addr node
        (y :: ys) := by
  have harc : Arc mem addr node (addr x) (y :: ys) (addr x) := h.2
  rw [List.map_cons, List.nodup_cons] at hnd
  obtain ⟨hx, hnd⟩ := hnd
  have hne : ∀ z ∈ y :: ys, addr z ≠ addr x := by
    intro z hz heq
    exact hx (heq ▸ List.mem_map_of_mem hz)
  obtain ⟨zs, z, hzs, hz⟩ := exists_concat addr y ys (addr x)
  have hzp : addr z = last addr ys (addr y) := hz
  have hzn : addr z ∉ zs.map addr := by
    have hnd' := hnd
    rw [hzs, List.map_append, List.nodup_append] at hnd'
    intro hmem
    exact hnd'.2.2 _ hmem (addr z) (by simp) rfl
  have hzmem : z ∈ y :: ys := by simp [hzs]
  have hzarc := harc
  rw [hzs] at hzarc
  have hcell := (Arc.append.1 hzarc).2.1
  have harc₁ := hzarc.setLast hzn (addr y)
  rw [← hzs] at harc₁
  have harc₂ := harc₁.setFirst (List.nodup_cons.1 hnd).1 (last addr ys (addr y))
  refine ⟨_, z, addr x, last addr zs (addr x), first addr ys (addr y), ?_, rfl, ?_, ?_, ?_⟩
  · rw [← hzp]
    exact hcell
  · rw [← hzp]
    exact Function.update_of_ne (hne z hzmem).symm ..
  · rw [← hzp]
    exact harc₁.1
  · rw [isRing_cons]
    rw [← hzp] at harc₂ ⊢
    exact harc₂

end IsRing

end Ring
