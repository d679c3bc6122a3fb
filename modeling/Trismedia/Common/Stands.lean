import Mathlib.Data.List.Basic
/-!
# Where data stand in a block

`Stands block i data` says that `data` is what the block has from `i` on, for
its length. A reader that advances over what it reads is followed by splitting
what stands there.
-/


variable {α : Type*}

/-- `data` stands in the block from `i` on. -/
def Stands (block : List α) (i : ℕ) (data : List α) : Prop := data <+: block.drop i

namespace Stands

variable {block data a b pre post : List α} {x : α} {i : ℕ}

theorem mid : Stands (pre ++ data ++ post) pre.length data := by
  unfold Stands
  rw [List.append_assoc, List.drop_left]
  exact List.prefix_append _ _

theorem self (block : List α) : Stands block 0 block := List.prefix_rfl

theorem nil : Stands block i [] := List.nil_prefix

theorem left (h : Stands block i (a ++ b)) : Stands block i a := (List.prefix_append a b).trans h

theorem right (h : Stands block i (a ++ b)) : Stands block (i + a.length) b := by
  obtain ⟨post, hpost⟩ := h
  unfold Stands
  rw [← List.drop_drop, ← hpost, List.append_assoc, List.drop_left]
  exact List.prefix_append _ _

theorem head (h : Stands block i (x :: data)) : block[i]? = some x := by
  obtain ⟨post, hpost⟩ := h
  rw [← Nat.add_zero i, ← List.getElem?_drop, ← hpost]
  rfl

theorem tail (h : Stands block i (x :: data)) : Stands block (i + 1) data := by
  have hsplit : x :: data = [x] ++ data := rfl
  rw [hsplit] at h
  exact h.right

/-- The data read where they stand. -/
theorem take (h : Stands block i data) : (block.drop i).take data.length = data := by
  obtain ⟨post, hpost⟩ := h
  rw [← hpost, List.take_left]

theorem length_le (h : Stands block i data) (hi : i ≤ block.length) :
    i + data.length ≤ block.length := by
  have hle := List.IsPrefix.length_le h
  rw [List.length_drop] at hle
  omega

theorem lt_length (h : Stands block i (x :: data)) : i + (data.length + 1) ≤ block.length := by
  have hle := List.IsPrefix.length_le h
  rw [List.length_drop, List.length_cons] at hle
  omega

end Stands
