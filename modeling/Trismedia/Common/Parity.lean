import Mathlib.Data.List.Nodup
/-!
# Parity

The parity of some values under an operation for which each value is its
own inverse, as exclusive or is. One value that is missing is what the
parity and the other values make together.
-/


namespace Parity

variable {α ι : Type*} {m : α → α → α} {z : α} {f g h : ι → α} {l : List ι} {n k : ι}

/-- The parity of the values of a list. -/
def parity (m : α → α → α) (z : α) (h : ι → α) (l : List ι) : α :=
  l.foldl (fun b k => m b (h k)) z

variable [Std.Associative m] [Std.Commutative m] [Std.LawfulCommIdentity m z]

/-- A fold that starts anywhere. -/
theorem foldl_eq (h : ι → α) (l : List ι) (b : α) :
    l.foldl (fun b k => m b (h k)) b = m b (parity m z h l) := by
  unfold parity
  induction l generalizing b with
  | nil => exact (Std.LawfulRightIdentity.right_id b).symm
  | cons k l ih =>
    have hz : m z (h k) = h k := Std.LawfulLeftIdentity.left_id _
    rw [List.foldl_cons, List.foldl_cons, ih (m b (h k)), ih (m z (h k)), hz]
    exact Std.Associative.assoc b (h k) _

theorem parity_cons : parity m z h (k :: l) = m (h k) (parity m z h l) := by
  have hz : m z (h k) = h k := Std.LawfulLeftIdentity.left_id _
  have hstart := foldl_eq (m := m) (z := z) h l (h k)
  rw [← hstart]
  unfold parity
  rw [List.foldl_cons, hz]

/-- The parities of two families. -/
theorem parity_op : m (parity m z f l) (parity m z g l) =
    parity m z (fun k => m (f k) (g k)) l := by
  induction l with
  | nil => exact Std.LawfulRightIdentity.right_id z
  | cons k l ih =>
    rw [parity_cons, parity_cons, parity_cons, ← ih]
    ac_rfl

theorem parity_zero (hz : ∀ k ∈ l, h k = z) : parity m z h l = z := by
  induction l with
  | nil => rfl
  | cons k l ih =>
    rw [parity_cons, hz k List.mem_cons_self, ih fun j hj => hz j (List.mem_cons_of_mem _ hj)]
    exact Std.LawfulRightIdentity.right_id z

/-- Only one value counts. -/
theorem parity_single (hnd : l.Nodup) (hn : n ∈ l) (hz : ∀ k ∈ l, k ≠ n → h k = z) :
    parity m z h l = h n := by
  induction l with
  | nil => cases hn
  | cons k l ih =>
    rw [List.nodup_cons] at hnd
    rw [parity_cons]
    rcases List.mem_cons.1 hn with rfl | hn
    · have hrest : parity m z h l = z := parity_zero fun j hj =>
        hz j (List.mem_cons_of_mem _ hj) fun heq => hnd.1 (heq ▸ hj)
      rw [hrest]
      exact Std.LawfulRightIdentity.right_id _
    · have hk : h k = z := hz k List.mem_cons_self fun heq => hnd.1 (heq ▸ hn)
      rw [hk, ih hnd.2 hn fun j hj => hz j (List.mem_cons_of_mem _ hj)]
      exact Std.LawfulLeftIdentity.left_id _

/-- **A missing value is repaired** from the parity and the others. -/
theorem repair (hself : ∀ a, m a a = z) (hnd : l.Nodup) (hn : n ∈ l) (hmiss : g n = z)
    (hrest : ∀ k ∈ l, k ≠ n → g k = f k) :
    l.foldl (fun b k => m b (g k)) (parity m z f l) = f n := by
  have hsum : m (parity m z f l) (parity m z g l) = parity m z (fun k => m (f k) (g k)) l :=
    parity_op
  rw [foldl_eq (z := z), hsum, parity_single hnd hn fun k hk hne => by
    rw [hrest k hk hne, hself], hmiss]
  exact Std.LawfulRightIdentity.right_id _

end Parity
