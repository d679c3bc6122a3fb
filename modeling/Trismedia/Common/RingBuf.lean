import Mathlib.Data.List.GetD
import Mathlib.Data.Nat.ModEq
import Mathlib.Logic.Function.Basic
/-!
# A ring of cells

A buffer of `n` cells holds a list from the cell `r % n` on, and what the
list leaves free holds the value `empty`. Writing behind the list and
emptying its first cell keep that.
-/


/-- **`content` stands in the ring from position `r` on.** -/
structure RingBuf {β : Type*} (n : ℕ) (empty : β) (buf : ℕ → β) (r : ℕ) (content : List β) :
    Prop where
  le : content.length ≤ n
  cell : ∀ k < n, buf ((r + k) % n) = content.getD k empty

namespace RingBuf

variable {β : Type*} {n r : ℕ} {empty b : β} {buf : ℕ → β} {content : List β}

theorem nil (h : ∀ i < n, buf i = empty) (r : ℕ) : RingBuf n empty buf r [] := by
  refine ⟨Nat.zero_le n, fun k hk => ?_⟩
  rw [h _ (Nat.mod_lt _ (by omega)), List.getD_nil]

theorem add_mod_inj {j k : ℕ} (hj : j < n) (hk : k < n) (h : (r + j) % n = (r + k) % n) :
    j = k := by
  have hmod : j ≡ k [MOD n] := Nat.ModEq.add_left_cancel' r h
  rw [Nat.ModEq, Nat.mod_eq_of_lt hj, Nat.mod_eq_of_lt hk] at hmod
  exact hmod

theorem mod_succ (n i : ℕ) : (i % n + 1) % n = (i + 1) % n := by
  rw [Nat.add_mod, Nat.mod_mod, ← Nat.add_mod]

/-- A cell of the list. -/
theorem get (h : RingBuf n empty buf r content) {k : ℕ} (hk : k < content.length) :
    buf ((r + k) % n) = content[k] := by
  have hle := h.le
  rw [h.cell k (by omega), List.getD_eq_getElem _ _ hk]

theorem get_drop (h : RingBuf n empty buf r content) {k : ℕ} {l : List β}
    (hk : content.drop k = b :: l) : buf ((r + k) % n) = b := by
  have hlt : k < content.length := by
    by_contra hge
    rw [List.drop_eq_nil_of_le (by omega)] at hk
    cases hk
  rw [h.get hlt]
  rw [List.drop_eq_getElem_cons hlt] at hk
  exact (List.cons.inj hk).1

/-- A cell behind the list. -/
theorem free (h : RingBuf n empty buf r content) {k : ℕ} (hk : content.length ≤ k) (hkn : k < n) :
    buf ((r + k) % n) = empty := by
  rw [h.cell k hkn, List.getD_eq_default _ _ hk]

/-- **One more value behind the list.** -/
theorem push (h : RingBuf n empty buf r content) (hlt : content.length < n) (b : β) :
    RingBuf n empty (Function.update buf ((r + content.length) % n) b) r (content ++ [b]) := by
  refine ⟨by rw [List.length_append, List.length_singleton]; omega, fun k hk => ?_⟩
  by_cases heq : k = content.length
  · subst heq
    rw [Function.update_self, List.getD_append_right _ _ _ _ (Nat.le_refl _), Nat.sub_self,
      List.getD_cons_zero]
  · have hne : (r + k) % n ≠ (r + content.length) % n := fun hmod => heq (add_mod_inj hk hlt hmod)
    rw [Function.update_of_ne hne, h.cell k hk]
    by_cases hk' : k < content.length
    · rw [List.getD_append _ _ _ _ hk']
    · rw [List.getD_eq_default _ _ (by omega), List.getD_append_right _ _ _ _ (by omega)]
      obtain ⟨m, hm⟩ : ∃ m, k - content.length = m + 1 := ⟨k - content.length - 1, by omega⟩
      rw [hm, List.getD_cons_succ, List.getD_nil]

/-- **The first value is taken out.** -/
theorem pop (h : RingBuf n empty buf r (b :: content)) :
    RingBuf n empty (Function.update buf (r % n) empty) (r + 1) content := by
  have hle := h.le
  rw [List.length_cons] at hle
  refine ⟨by omega, fun k hk => ?_⟩
  by_cases heq : k + 1 = n
  · have hmod : (r + 1 + k) % n = r % n := by
      rw [show r + 1 + k = r + n by omega, Nat.add_mod_right]
    rw [hmod, Function.update_self, List.getD_eq_default _ _ (by omega)]
  · have hne : (r + 1 + k) % n ≠ r % n := by
      intro hmod
      have hmod' : (r + (k + 1)) % n = (r + 0) % n := by
        rw [show r + (k + 1) = r + 1 + k by omega]
        exact hmod
      have hzero := add_mod_inj (by omega) (by omega) hmod'
      omega
    rw [Function.update_of_ne hne, show r + 1 + k = r + (k + 1) by omega,
      h.cell (k + 1) (by omega), List.getD_cons_succ]

theorem head (h : RingBuf n empty buf r (b :: content)) : buf (r % n) = b := by
  have hpos : 0 < (b :: content).length := Nat.succ_pos _
  have hget := h.get hpos
  rwa [Nat.add_zero] at hget

end RingBuf
