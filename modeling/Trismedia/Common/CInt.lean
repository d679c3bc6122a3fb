import Mathlib.Algebra.Group.Nat.Defs
import Mathlib.Algebra.Order.Group.Int
import Mathlib.Algebra.Order.Group.Unbundled.Int
import Mathlib.Algebra.Order.Group.Abs
/-!
# The `int` of C

An `int` is an integer from `intMin` to `intMax`. Arithmetic that leaves
the range comes back into it modulo `2 ^ 32`, `abs` included; the
remainder `%` truncates and traps on a zero divisor and on
`INT_MIN % -1`.
-/


namespace CInt

def intMin : ℤ := -2147483648

def intMax : ℤ := 2147483647

/-- The values of the type `int`. -/
def InInt (x : ℤ) : Prop := intMin ≤ x ∧ x ≤ intMax

instance : DecidablePred InInt := fun x =>
  inferInstanceAs (Decidable (intMin ≤ x ∧ x ≤ intMax))

/-- What an `int` holds of a result that may not fit. -/
def wrapInt (x : ℤ) : ℤ := (x + 2147483648) % 4294967296 - 2147483648

/-- `abs`. -/
def cAbs (x : ℤ) : ℤ := wrapInt |x|

/-- `a % b`, where the processor does not trap. -/
def cRem (a b : ℤ) : Option ℤ :=
  if b = 0 ∨ (a = intMin ∧ b = -1) then none else some (a.tmod b)

variable {a b x : ℤ}

theorem wrapInt_of_inInt (h : InInt x) : wrapInt x = x := by
  obtain ⟨h1, h2⟩ := h
  unfold intMin at h1
  unfold intMax at h2
  unfold wrapInt
  omega

theorem wrapInt_inInt (x : ℤ) : InInt (wrapInt x) := by
  unfold InInt intMin intMax wrapInt
  omega

theorem cAbs_of_ne (h : InInt x) (hne : x ≠ intMin) : cAbs x = |x| := by
  refine wrapInt_of_inInt ?_
  have habs : |x| ≤ intMax := by
    obtain ⟨h1, h2⟩ := h
    unfold intMin at h1 hne
    unfold intMax at h2 ⊢
    exact abs_le.2 ⟨by omega, h2⟩
  exact ⟨le_trans (by decide) (abs_nonneg x), habs⟩

theorem cAbs_intMin : cAbs intMin = intMin := by decide

theorem cRem_of_nonneg (ha : 0 ≤ a) (hb : b ≠ 0) : cRem a b = some (a % b) := by
  have htrap : ¬ (b = 0 ∨ (a = intMin ∧ b = -1)) := by
    unfold intMin
    omega
  rw [cRem, if_neg htrap, Int.tmod_eq_emod_of_nonneg ha]

/-- The sign of the remainder is that of the dividend. -/
theorem cRem_of_neg (ha : a < 0) (hb : b ≠ 0) (htrap : ¬ (a = intMin ∧ b = -1)) :
    cRem a b = some (-(|a| % b)) := by
  have hneg : a.tmod b = -(|a| % b) := by
    rw [abs_of_neg ha, ← Int.tmod_eq_emod_of_nonneg (by omega), Int.neg_tmod, neg_neg]
  rw [cRem, if_neg (fun h => h.elim hb htrap), hneg]

end CInt
