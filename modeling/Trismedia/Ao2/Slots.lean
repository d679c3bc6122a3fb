import Mathlib.Algebra.Order.Ring.Int
import Mathlib.Algebra.Order.Ring.Abs
import Trismedia.Ao2.Model
/-!
# Where a hash is linked and where it is searched

A link takes the bucket of `abs(hash)`, a search that of the signed hash,
and all buckets when that is negative. `SlotOk` is the condition under
which the first is inside the array and the second goes there: the hash
`INT_MIN` has no absolute value, and a number of buckets from `2 ^ 31` on
is negative in the container.
-/


namespace Trismedia

namespace Ao2

open CInt

/-- A number of buckets and a hash that go together: there are buckets,
and the hash is not `INT_MIN` unless that leaves no remainder. In a
container whose number of buckets came out negative only the hashes that
are not negative, or leave no remainder, are found. -/
def SlotOk (nBuckets hash : ℤ) : Prop :=
  (0 < nBuckets ∧ (hash ≠ intMin ∨ nBuckets ∣ hash)) ∨
  (nBuckets < 0 ∧ ((0 ≤ hash ∧ ¬ (nBuckets = intMin ∧ hash = intMax)) ∨
    (nBuckets ∣ hash ∧ ¬ (hash = intMin ∧ nBuckets = -1))))

instance (nBuckets hash : ℤ) : Decidable (SlotOk nBuckets hash) := by
  unfold SlotOk
  infer_instance

/-- The search from `start`, first over `[i₀, last)`, comes to bucket `i`. -/
def Reached (nBuckets : ℤ) (flags : SearchFlags) (start i₀ last i : ℤ) : Prop :=
  (i₀ ≤ i ∧ i < last) ∨
  (flags.objPointer = true ∧ flags.objContinue = true ∧ last = nBuckets ∧ i₀ < last ∧
    0 ≤ i ∧ i < start)

/-- A search for `hash` comes to bucket `i`. -/
def Covered (nBuckets : ℤ) (flags : SearchFlags) (hash : BitVec 32) (i : ℤ) : Prop :=
  ∃ start i₀ last, searchRange nBuckets flags hash = some (start, i₀, last) ∧
    Reached nBuckets flags start i₀ last i

/-- `OBJ_CONTINUE` goes by the number of buckets, which must not be negative. -/
def ContinueOk (nBuckets : ℤ) (flags : SearchFlags) : Prop :=
  flags.objContinue = true → 0 < nBuckets

variable {nb : ℤ} {n hash : BitVec 32} {flags : SearchFlags}

theorem toInt_inInt (h : BitVec 32) : InInt h.toInt := by
  have h1 := BitVec.le_toInt h
  have h2 := BitVec.toInt_lt (x := h)
  unfold InInt intMin intMax
  omega

/-- The array has room for every remainder, and all of it is searched when
the number is not negative. -/
theorem toNat_of_toInt (n : BitVec 32) :
    (0 ≤ n.toInt → (n.toNat : ℤ) = n.toInt) ∧ (n.toInt < 0 → (2147483648 : ℤ) ≤ n.toNat) := by
  rw [BitVec.toInt_eq_toNat_cond]
  have hlt := n.isLt
  split <;> omega

theorem emod_inside (h0 : n.toInt ≠ 0) (x : ℤ) :
    0 ≤ x % n.toInt ∧ x % n.toInt < n.toNat := by
  have hnonneg := Int.emod_nonneg x h0
  have hlt := Int.emod_lt_abs x h0
  have hn := toNat_of_toInt n
  have hr := toInt_inInt n
  refine ⟨hnonneg, ?_⟩
  rcases lt_or_gt_of_ne h0 with hneg | hpos
  · have habs := abs_of_neg hneg
    have h2 := hn.2 hneg
    have h3 := hr.1
    unfold intMin at h3
    omega
  · have habs := abs_of_pos hpos
    have h2 := hn.1 (by omega)
    omega

/-! ## What the two compute -/

theorem linkIndex_of_nonneg (h0 : nb ≠ 0) (hh : 0 ≤ hash.toInt) :
    linkIndex nb hash = some (hash.toInt % nb) := by
  have hne : hash.toInt ≠ intMin := by
    unfold intMin
    omega
  rw [linkIndex, cAbs_of_ne (toInt_inInt hash) hne, abs_of_nonneg hh, cRem_of_nonneg hh h0]

theorem linkIndex_of_neg (h0 : nb ≠ 0) (hh : hash.toInt < 0) (hne : hash.toInt ≠ intMin) :
    linkIndex nb hash = some (|hash.toInt| % nb) := by
  rw [linkIndex, cAbs_of_ne (toInt_inInt hash) hne, cRem_of_nonneg (abs_nonneg _) h0]

/-- **`INT_MIN` is reduced as it is**, so its remainder is not positive. -/
theorem linkIndex_of_intMin (h0 : nb ≠ 0) (hh : hash.toInt = intMin) (h1 : nb ≠ -1) :
    linkIndex nb hash = some (-(2147483648 % nb)) := by
  have hneg : intMin < 0 := by decide
  have habs : |intMin| = 2147483648 := by decide
  rw [linkIndex, hh, cAbs_intMin, cRem_of_neg hneg h0 (fun h => h1 h.2), habs]

theorem searchRange_of_nonneg (hp : flags.objPointer = true) (h0 : nb ≠ 0)
    (hh : 0 ≤ hash.toInt) :
    searchRange nb flags hash = some (hash.toInt % nb, hash.toInt % nb,
      if flags.objContinue then nb else wrapInt (hash.toInt % nb + 1)) := by
  have hlt : ¬ hash.toInt % nb < 0 := not_lt.2 (Int.emod_nonneg _ h0)
  simp only [searchRange, hp, if_true, cRem_of_nonneg hh h0, Option.bind_eq_bind,
    Option.bind_some, if_neg hlt]
  split <;> rfl

theorem searchRange_of_neg (hp : flags.objPointer = true) (h0 : nb ≠ 0) (hh : hash.toInt < 0)
    (htrap : ¬ (hash.toInt = intMin ∧ nb = -1)) :
    searchRange nb flags hash =
      if nb ∣ hash.toInt then some (0, 0, if flags.objContinue then nb else 1)
      else some (0, 0, nb) := by
  have hmod := Int.emod_nonneg |hash.toInt| h0
  have hdvd : nb ∣ hash.toInt ↔ |hash.toInt| % nb = 0 := by
    rw [← dvd_abs, Int.dvd_iff_emod_eq_zero]
  simp only [searchRange, hp, if_true, cRem_of_neg hh h0 htrap, Option.bind_eq_bind,
    Option.bind_some]
  by_cases hz : |hash.toInt| % nb = 0
  · rw [if_pos (hdvd.2 hz), hz]
    have hone : wrapInt 1 = 1 := by decide
    simp only [neg_zero, lt_self_iff_false, if_false, zero_add, hone]
    split <;> rfl
  · rw [if_neg (fun h => hz (hdvd.1 h)), if_pos (by omega)]

/-! ## The two together -/

theorem wrapInt_emod_succ (h0 : n.toInt ≠ 0) (x : ℤ)
    (hx : ¬ (n.toInt = intMin ∧ x % n.toInt = intMax)) :
    wrapInt (x % n.toInt + 1) = x % n.toInt + 1 := by
  have hnonneg := Int.emod_nonneg x h0
  have hlt := Int.emod_lt_abs x h0
  have hr := toInt_inInt n
  refine wrapInt_of_inInt ?_
  have habs : |n.toInt| ≤ 2147483648 := by
    unfold InInt intMin intMax at hr
    exact abs_le.2 ⟨by omega, by omega⟩
  have habs' : n.toInt ≠ intMin → |n.toInt| ≤ 2147483647 := fun hne => by
    unfold InInt intMin intMax at *
    exact abs_le.2 ⟨by omega, by omega⟩
  by_cases hmin : n.toInt = intMin
  · have hmax : x % n.toInt ≠ intMax := fun h => hx ⟨hmin, h⟩
    unfold InInt intMin intMax at *
    omega
  · have habs'' := habs' hmin
    unfold InInt intMin intMax at *
    omega

/-- **A good slot is inside the array and is searched.** -/
theorem SlotOk.linkIndex (h : SlotOk n.toInt hash.toInt) :
    ∃ i, linkIndex n.toInt hash = some i ∧ 0 ≤ i ∧ i < n.toNat ∧
      ∀ flags : SearchFlags, flags.objPointer = true → ContinueOk n.toInt flags →
        Covered n.toInt flags hash i := by
  have h0 : n.toInt ≠ 0 := by
    unfold SlotOk at h
    omega
  have hinside := emod_inside h0
  by_cases hh : 0 ≤ hash.toInt
  · -- the same remainder on both sides
    obtain ⟨hi, hlt⟩ := hinside hash.toInt
    refine ⟨_, linkIndex_of_nonneg h0 hh, hi, hlt, fun flags hp hc =>
      ⟨_, _, _, searchRange_of_nonneg hp h0 hh, .inl ⟨le_rfl, ?_⟩⟩⟩
    by_cases hcont : flags.objContinue
    · rw [if_pos hcont]
      exact Int.emod_lt_of_pos _ (hc hcont)
    · rw [if_neg hcont, wrapInt_emod_succ h0]
      · exact lt_add_one _
      · rintro ⟨hmin, hmax⟩
        have hr := (toInt_inInt hash).2
        have heq : hash.toInt = intMax := by
          have hneg : hash.toInt % intMin = hash.toInt % 2147483648 := Int.emod_neg _ 2147483648
          rw [hmin, hneg] at hmax
          unfold intMax at *
          omega
        unfold SlotOk intMin intMax at *
        have hdvd : ¬ n.toInt ∣ hash.toInt := by
          rw [hmin, heq]
          decide
        omega
  · have hneg : hash.toInt < 0 := not_le.1 hh
    by_cases hd : n.toInt ∣ hash.toInt
    · -- the first bucket on both sides
      have htrap : ¬ (hash.toInt = intMin ∧ n.toInt = -1) := by
        unfold SlotOk at h
        omega
      have hz : |hash.toInt| % n.toInt = 0 := Int.emod_eq_zero_of_dvd ((dvd_abs _ _).2 hd)
      have hlink : Ao2.linkIndex n.toInt hash = some 0 := by
        by_cases hmin : hash.toInt = intMin
        · have habs : |hash.toInt| = 2147483648 := by rw [hmin]; decide
          rw [habs] at hz
          rw [linkIndex_of_intMin h0 hmin (fun h1 => htrap ⟨hmin, h1⟩), hz, neg_zero]
        · rw [linkIndex_of_neg h0 hneg hmin, hz]
      obtain ⟨hi, hlt⟩ := hinside 0
      rw [Int.zero_emod] at hi hlt
      refine ⟨0, hlink, hi, hlt, fun flags hp hc =>
        ⟨_, _, _, by rw [searchRange_of_neg hp h0 hneg htrap, if_pos hd], .inl ⟨le_rfl, ?_⟩⟩⟩
      by_cases hcont : flags.objContinue
      · rw [if_pos hcont]
        exact hc hcont
      · rw [if_neg hcont]
        exact one_pos
    · -- all buckets
      have hpos : 0 < n.toInt := by
        unfold SlotOk at h
        omega
      have hmin : hash.toInt ≠ intMin := by
        unfold SlotOk at h
        omega
      obtain ⟨hi, hlt⟩ := hinside |hash.toInt|
      refine ⟨_, linkIndex_of_neg h0 hneg hmin, hi, hlt, fun flags hp _ =>
        ⟨0, 0, n.toInt, by rw [searchRange_of_neg hp h0 hneg (fun h => hmin h.1), if_neg hd],
          .inl ⟨hi, Int.emod_lt_of_pos _ hpos⟩⟩⟩

/-- **And no other slot is both.** -/
theorem slotOk_iff (hp : flags.objPointer = true) (hc : flags.objContinue = false) :
    SlotOk n.toInt hash.toInt ↔ ∃ i, linkIndex n.toInt hash = some i ∧ 0 ≤ i ∧ i < n.toNat ∧
      Covered n.toInt flags hash i := by
  constructor
  · intro h
    obtain ⟨i, hi, h1, h2, hcov⟩ := h.linkIndex
    exact ⟨i, hi, h1, h2, hcov flags hp fun hct => by simp [hc] at hct⟩
  · rintro ⟨i, hi, h1, h2, start, i₀, last, hrange, hreach⟩
    have hin : i₀ ≤ i ∧ i < last := hreach.resolve_right fun h => by simp [hc] at h
    have h0 : n.toInt ≠ 0 := fun h0 => by simp [linkIndex, h0, cRem] at hi
    by_cases hh : 0 ≤ hash.toInt
    · rw [searchRange_of_nonneg hp h0 hh, hc] at hrange
      rw [linkIndex_of_nonneg h0 hh] at hi
      simp only [Option.some.injEq, Prod.mk.injEq] at hi hrange
      obtain ⟨_, rfl, rfl⟩ := hrange
      have hnot : ¬ (n.toInt = intMin ∧ hash.toInt = intMax) := by
        rintro ⟨hmin, hmax⟩
        rw [hmin, hmax] at hin hi
        exact absurd (hin.1.trans_lt hin.2) (by decide)
      unfold SlotOk intMin intMax at *
      omega
    · have hneg : hash.toInt < 0 := not_le.1 hh
      have htrap : ¬ (hash.toInt = intMin ∧ n.toInt = -1) := fun h => by
        simp [linkIndex, h.1, cAbs_intMin, h.2, cRem] at hi
      by_cases hd : n.toInt ∣ hash.toInt
      · rcases lt_or_gt_of_ne h0 with hneg' | hpos
        · exact .inr ⟨hneg', .inr ⟨hd, htrap⟩⟩
        · exact .inl ⟨hpos, .inr hd⟩
      · rw [searchRange_of_neg hp h0 hneg htrap, if_neg hd] at hrange
        simp only [Option.some.injEq, Prod.mk.injEq] at hrange
        obtain ⟨_, rfl, rfl⟩ := hrange
        have hpos : 0 < n.toInt := by omega
        refine .inl ⟨hpos, .inl fun hmin => ?_⟩
        -- a remainder of `INT_MIN` is negative unless there is none
        rw [linkIndex_of_intMin h0 hmin (by omega)] at hi
        have hle := Int.emod_nonneg 2147483648 h0
        have hz : 2147483648 % n.toInt = 0 := by
          simp only [Option.some.injEq] at hi
          omega
        refine hd ?_
        rw [← dvd_abs, hmin]
        exact Int.dvd_of_emod_eq_zero hz

/-- Three buckets and the hash `-5`. -/
theorem slotOk_three : ∃ i, linkIndex (3#32).toInt (-5) = some i ∧ 0 ≤ i ∧ i < (3#32).toNat ∧
    Covered (3#32).toInt ⟨false, false, false, true, false⟩ (-5) i :=
  (slotOk_iff rfl rfl).1 (by decide)

/-- A string's hash is never negative but for `INT_MIN`. -/
theorem trisStrHashAdd_nonneg {str : List (BitVec 8)} {h : BitVec 32}
    (hne : (trisStrHashAdd str h).toInt ≠ intMin) : 0 ≤ (trisStrHashAdd str h).toInt := by
  by_cases hx : strHashLoop str h = BitVec.intMin 32
  · exact absurd (by rw [trisStrHashAdd, hx]; decide) hne
  · rw [trisStrHashAdd, BitVec.toInt_abs_eq_natAbs_of_ne_intMin hx]
    exact Int.natCast_nonneg _

/-- So with it every number of buckets that an `int` holds works for every
other hash. -/
theorem trisStrHashAdd_slotOk {str : List (BitVec 8)} {h : BitVec 32} (hn : n.toInt ≠ 0)
    (hne : (trisStrHashAdd str h).toInt ≠ intMin) (hmin : n.toInt ≠ intMin) :
    SlotOk n.toInt (trisStrHashAdd str h).toInt := by
  have hnonneg := trisStrHashAdd_nonneg hne
  unfold SlotOk
  rcases lt_or_gt_of_ne hn with hneg | hpos
  · exact .inr ⟨hneg, .inl ⟨hnonneg, fun h => hmin h.1⟩⟩
  · exact .inl ⟨hpos, .inl hne⟩

end Ao2

end Trismedia
