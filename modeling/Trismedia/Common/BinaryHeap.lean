import Mathlib.Data.Multiset.Range
import Mathlib.Logic.Equiv.Basic
import Mathlib.Order.Defs.Unbundled
/-!
# Max-heap order on the positions `1 … n`

Position `k` has parent `k / 2` and children `2 * k` and `2 * k + 1`. An
array is ordered where every position is at most its parent. Sifting
walks one position out of order to where it belongs: `OrderedOff a n i`
says that only position `i` may be out of order, and that `i`'s children
are at most `i`'s parent, which is what lets `i` be exchanged with a
neighbour. `UpReady` and `DownReady` are the two halves of being in order
at `i` too; each swap of a sift carries its half one level on.
-/


namespace BinaryHeap

variable {α : Type*}

/-- Every position is at most its parent. -/
def Ordered (le : α → α → Prop) (a : ℕ → α) (n : ℕ) : Prop :=
  ∀ k, 2 ≤ k → k ≤ n → le (a k) (a (k / 2))

/-- **Ordered but for position `i`.** The pairs away from `i` are in
order, and `i`'s children are at most `i`'s parent. -/
structure OrderedOff (le : α → α → Prop) (a : ℕ → α) (n i : ℕ) : Prop where
  off : ∀ k, 2 ≤ k → k ≤ n → k ≠ i → k / 2 ≠ i → le (a k) (a (k / 2))
  grand : ∀ k, 2 ≤ k → k ≤ n → k / 2 = i → 2 ≤ i → le (a k) (a (i / 2))

/-- What sifting up from `i` needs: `i` is at least its children. -/
structure UpReady (le : α → α → Prop) (a : ℕ → α) (n i : ℕ) : Prop
    extends OrderedOff le a n i where
  children : ∀ k, 2 ≤ k → k ≤ n → k / 2 = i → le (a k) (a i)

/-- What sifting down from `i` needs: `i` is at most its parent. -/
structure DownReady (le : α → α → Prop) (a : ℕ → α) (n i : ℕ) : Prop
    extends OrderedOff le a n i where
  parent : 2 ≤ i → i ≤ n → le (a i) (a (i / 2))

/-- Two positions exchanged. -/
def swapAt (a : ℕ → α) (i j : ℕ) : ℕ → α := a ∘ Equiv.swap i j

theorem swapAt_left (a : ℕ → α) (i j : ℕ) : swapAt a i j i = a j := by
  simp [swapAt]

theorem swapAt_right (a : ℕ → α) (i j : ℕ) : swapAt a i j j = a i := by
  simp [swapAt]

theorem swapAt_of_ne {a : ℕ → α} {i j k : ℕ} (hi : k ≠ i) (hj : k ≠ j) :
    swapAt a i j k = a k := by
  simp [swapAt, Equiv.swap_apply_of_ne_of_ne hi hj]

/-- What the first `n` positions hold, with multiplicity. -/
def contents (a : ℕ → α) (n : ℕ) : Multiset α :=
  (Multiset.range n).map fun k => a (k + 1)

theorem contents_succ (a : ℕ → α) (n : ℕ) :
    contents a (n + 1) = a (n + 1) ::ₘ contents a n := by
  simp [contents, Multiset.range_succ]

@[simp] theorem card_contents (a : ℕ → α) (n : ℕ) : (contents a n).card = n := by
  simp [contents]

theorem mem_contents {a : ℕ → α} {n : ℕ} {x : α} :
    x ∈ contents a n ↔ ∃ k, 1 ≤ k ∧ k ≤ n ∧ a k = x := by
  simp only [contents, Multiset.mem_map, Multiset.mem_range]
  constructor
  · rintro ⟨k, hk, rfl⟩
    exact ⟨k + 1, by omega, by omega, rfl⟩
  · rintro ⟨k, h1, hk, rfl⟩
    exact ⟨k - 1, by omega, by rw [Nat.sub_add_cancel h1]⟩

theorem contents_congr {a b : ℕ → α} {n : ℕ} (h : ∀ k, 1 ≤ k → k ≤ n → a k = b k) :
    contents a n = contents b n := by
  refine Multiset.map_congr rfl fun k hk => h (k + 1) (by omega) ?_
  have := Multiset.mem_range.1 hk
  omega

/-- A position inside the array stands for itself and the others. -/
theorem contents_eq_cons_map {a : ℕ → α} {n i : ℕ} (h1 : 1 ≤ i) (hn : i ≤ n) :
    contents a n = a i ::ₘ ((Multiset.range n).erase (i - 1)).map fun k => a (k + 1) := by
  have hmem : i - 1 ∈ Multiset.range n := Multiset.mem_range.2 (by omega)
  rw [contents, ← Multiset.cons_erase hmem, Multiset.map_cons, Multiset.erase_cons_head,
    Nat.sub_add_cancel h1]

/-- **Writing over a position exchanges one element for another.** -/
theorem cons_contents_update {a b : ℕ → α} {n i : ℕ} (h1 : 1 ≤ i) (hn : i ≤ n)
    (hoff : ∀ k, 1 ≤ k → k ≠ i → b k = a k) :
    a i ::ₘ contents b n = b i ::ₘ contents a n := by
  have hrest : ((Multiset.range n).erase (i - 1)).map (fun k => b (k + 1)) =
      ((Multiset.range n).erase (i - 1)).map fun k => a (k + 1) := by
    refine Multiset.map_congr rfl fun k hk => hoff _ (by omega) ?_
    have := ((Multiset.nodup_range n).mem_erase_iff.1 hk).1
    omega
  rw [contents_eq_cons_map (a := b) h1 hn, contents_eq_cons_map (a := a) h1 hn, hrest,
    Multiset.cons_swap]

/-- **A swap inside the array moves nothing in or out.** -/
theorem contents_swapAt {a : ℕ → α} {n i j : ℕ} (hi : 1 ≤ i) (hin : i ≤ n) (hj : 1 ≤ j)
    (hjn : j ≤ n) : contents (swapAt a i j) n = contents a n := by
  rcases eq_or_ne i j with rfl | hij
  · exact contents_congr fun k _ _ => by simp [swapAt]
  -- write `a j` over position `i`, then `a i` over position `j`
  set b := Function.update a i (a j) with hb
  have h1 : a i ::ₘ contents b n = b i ::ₘ contents a n :=
    cons_contents_update hi hin fun k _ hk => Function.update_of_ne hk _ _
  have h2 : b j ::ₘ contents (swapAt a i j) n = swapAt a i j j ::ₘ contents b n := by
    refine cons_contents_update hj hjn fun k _ hk => ?_
    rcases eq_or_ne k i with rfl | hki
    · rw [swapAt_left, hb, Function.update_self]
    · rw [swapAt_of_ne hki hk, hb, Function.update_of_ne hki]
  rw [swapAt_right, hb, Function.update_of_ne hij.symm, ← hb, h1, hb,
    Function.update_self] at h2
  exact (Multiset.cons_inj_right _).1 h2

variable {le : α → α → Prop} {a b : ℕ → α} {n i m : ℕ}

theorem Ordered.mono (h : Ordered le a n) (hm : m ≤ n) : Ordered le a m :=
  fun k h2 hk => h k h2 (le_trans hk hm)

theorem OrderedOff.congr (h : OrderedOff le a n i) (hab : ∀ k, 1 ≤ k → k ≤ n → b k = a k) :
    OrderedOff le b n i := by
  constructor
  · intro k h2 hk hki hpi
    rw [hab k (by omega) hk, hab (k / 2) (by omega) (by omega)]
    exact h.off k h2 hk hki hpi
  · intro k h2 hk hpi h2i
    rw [hab k (by omega) hk, hab (i / 2) (by omega) (by omega)]
    exact h.grand k h2 hk hpi h2i

theorem UpReady.congr (h : UpReady le a n i) (hab : ∀ k, 1 ≤ k → k ≤ n → b k = a k) :
    UpReady le b n i := by
  refine ⟨h.toOrderedOff.congr hab, fun k h2 hk hpi => ?_⟩
  rw [hab k (by omega) hk, hab i (by omega) (by omega)]
  exact h.children k h2 hk hpi

theorem DownReady.congr (h : DownReady le a n i) (hab : ∀ k, 1 ≤ k → k ≤ n → b k = a k) :
    DownReady le b n i := by
  refine ⟨h.toOrderedOff.congr hab, fun h2 hin => ?_⟩
  rw [hab i (by omega) hin, hab (i / 2) (by omega) (by omega)]
  exact h.parent h2 hin

theorem UpReady.ordered (h : UpReady le a n i) (hp : 2 ≤ i → i ≤ n → le (a i) (a (i / 2))) :
    Ordered le a n := by
  intro k h2 hk
  by_cases hki : k = i
  · subst hki; exact hp h2 hk
  by_cases hpi : k / 2 = i
  · rw [hpi]; exact h.children k h2 hk hpi
  · exact h.off k h2 hk hki hpi

theorem DownReady.ordered (h : DownReady le a n i)
    (hc : ∀ k, 2 ≤ k → k ≤ n → k / 2 = i → le (a k) (a i)) : Ordered le a n :=
  UpReady.ordered ⟨h.toOrderedOff, hc⟩ h.parent

section Trans

variable [IsTrans α le]

/-- **The root is at least everything.** -/
theorem Ordered.le_root (h : Ordered le a n) (hrefl : ∀ x, le x x) :
    ∀ k, 1 ≤ k → k ≤ n → le (a k) (a 1) := by
  intro k
  induction k using Nat.strong_induction_on with
  | _ k ih =>
    intro h1 hk
    rcases Nat.lt_or_ge k 2 with hlt | h2
    · rw [show k = 1 by omega]; exact hrefl _
    · exact IsTrans.trans _ _ _ (h k h2 hk) (ih (k / 2) (by omega) (by omega) (by omega))

/-- **Overwriting one position leaves the rest in order.** -/
theorem Ordered.orderedOff (h : Ordered le b n) (hab : ∀ k, 1 ≤ k → k ≠ i → a k = b k) :
    OrderedOff le a n i := by
  constructor
  · intro k h2 hk hki hpi
    rw [hab k (by omega) hki, hab _ (by omega) hpi]
    exact h k h2 hk
  · intro k h2 hk hpi h2i
    rw [hab k (by omega) (by omega), hab (i / 2) (by omega) (by omega), ← hpi]
    exact IsTrans.trans _ _ _ (h k h2 hk) (h (k / 2) (by omega) (by omega))

/-- **One step up.** A position above its parent trades places with it. -/
theorem UpReady.swap (h : UpReady le a n i) (h2i : 2 ≤ i) (hin : i ≤ n)
    (hlt : le (a (i / 2)) (a i)) : UpReady le (swapAt a i (i / 2)) n (i / 2) := by
  refine ⟨⟨?_, ?_⟩, ?_⟩
  · intro k h2 hk hkp hpp
    by_cases hki : k = i
    · exact absurd (by rw [hki]) hpp
    rw [swapAt_of_ne hki hkp]
    by_cases hpi : k / 2 = i
    · rw [hpi, swapAt_left]
      exact h.grand k h2 hk hpi h2i
    · rw [swapAt_of_ne hpi hpp]
      exact h.off k h2 hk hki hpi
  · intro k h2 hk hpp h2p
    have hpar : le (a (i / 2)) (a (i / 2 / 2)) :=
      h.off (i / 2) h2p (by omega) (by omega) (by omega)
    rw [swapAt_of_ne (k := i / 2 / 2) (by omega) (by omega)]
    by_cases hki : k = i
    · rw [hki, swapAt_left]; exact hpar
    · rw [swapAt_of_ne hki (by omega)]
      have hk' := h.off k h2 hk hki (by omega)
      rw [hpp] at hk'
      exact IsTrans.trans _ _ _ hk' hpar
  · intro k h2 hk hpp
    rw [swapAt_right]
    by_cases hki : k = i
    · rw [hki, swapAt_left]; exact hlt
    · rw [swapAt_of_ne hki (by omega)]
      have hk' := h.off k h2 hk hki (by omega)
      rw [hpp] at hk'
      exact IsTrans.trans _ _ _ hk' hlt

omit [IsTrans α le] in
/-- **One step down.** A position below its larger child trades places
with it. -/
theorem DownReady.swap (h : DownReady le a n i) (h2m : 2 ≤ m) (hmn : m ≤ n) (hmi : m / 2 = i)
    (hlt : le (a i) (a m)) (hmax : ∀ k, 2 ≤ k → k ≤ n → k / 2 = i → le (a k) (a m)) :
    DownReady le (swapAt a i m) n m := by
  have hne : i ≠ m := by omega
  refine ⟨⟨?_, ?_⟩, ?_⟩
  · intro k h2 hk hkm hpm
    by_cases hki : k = i
    · subst hki
      rw [swapAt_left, swapAt_of_ne (k := k / 2) (by omega) hpm]
      exact h.grand m h2m hmn hmi h2
    rw [swapAt_of_ne hki hkm]
    by_cases hpi : k / 2 = i
    · rw [hpi, swapAt_left]; exact hmax k h2 hk hpi
    · rw [swapAt_of_ne hpi hpm]
      exact h.off k h2 hk hki hpi
  · intro k h2 hk hpm h2m'
    rw [hmi, swapAt_left, swapAt_of_ne (k := k) (by omega) (by omega)]
    have hk' := h.off k h2 hk (by omega) (by omega)
    rwa [hpm] at hk'
  · intro _ _
    rw [swapAt_right, hmi, swapAt_left]
    exact hlt

end Trans

end BinaryHeap
