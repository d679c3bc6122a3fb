import Mathlib.Data.List.Sort
import Mathlib.Order.Basic
/-!
# The smallest elements of a list

`smallest l k` is the element of rank `k` of a list, counted from zero. A
program that only asks for small ranks keeps a sorted buffer of the
smallest elements, filled up with a value `top` to begin with. `Keeps`
says what such a buffer knows of the list, in terms of how many elements
are at most `v`; an element added or taken out that is not below the last
entry of the buffer does not change what it knows.

The order is any linear order: the greatest elements are the smallest of
the dual order.
-/


namespace Smallest

variable {α : Type*} [LinearOrder α]

/-- The element of rank `k`. -/
def smallest (l : List α) (k : ℕ) : Option α := (l.mergeSort (· ≤ ·))[k]?

/-- How many elements are at most `v`. -/
def countLe (l : List α) (v : α) : ℕ := l.countP (· ≤ v)

/-- A new element is put before the first greater one, and the last
element is lost. -/
def keepSmall (t : α) : List α → List α
  | [] => []
  | b :: bs => if t < b then (t :: b :: bs).dropLast else b :: keepSmall t bs

/-- **What a buffer of `n` entries knows** of the list `l`. -/
structure Keeps (top : α) (n : ℕ) (buf l : List α) : Prop where
  length : buf.length = n
  sorted : buf.Pairwise (· ≤ ·)
  le_top : ∀ b ∈ buf, b ≤ top
  count : ∀ v, v < top → countLe buf v = min n (countLe l v)

variable {l l' buf : List α} {t v x top : α} {n k : ℕ}

/-! ## Counting -/

theorem countLe_perm (h : l.Perm l') : countLe l v = countLe l' v := h.countP_eq _

theorem countLe_cons : countLe (t :: l) v = countLe l v + if t ≤ v then 1 else 0 := by
  simp [countLe, List.countP_cons]

theorem countLe_append : countLe (l ++ l') v = countLe l v + countLe l' v :=
  List.countP_append ..

theorem countLe_le_length : countLe l v ≤ l.length := List.countP_le_length

theorem countLe_eq_length (h : ∀ b ∈ l, b ≤ v) : countLe l v = l.length := by
  rw [countLe, List.countP_eq_length]
  simpa using h

theorem countLe_eq_zero (h : ∀ b ∈ l, v < b) : countLe l v = 0 := by
  rw [countLe, List.countP_eq_zero]
  simpa using h

theorem countLe_mono {w : α} (h : v ≤ w) : countLe l v ≤ countLe l w := by
  refine List.countP_mono_left fun b _ hb => ?_
  simp only [decide_eq_true_eq] at hb ⊢
  exact hb.trans h

/-- In a sorted list, the ranks below the count are those of the elements
counted. -/
theorem le_iff_of_sorted (hs : l.Pairwise (· ≤ ·)) (hx : l[k]? = some x) :
    x ≤ v ↔ k < countLe l v := by
  induction l generalizing k with
  | nil => simp at hx
  | cons b l ih =>
    rw [List.pairwise_cons] at hs
    rw [countLe_cons]
    cases k with
    | zero =>
      obtain rfl : b = x := by simpa using hx
      by_cases hb : b ≤ v
      · simp [hb]
      · have hzero : countLe l v = 0 :=
          countLe_eq_zero fun c hc => (not_le.1 hb).trans_le (hs.1 c hc)
        simp [hb, hzero]
    | succ k =>
      rw [List.getElem?_cons_succ] at hx
      by_cases hb : b ≤ v
      · rw [ih hs.2 hx, if_pos hb]
        omega
      · have hzero : countLe l v = 0 :=
          countLe_eq_zero fun c hc => (not_le.1 hb).trans_le (hs.1 c hc)
        have hxv : ¬ x ≤ v := by
          have := hs.1 x (List.mem_of_getElem? hx)
          exact not_le.2 ((not_le.1 hb).trans_le this)
        simp [hb, hzero, hxv]

theorem smallest_sorted (l : List α) : (l.mergeSort (· ≤ ·)).Pairwise (· ≤ ·) := by
  have htrans : ∀ a b c : α, decide (a ≤ b) = true → decide (b ≤ c) = true →
      decide (a ≤ c) = true := by
    simpa using fun a b c => le_trans
  have htotal : ∀ a b : α, (decide (a ≤ b) || decide (b ≤ a)) = true := by
    simpa using le_total
  simpa using l.pairwise_mergeSort htrans htotal

theorem smallest_le_iff (hx : smallest l k = some x) : x ≤ v ↔ k < countLe l v := by
  rw [le_iff_of_sorted (smallest_sorted l) hx, countLe_perm (l.mergeSort_perm _)]

theorem exists_smallest (hk : k < l.length) : ∃ x, smallest l k = some x := by
  have hlen : (l.mergeSort (· ≤ ·)).length = l.length := List.length_mergeSort l
  exact ⟨_, List.getElem?_eq_getElem (hlen.symm ▸ hk)⟩

/-! ## The buffer -/

theorem keepSmall_eq : keepSmall t l = (l.orderedInsert (· < ·) t).dropLast := by
  induction l with
  | nil => rfl
  | cons b l ih =>
    rw [keepSmall, List.orderedInsert]
    by_cases hb : t < b
    · rw [if_pos hb, if_pos hb]
    · have hne : l.orderedInsert (· < ·) t ≠ [] := by
        intro hnil
        have := List.orderedInsert_length (· < ·) l t
        rw [hnil] at this
        cases this
      rw [if_neg hb, if_neg hb, ih, List.dropLast_cons_of_ne_nil hne]

/-- An element that is not below any entry is not kept. -/
theorem keepSmall_of_le (h : ∀ b ∈ buf, b ≤ t) : keepSmall t buf = buf := by
  induction buf with
  | nil => rfl
  | cons b bs ih =>
    rw [keepSmall, if_neg (not_lt.2 (h b List.mem_cons_self)),
      ih fun c hc => h c (List.mem_cons_of_mem _ hc)]

theorem sorted_insert (hs : l.Pairwise (· ≤ ·)) :
    (l.orderedInsert (· < ·) t).Pairwise (· ≤ ·) := by
  induction l with
  | nil => simp
  | cons b l ih =>
    rw [List.orderedInsert]
    rw [List.pairwise_cons] at hs
    by_cases hb : t < b
    · rw [if_pos hb, List.pairwise_cons, List.pairwise_cons]
      refine ⟨fun c hc => ?_, hs⟩
      rcases List.mem_cons.1 hc with rfl | hc
      · exact hb.le
      · exact hb.le.trans (hs.1 c hc)
    · rw [if_neg hb, List.pairwise_cons]
      refine ⟨fun c hc => ?_, ih hs.2⟩
      rcases List.mem_cons.1 ((List.perm_orderedInsert (· < ·) t l).mem_iff.1 hc) with rfl | hc
      · exact not_lt.1 hb
      · exact hs.1 c hc

/-- A sorted list that loses its last element loses one that is at most
`v` only where all are. -/
theorem countLe_dropLast (hs : l.Pairwise (· ≤ ·)) (hlen : l.length = n + 1) :
    countLe l.dropLast v = min n (countLe l v) := by
  rcases List.eq_nil_or_concat' l with rfl | ⟨d, m, rfl⟩
  · cases hlen
  · rw [List.pairwise_append] at hs
    have hd : d.length = n := by simpa using hlen
    have hle := countLe_le_length (l := d) (v := v)
    rw [List.dropLast_concat, countLe_append, countLe_cons]
    by_cases hm : m ≤ v
    · rw [countLe_eq_length fun b hb => (hs.2.2 b hb m List.mem_cons_self).trans hm, if_pos hm]
      simp [hd]
    · rw [if_neg hm]
      simp only [countLe, List.countP_nil] at hle ⊢
      omega

namespace Keeps

theorem replicate : Keeps top n (List.replicate n top) [] where
  length := List.length_replicate
  sorted := List.pairwise_replicate.2 (.inr le_rfl)
  le_top b hb := (List.eq_of_mem_replicate hb).le
  count v hv := by
    have hzero : countLe (List.replicate n top) v = 0 :=
      countLe_eq_zero fun b hb => (List.eq_of_mem_replicate hb) ▸ hv
    rw [hzero]
    simp [countLe]

/-- A buffer knows nothing of the order of the list. -/
theorem perm (h : Keeps top n buf l) (hp : l.Perm l') : Keeps top n buf l' where
  length := h.length
  sorted := h.sorted
  le_top := h.le_top
  count v hv := by rw [h.count v hv, countLe_perm hp]

/-- **A new element.** -/
theorem insert (h : Keeps top n buf l) : Keeps top n (keepSmall t buf) (t :: l) := by
  have hperm := List.perm_orderedInsert (· < ·) t buf
  have hlen : (buf.orderedInsert (· < ·) t).length = n + 1 := by
    rw [hperm.length_eq, List.length_cons, h.length]
  have hcount : ∀ v, v < top → countLe (keepSmall t buf) v = min n (countLe (t :: l) v) := by
    intro v hv
    rw [keepSmall_eq, countLe_dropLast (sorted_insert h.sorted) hlen, countLe_perm hperm,
      countLe_cons, countLe_cons, h.count v hv]
    omega
  refine ⟨?_, ?_, ?_, hcount⟩
  · rw [keepSmall_eq, List.length_dropLast, hlen, Nat.add_sub_cancel]
  · rw [keepSmall_eq]
    exact (sorted_insert h.sorted).sublist (List.dropLast_sublist _)
  · rcases le_or_gt t top with ht | ht
    · intro b hb
      rw [keepSmall_eq] at hb
      rcases List.mem_cons.1 (hperm.mem_iff.1 ((List.dropLast_subset _) hb)) with rfl | hb
      · exact ht
      · exact h.le_top b hb
    · rw [keepSmall_of_le fun b hb => (h.le_top b hb).trans ht.le]
      exact h.le_top

/-- A new element that is not below the last entry leaves the buffer as it
is. -/
theorem skip (h : Keeps top n buf l) (ht : ∀ b ∈ buf, b ≤ t) : Keeps top n buf (t :: l) := by
  have hins := h.insert (t := t)
  rwa [keepSmall_of_le ht] at hins

/-- **An element taken out** that is above every entry was not one of
them. -/
theorem evict (h : Keeps top n buf (t :: l)) (ht : ∀ b ∈ buf, b < t) : Keeps top n buf l where
  length := h.length
  sorted := h.sorted
  le_top := h.le_top
  count v hv := by
    have hcount := h.count v hv
    rw [countLe_cons] at hcount
    by_cases htv : t ≤ v
    · -- all entries are below `t`, so the list has as many below `t` alone
      rcases List.eq_nil_or_concat' buf with rfl | ⟨bs, m, rfl⟩
      · have hn : n = 0 := h.length.symm
        simp [hn, countLe]
      · have hm : m < t := ht m (by simp)
        have hall : countLe (bs ++ [m]) m = n := by
          rw [countLe_eq_length, h.length]
          intro b hb
          have hs := h.sorted
          rw [List.pairwise_append] at hs
          rcases List.mem_append.1 hb with hb | hb
          · exact hs.2.2 b hb m List.mem_cons_self
          · exact (List.mem_singleton.1 hb).le
        have hbelow := h.count m (hm.trans_le (htv.trans hv.le))
        rw [hall, countLe_cons, if_neg (not_le.2 hm)] at hbelow
        have hmono := countLe_mono (l := l) (hm.le.trans htv)
        have hbuf : countLe (bs ++ [m]) v = n := by
          rw [countLe_eq_length, h.length]
          exact fun b hb => (ht b hb).le.trans htv
        omega
    · rw [hcount, if_neg htv]
      rfl

/-- **The entry of rank `k` is the element of rank `k`** if and only if
more than `k` elements are within `top`. -/
theorem getElem?_iff (h : Keeps top n buf l) (hx : buf[k]? = some x) :
    smallest l k = some x ↔ k < countLe l top := by
  have hk : k < n := h.length ▸ (List.getElem?_eq_some_iff.1 hx).1
  have hxtop : x ≤ top := h.le_top x (List.mem_of_getElem? hx)
  constructor
  · intro hs
    exact (smallest_le_iff hs).1 hxtop
  · intro hlt
    obtain ⟨y, hy⟩ := exists_smallest (hlt.trans_le countLe_le_length)
    have hytop : y ≤ top := (smallest_le_iff hy).2 hlt
    have hiff : ∀ v, v < top → (x ≤ v ↔ y ≤ v) := by
      intro v hv
      rw [le_iff_of_sorted h.sorted hx, smallest_le_iff hy, h.count v hv]
      omega
    have hxy : x = y := by
      rcases lt_trichotomy x y with hlt | heq | hlt
      · exact absurd ((hiff x (hlt.trans_le hytop)).1 le_rfl) (not_le.2 hlt)
      · exact heq
      · exact absurd ((hiff y (hlt.trans_le hxtop)).2 le_rfl) (not_le.2 hlt)
    rw [hy, hxy]

end Keeps

end Smallest
