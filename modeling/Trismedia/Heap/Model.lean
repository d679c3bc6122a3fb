import Mathlib.Algebra.Group.Nat.Defs
import Trismedia.Common.BinaryHeap
/-!
# The heap of `main/heap.c`

A max heap over pointers to the caller's elements. The array holds the
pointers; each element has an `ssize_t` set aside at `index_offset` in
which the heap keeps the element's position, so that `tris_heap_remove`
finds an element without a search. Positions run from `1`.

Allocation is assumed to succeed. The comparison reads the elements, so
what it answers belongs to the memory of the caller; it is an argument
of the operations here, where the source stores its address.
-/


namespace Trismedia

namespace Heap

/-- `struct tris_heap`, with the index fields of the elements it is used
with. -/
structure TrisHeap (α : Type) where
  /-- Where in an element its position is kept; negative for nowhere. -/
  indexOffset : ℤ
  curLen : ℕ
  availLen : ℕ
  /-- The array: slot `k` is `heap[k]`. -/
  heap : ℕ → α
  /-- The `ssize_t` at `index_offset` of each element. -/
  index : α → ℤ

variable {α : Type} [DecidableEq α]

def leftNode (i : ℕ) : ℕ := 2 * i

def rightNode (i : ℕ) : ℕ := 2 * i + 1

def parentNode (i : ℕ) : ℕ := i / 2

def heapGet (h : TrisHeap α) (i : ℕ) : α := h.heap (i - 1)

def getIndex (h : TrisHeap α) (elm : α) : ℤ :=
  if h.indexOffset < 0 then -1 else h.index elm

def heapSet (h : TrisHeap α) (i : ℕ) (elm : α) : TrisHeap α :=
  { h with
    heap := Function.update h.heap (i - 1) elm
    index := if 0 ≤ h.indexOffset then Function.update h.index elm i else h.index }

/-- `tris_heap_verify`: `-1` at the first position below one of its
children, `0` when there is none. -/
def trisHeapVerify (cmpFn : α → α → ℤ) (h : TrisHeap α) : ℤ :=
  if (List.range' 1 (h.curLen / 2)).any fun i =>
      (decide (leftNode i ≤ h.curLen) &&
        decide (cmpFn (heapGet h i) (heapGet h (leftNode i)) < 0)) ||
      (decide (rightNode i ≤ h.curLen) &&
        decide (cmpFn (heapGet h i) (heapGet h (rightNode i)) < 0))
  then -1 else 0

/-- `tris_heap_create`. The array comes from `calloc`: `null` is what its
slots hold, `index` what the caller's elements hold so far. -/
def trisHeapCreate (null : α) (index : α → ℤ) (initHeight : ℕ) (indexOffset : ℤ) : TrisHeap α where
  indexOffset := indexOffset
  curLen := 0
  availLen := 2 ^ (if initHeight = 0 then 8 else initHeight) - 1
  heap := fun _ => null
  index := index

/-- `grow_heap`: room for another row. -/
def growHeap (h : TrisHeap α) : TrisHeap α := { h with availLen := h.availLen * 2 + 1 }

def heapSwap (h : TrisHeap α) (i j : ℕ) : TrisHeap α :=
  let tmp := heapGet h i
  heapSet (heapSet h i (heapGet h j)) j tmp

/-- The choice one turn of `max_heapify` makes: the larger of `i` and its
children. -/
def heapMax (cmpFn : α → α → ℤ) (h : TrisHeap α) (i : ℕ) : ℕ :=
  let l := leftNode i
  let r := rightNode i
  let max := if l ≤ h.curLen ∧ cmpFn (heapGet h l) (heapGet h i) > 0 then l else i
  if r ≤ h.curLen ∧ cmpFn (heapGet h r) (heapGet h max) > 0 then r else max

@[simp] theorem heapSet_curLen (h : TrisHeap α) (i : ℕ) (elm : α) :
    (heapSet h i elm).curLen = h.curLen := rfl

@[simp] theorem heapSwap_curLen (h : TrisHeap α) (i j : ℕ) :
    (heapSwap h i j).curLen = h.curLen := rfl

omit [DecidableEq α] in
/-- Where the choice is not `i` itself, it is a child inside the heap. -/
theorem heapMax_child {cmpFn : α → α → ℤ} {h : TrisHeap α} {i : ℕ} (hne : heapMax cmpFn h i ≠ i) :
    i < heapMax cmpFn h i ∧ heapMax cmpFn h i ≤ h.curLen ∧ heapMax cmpFn h i / 2 = i := by
  unfold heapMax leftNode rightNode at *
  dsimp only at *
  split_ifs at * <;> omega

/-- `max_heapify`: while a child is larger, trade places with it. -/
def maxHeapify (cmpFn : α → α → ℤ) (h : TrisHeap α) (i : ℕ) : TrisHeap α :=
  if _hmax : heapMax cmpFn h i = i then h
  else maxHeapify cmpFn (heapSwap h i (heapMax cmpFn h i)) (heapMax cmpFn h i)
termination_by h.curLen - i
decreasing_by
  have := heapMax_child _hmax
  rw [heapSwap_curLen]
  omega

/-- `bubble_up`: while the parent is smaller, trade places with it. The
position reached comes with the heap. -/
def bubbleUp (cmpFn : α → α → ℤ) (h : TrisHeap α) (i : ℕ) : TrisHeap α × ℕ :=
  if 1 < i ∧ cmpFn (heapGet h (parentNode i)) (heapGet h i) < 0 then
    bubbleUp cmpFn (heapSwap h i (parentNode i)) (parentNode i)
  else (h, i)
termination_by i
decreasing_by unfold parentNode; omega

/-- `tris_heap_push`. It returns `0`, growing the array first when it is
full. -/
def trisHeapPush (cmpFn : α → α → ℤ) (h : TrisHeap α) (elm : α) : TrisHeap α :=
  let h := if h.curLen = h.availLen then growHeap h else h
  let h := heapSet { h with curLen := h.curLen + 1 } (h.curLen + 1) elm
  (bubbleUp cmpFn h h.curLen).1

/-- `heap_set(h, index, heap_get(h, (h->cur_len)--))`: the last element
takes the place at `index`. -/
def moveLast (h : TrisHeap α) (index : ℕ) : TrisHeap α :=
  heapSet { h with curLen := h.curLen - 1 } index (heapGet h h.curLen)

/-- `_tris_heap_remove`. What was moved to `index` is sifted both ways. -/
def heapRemove (cmpFn : α → α → ℤ) (h : TrisHeap α) (index : ℕ) : Option α × TrisHeap α :=
  if index = 0 ∨ h.curLen < index then (none, h)
  else
    let up := bubbleUp cmpFn (moveLast h index) index
    (some (heapGet h index), maxHeapify cmpFn up.1 up.2)

def trisHeapRemove (cmpFn : α → α → ℤ) (h : TrisHeap α) (elm : α) : Option α × TrisHeap α :=
  let i := getIndex h elm
  if i = -1 then (none, h) else heapRemove cmpFn h i.toNat

def trisHeapPop (cmpFn : α → α → ℤ) (h : TrisHeap α) : Option α × TrisHeap α :=
  heapRemove cmpFn h 1

def trisHeapPeek (h : TrisHeap α) (index : ℕ) : Option α :=
  if h.curLen = 0 ∨ index = 0 ∨ h.curLen < index then none else some (heapGet h index)

end Heap

/-!
## The heap operations keep the heap

For a comparison that is a total preorder, `push` and `_tris_heap_remove`
keep the max-heap order, move exactly one element in or out, and keep the
position each element stores equal to the position it is at. The sifts
only swap positions inside the heap, so whatever a swap keeps, they keep
(`bubbleUp_keeps`, `maxHeapify_keeps`); the order is the one thing that
is an argument about where they stop.
-/

namespace Heap

open BinaryHeap

variable {α : Type} [DecidableEq α] {cmpFn : α → α → ℤ} {h : TrisHeap α}

/-- **A comparison in the sense of `tris_heap_cmp_fn`**: the sign turns
with the arguments, and being at most is transitive. -/
structure TotalPreorder (cmpFn : α → α → ℤ) : Prop where
  flip : ∀ a b, cmpFn a b < 0 ↔ 0 < cmpFn b a
  trans : ∀ a b c, cmpFn a b ≤ 0 → cmpFn b c ≤ 0 → cmpFn a c ≤ 0

/-- The order a comparison reports. -/
def AtMost (cmpFn : α → α → ℤ) (x y : α) : Prop := cmpFn x y ≤ 0

omit [DecidableEq α] in
theorem TotalPreorder.isTrans (hcmp : TotalPreorder cmpFn) : IsTrans α (AtMost cmpFn) :=
  ⟨hcmp.trans⟩

omit [DecidableEq α] in
theorem TotalPreorder.refl (hcmp : TotalPreorder cmpFn) (x : α) : AtMost cmpFn x x := by
  have h1 := hcmp.flip x x
  unfold AtMost
  omega

/-- The max-heap order on the positions in use. -/
def HeapOrdered (cmpFn : α → α → ℤ) (h : TrisHeap α) : Prop :=
  Ordered (AtMost cmpFn) (heapGet h) h.curLen

/-- The elements in the heap. -/
def elements (h : TrisHeap α) : Multiset α := contents (heapGet h) h.curLen

/-- **Each element stores the position it is at.** So no element is at
two positions. -/
def Indexed (h : TrisHeap α) : Prop :=
  ∀ i, 1 ≤ i → i ≤ h.curLen → h.index (heapGet h i) = i

omit [DecidableEq α] in
theorem Indexed.inj (hidx : Indexed h) {i j : ℕ} (hi : 1 ≤ i) (hin : i ≤ h.curLen) (hj : 1 ≤ j)
    (hjn : j ≤ h.curLen) (heq : heapGet h i = heapGet h j) : i = j := by
  have h1 := hidx i hi hin
  have h2 := hidx j hj hjn
  rw [heq, h2] at h1
  omega

/-! ## What one write does -/

theorem heapGet_heapSet_self {i : ℕ} {elm : α} : heapGet (heapSet h i elm) i = elm := by
  simp [heapGet, heapSet]

theorem heapGet_heapSet_of_ne {i k : ℕ} {elm : α} (hi : 1 ≤ i) (hk : 1 ≤ k) (hne : k ≠ i) :
    heapGet (heapSet h i elm) k = heapGet h k := by
  have : k - 1 ≠ i - 1 := by omega
  simp [heapGet, heapSet, this]

theorem heapGet_heapSwap {i j k : ℕ} (hi : 1 ≤ i) (hj : 1 ≤ j) (hk : 1 ≤ k) :
    heapGet (heapSwap h i j) k = swapAt (heapGet h) i j k := by
  unfold heapSwap
  rcases eq_or_ne k j with rfl | hkj
  · rw [heapGet_heapSet_self, swapAt_right]
  rw [heapGet_heapSet_of_ne hj hk hkj]
  rcases eq_or_ne k i with rfl | hki
  · rw [heapGet_heapSet_self, swapAt_left]
  · rw [heapGet_heapSet_of_ne hi hk hki, swapAt_of_ne hki hkj]

/-- A write keeps the stored positions right where they are right off the
written position and the element written is nowhere else. -/
theorem Indexed.heapSet {i : ℕ} {elm : α} (hi : 1 ≤ i) (hoff : 0 ≤ h.indexOffset)
    (hidx : ∀ k, 1 ≤ k → k ≤ h.curLen → k ≠ i → h.index (heapGet h k) = k)
    (hne : ∀ k, 1 ≤ k → k ≤ h.curLen → k ≠ i → heapGet h k ≠ elm) :
    Indexed (heapSet h i elm) := by
  intro k hk hkn
  have hget : (Heap.heapSet h i elm).index = Function.update h.index elm i := by
    simp [Heap.heapSet, hoff]
  rcases eq_or_ne k i with rfl | hki
  · rw [heapGet_heapSet_self, hget, Function.update_self]
  · rw [heapGet_heapSet_of_ne hi hk hki, hget, Function.update_of_ne (hne k hk hkn hki)]
    exact hidx k hk hkn hki

theorem Indexed.heapSwap (hidx : Indexed h) (hoff : 0 ≤ h.indexOffset) {i j : ℕ} (hi : 1 ≤ i)
    (hin : i ≤ h.curLen) (hj : 1 ≤ j) (hjn : j ≤ h.curLen) (hij : i ≠ j) :
    Indexed (heapSwap h i j) := by
  have hidx' : ∀ k, 1 ≤ k → k ≤ h.curLen → k ≠ j →
      (Heap.heapSet h i (heapGet h j)).index (heapGet (Heap.heapSet h i (heapGet h j)) k) = k := by
    intro k hk hkn hkj
    have hset : (Heap.heapSet h i (heapGet h j)).index =
        Function.update h.index (heapGet h j) i := by simp [Heap.heapSet, hoff]
    rcases eq_or_ne k i with rfl | hki
    · rw [heapGet_heapSet_self, hset, Function.update_self]
    · have hne : heapGet h k ≠ heapGet h j := fun heq => hkj (hidx.inj hk hkn hj hjn heq)
      rw [heapGet_heapSet_of_ne hi hk hki, hset, Function.update_of_ne hne]
      exact hidx k hk hkn
  refine Indexed.heapSet hj hoff hidx' fun k hk hkn hkj heq => ?_
  rcases eq_or_ne k i with rfl | hki
  · rw [heapGet_heapSet_self] at heq
    exact hij (hidx.inj hi hin hj hjn heq.symm)
  · rw [heapGet_heapSet_of_ne hi hk hki] at heq
    exact hki (hidx.inj hk hkn hi hin heq)

theorem elements_heapSwap {i j : ℕ} (hi : 1 ≤ i) (hin : i ≤ h.curLen) (hj : 1 ≤ j)
    (hjn : j ≤ h.curLen) : elements (heapSwap h i j) = elements h := by
  calc elements (heapSwap h i j)
      = contents (swapAt (heapGet h) i j) h.curLen :=
        contents_congr fun k hk _ => heapGet_heapSwap hi hj hk
    _ = elements h := contents_swapAt hi hin hj hjn

/-! ## What the sifts keep -/

/-- **Sifting up keeps what a swap keeps.** -/
theorem bubbleUp_keeps {P : TrisHeap α → Prop}
    (hP : ∀ g i j, 1 ≤ i → i ≤ g.curLen → 1 ≤ j → j ≤ g.curLen → i ≠ j → P g → P (heapSwap g i j))
    {i : ℕ} (hin : i ≤ h.curLen) (h0 : P h) : P (bubbleUp cmpFn h i).1 := by
  induction h, i using bubbleUp.induct cmpFn with
  | case1 h i hmove ih =>
    rw [bubbleUp, if_pos hmove]
    unfold parentNode at *
    exact ih (by rw [heapSwap_curLen]; omega)
      (hP h i (i / 2) (by omega) hin (by omega) (by omega) (by omega) h0)
  | case2 h i hstay =>
    rw [bubbleUp, if_neg hstay]
    exact h0

theorem bubbleUp_pos {i : ℕ} (hi : 1 ≤ i) : 1 ≤ (bubbleUp cmpFn h i).2 := by
  induction h, i using bubbleUp.induct cmpFn with
  | case1 h i hmove ih =>
    rw [bubbleUp, if_pos hmove]
    exact ih (by unfold parentNode; omega)
  | case2 h i hstay =>
    rw [bubbleUp, if_neg hstay]
    exact hi

/-- **Sifting down keeps what a swap keeps.** -/
theorem maxHeapify_keeps {P : TrisHeap α → Prop}
    (hP : ∀ g i j, 1 ≤ i → i ≤ g.curLen → 1 ≤ j → j ≤ g.curLen → i ≠ j → P g → P (heapSwap g i j))
    {i : ℕ} (hi : 1 ≤ i) (h0 : P h) : P (maxHeapify cmpFn h i) := by
  induction h, i using maxHeapify.induct cmpFn with
  | case1 h i hstay =>
    rw [maxHeapify, dif_pos hstay]
    exact h0
  | case2 h i hmove ih =>
    rw [maxHeapify, dif_neg hmove]
    have hchild := heapMax_child hmove
    exact ih (by omega)
      (hP h i _ hi (by omega) (by omega) hchild.2.1 (by omega) h0)

/-- What a sift leaves alone: the number of elements, the elements and
the stored positions. -/
structure SameHeap (h g : TrisHeap α) : Prop where
  curLen : g.curLen = h.curLen
  indexOffset : g.indexOffset = h.indexOffset
  elements : elements g = elements h
  indexed : 0 ≤ h.indexOffset → Indexed h → Indexed g

omit [DecidableEq α] in
theorem SameHeap.refl (h : TrisHeap α) : SameHeap h h := ⟨rfl, rfl, rfl, fun _ hidx => hidx⟩

theorem SameHeap.heapSwap {g : TrisHeap α} {i j : ℕ} (hi : 1 ≤ i) (hin : i ≤ g.curLen) (hj : 1 ≤ j)
    (hjn : j ≤ g.curLen) (hij : i ≠ j) (hg : SameHeap h g) : SameHeap h (heapSwap g i j) where
  curLen := hg.curLen
  indexOffset := hg.indexOffset
  elements := (elements_heapSwap hi hin hj hjn).trans hg.elements
  indexed := fun hoff hidx =>
    (hg.indexed hoff hidx).heapSwap (hg.indexOffset ▸ hoff) hi hin hj hjn hij

theorem bubbleUp_sameHeap {i : ℕ} (hin : i ≤ h.curLen) : SameHeap h (bubbleUp cmpFn h i).1 :=
  bubbleUp_keeps (fun _ _ _ hi hin hj hjn hij => SameHeap.heapSwap hi hin hj hjn hij) hin
    (SameHeap.refl h)

theorem maxHeapify_sameHeap {i : ℕ} (hi : 1 ≤ i) : SameHeap h (maxHeapify cmpFn h i) :=
  maxHeapify_keeps (fun _ _ _ hi hin hj hjn hij => SameHeap.heapSwap hi hin hj hjn hij) hi
    (SameHeap.refl h)

/-! ## Where the sifts stop -/

omit [DecidableEq α] in
/-- The chosen position holds the largest of the position and its
children. -/
theorem heapMax_ge (hcmp : TotalPreorder cmpFn) (h : TrisHeap α) (i : ℕ) :
    AtMost cmpFn (heapGet h i) (heapGet h (heapMax cmpFn h i)) ∧
      ∀ k, 2 ≤ k → k ≤ h.curLen → k / 2 = i →
        AtMost cmpFn (heapGet h k) (heapGet h (heapMax cmpFn h i)) := by
  have htrans := hcmp.trans
  have hrefl := hcmp.refl
  have hflip := hcmp.flip
  -- after the left child is looked at
  set m := if leftNode i ≤ h.curLen ∧ cmpFn (heapGet h (leftNode i)) (heapGet h i) > 0 then
    leftNode i else i with hm
  have hi : AtMost cmpFn (heapGet h i) (heapGet h m) := by
    rw [hm]
    split_ifs with hl
    · exact le_of_lt ((hflip _ _).2 hl.2)
    · exact hrefl _
  have hleft : leftNode i ≤ h.curLen → AtMost cmpFn (heapGet h (leftNode i)) (heapGet h m) := by
    intro hle
    rw [hm]
    split_ifs with hl
    · exact hrefl _
    · exact not_lt.1 fun hlt => hl ⟨hle, hlt⟩
  have hmax : heapMax cmpFn h i =
      if rightNode i ≤ h.curLen ∧ cmpFn (heapGet h (rightNode i)) (heapGet h m) > 0 then
        rightNode i else m := rfl
  have hstep : AtMost cmpFn (heapGet h m) (heapGet h (heapMax cmpFn h i)) := by
    rw [hmax]
    split_ifs with hr
    · exact le_of_lt ((hflip _ _).2 hr.2)
    · exact hrefl _
  have hright : rightNode i ≤ h.curLen →
      AtMost cmpFn (heapGet h (rightNode i)) (heapGet h (heapMax cmpFn h i)) := by
    intro hle
    rw [hmax]
    split_ifs with hr
    · exact hrefl _
    · exact not_lt.1 fun hlt => hr ⟨hle, hlt⟩
  refine ⟨htrans _ _ _ hi hstep, fun k h2 hk hki => ?_⟩
  obtain rfl | rfl : k = leftNode i ∨ k = rightNode i := by
    unfold leftNode rightNode
    omega
  · exact htrans _ _ _ (hleft hk) hstep
  · exact hright hk

/-- **Sifting up ends in order.** -/
theorem bubbleUp_ordered (hcmp : TotalPreorder cmpFn) {i : ℕ} (hin : i ≤ h.curLen)
    (hup : UpReady (AtMost cmpFn) (heapGet h) h.curLen i) :
    HeapOrdered cmpFn (bubbleUp cmpFn h i).1 := by
  have := hcmp.isTrans
  induction h, i using bubbleUp.induct cmpFn with
  | case1 h i hmove ih =>
    rw [bubbleUp, if_pos hmove]
    unfold parentNode at *
    have hswap := hup.swap (by omega) hin (le_of_lt hmove.2)
    refine ih (by rw [heapSwap_curLen]; omega) (hswap.congr fun k hk _ => ?_)
    exact heapGet_heapSwap (by omega) (by omega) hk
  | case2 h i hstay =>
    rw [bubbleUp, if_neg hstay]
    unfold parentNode at hstay
    refine hup.ordered fun h2 _ => ?_
    have hnot : ¬ cmpFn (heapGet h (i / 2)) (heapGet h i) < 0 := fun hlt => hstay ⟨h2, hlt⟩
    have hflip := hcmp.flip (heapGet h (i / 2)) (heapGet h i)
    unfold AtMost
    omega

/-- **Sifting down ends in order.** -/
theorem maxHeapify_ordered (hcmp : TotalPreorder cmpFn) {i : ℕ} (hi : 1 ≤ i)
    (hdown : DownReady (AtMost cmpFn) (heapGet h) h.curLen i) :
    HeapOrdered cmpFn (maxHeapify cmpFn h i) := by
  induction h, i using maxHeapify.induct cmpFn with
  | case1 h i hstay =>
    rw [maxHeapify, dif_pos hstay]
    refine hdown.ordered fun k h2 hk hki => ?_
    have hge := (heapMax_ge hcmp h i).2 k h2 hk hki
    rwa [hstay] at hge
  | case2 h i hmove ih =>
    rw [maxHeapify, dif_neg hmove]
    obtain ⟨hlt, hle, hpar⟩ := heapMax_child hmove
    obtain ⟨hself, hkids⟩ := heapMax_ge hcmp h i
    have hswap := hdown.swap (by omega) hle hpar hself hkids
    refine ih (by omega) (hswap.congr fun k hk _ => ?_)
    exact heapGet_heapSwap hi (by omega) hk

omit [DecidableEq α] in
/-- A choice that moves moves to something larger. -/
theorem heapMax_gt (hcmp : TotalPreorder cmpFn) {i : ℕ} (hmove : heapMax cmpFn h i ≠ i) :
    0 < cmpFn (heapGet h (heapMax cmpFn h i)) (heapGet h i) := by
  unfold heapMax at hmove ⊢
  dsimp only at hmove ⊢
  split_ifs at hmove ⊢ with h1 h2 h2
  · -- the right child beats the left one, which beats `i`
    by_contra hle
    have hil := (hcmp.flip _ _).2 h1.2
    have hrl := hcmp.trans _ _ _ (not_lt.1 hle) (le_of_lt hil)
    exact absurd h2.2 (not_lt.2 hrl)
  · exact h1.2
  · exact h2.2
  · exact absurd rfl hmove

/-- **In an ordered heap there is nothing to sift down.** -/
theorem HeapOrdered.maxHeapify_eq (hcmp : TotalPreorder cmpFn) (hord : HeapOrdered cmpFn h) {i : ℕ}
    (hi : 1 ≤ i) : maxHeapify cmpFn h i = h := by
  rw [maxHeapify, dif_pos]
  by_contra hmove
  obtain ⟨hlt, hle, hpar⟩ := heapMax_child hmove
  have hge := hord _ (by omega) hle
  rw [hpar] at hge
  exact absurd (heapMax_gt hcmp hmove) (not_lt.2 hge)

/-! ## Push -/

/-- The array once the new element is at its end, before it is sifted. -/
theorem heapSet_last {g₀ : TrisHeap α} (hlen : g₀.curLen = h.curLen) (hheap : g₀.heap = h.heap)
    (elm : α) :
    (∀ k, 1 ≤ k → k ≤ h.curLen →
      heapGet (heapSet { g₀ with curLen := g₀.curLen + 1 } (g₀.curLen + 1) elm) k = heapGet h k) ∧
    heapGet (heapSet { g₀ with curLen := g₀.curLen + 1 } (g₀.curLen + 1) elm) (h.curLen + 1) =
      elm ∧
    elements (heapSet { g₀ with curLen := g₀.curLen + 1 } (g₀.curLen + 1) elm) =
      elm ::ₘ elements h := by
  have hold : ∀ k, 1 ≤ k → k ≤ h.curLen →
      heapGet (heapSet { g₀ with curLen := g₀.curLen + 1 } (g₀.curLen + 1) elm) k =
        heapGet h k := by
    intro k hk hkn
    rw [heapGet_heapSet_of_ne (by omega) hk (by omega)]
    exact congrFun hheap _
  have hnew : heapGet (heapSet { g₀ with curLen := g₀.curLen + 1 } (g₀.curLen + 1) elm)
      (h.curLen + 1) = elm := by
    rw [hlen]
    exact heapGet_heapSet_self
  refine ⟨hold, hnew, ?_⟩
  unfold elements
  rw [heapSet_curLen, hlen, contents_succ, ← hlen]
  rw [hlen] at hold hnew ⊢
  rw [hnew, contents_congr hold]

/-- A push adds the element, whatever the comparison says. -/
theorem elements_trisHeapPush (h : TrisHeap α) (elm : α) :
    elements (trisHeapPush cmpFn h elm) = elm ::ₘ elements h := by
  obtain ⟨g₀, hg₀, hlen, hheap⟩ : ∃ g₀, g₀ = (if h.curLen = h.availLen then growHeap h else h) ∧
      g₀.curLen = h.curLen ∧ g₀.heap = h.heap := by
    refine ⟨_, rfl, ?_⟩
    split_ifs <;> exact ⟨rfl, rfl⟩
  have hpush : trisHeapPush cmpFn h elm = (bubbleUp cmpFn
      (heapSet { g₀ with curLen := g₀.curLen + 1 } (g₀.curLen + 1) elm) (g₀.curLen + 1)).1 := by
    rw [hg₀]
    rfl
  generalize hg : heapSet { g₀ with curLen := g₀.curLen + 1 } (g₀.curLen + 1) elm = g at hpush
  have hsame : SameHeap g (bubbleUp cmpFn g (g₀.curLen + 1)).1 :=
    bubbleUp_sameHeap (by rw [← hg]; rfl)
  rw [hpush, hsame.elements, ← hg]
  exact (heapSet_last hlen hheap elm).2.2

/-- **What `tris_heap_push` does.** -/
theorem trisHeapPush_spec (hcmp : TotalPreorder cmpFn) (hord : HeapOrdered cmpFn h) (elm : α) :
    HeapOrdered cmpFn (trisHeapPush cmpFn h elm) ∧
      elements (trisHeapPush cmpFn h elm) = elm ::ₘ elements h ∧
      (trisHeapPush cmpFn h elm).indexOffset = h.indexOffset ∧
      (0 ≤ h.indexOffset → Indexed h → elm ∉ elements h → Indexed (trisHeapPush cmpFn h elm)) := by
  set g₀ := if h.curLen = h.availLen then growHeap h else h with hg₀
  obtain ⟨hlen, hoff, hheap, hindex⟩ : g₀.curLen = h.curLen ∧ g₀.indexOffset = h.indexOffset ∧
      g₀.heap = h.heap ∧ g₀.index = h.index := by
    rw [hg₀]
    split_ifs <;> exact ⟨rfl, rfl, rfl, rfl⟩
  set g := heapSet { g₀ with curLen := g₀.curLen + 1 } (g₀.curLen + 1) elm with hg
  have hglen : g.curLen = h.curLen + 1 := by rw [hg, heapSet_curLen, ← hlen]
  obtain ⟨hold, hnew, hels⟩ := heapSet_last hlen hheap elm
  rw [← hg] at hold hnew hels
  have hpush : trisHeapPush cmpFn h elm = (bubbleUp cmpFn g g.curLen).1 := rfl
  -- only the new position, which has no children, can be out of order
  have hup : UpReady (AtMost cmpFn) (heapGet g) g.curLen g.curLen := by
    rw [hglen]
    refine ⟨⟨fun k h2 hk hki _ => ?_, fun k h2 hk hki _ => ?_⟩, fun k h2 hk hki => ?_⟩
    · rw [hold k (by omega) (by omega), hold (k / 2) (by omega) (by omega)]
      exact hord k h2 (by omega)
    · omega
    · omega
  have hsame : SameHeap g (bubbleUp cmpFn g g.curLen).1 := bubbleUp_sameHeap le_rfl
  rw [hpush]
  refine ⟨bubbleUp_ordered hcmp le_rfl hup, ?_, hsame.indexOffset.trans hoff, ?_⟩
  · rw [hsame.elements, hels]
  · intro h0 hidx hfresh
    refine hsame.indexed (hoff.symm ▸ h0) (Indexed.heapSet (by omega) (hoff.symm ▸ h0) ?_ ?_)
    · intro k hk hkn hki
      have hkh : k ≤ h.curLen := by
        change k ≤ g₀.curLen + 1 at hkn
        omega
      have hkidx := hidx k hk hkh
      rwa [← hindex, show heapGet h k = heapGet g₀ k from (congrFun hheap _).symm] at hkidx
    · intro k hk hkn hki heq
      have hkh : k ≤ h.curLen := by
        change k ≤ g₀.curLen + 1 at hkn
        omega
      refine hfresh (mem_contents.2 ⟨k, hk, hkh, ?_⟩)
      rw [← heq]
      exact (congrFun hheap _).symm

/-! ## Remove -/

section MoveLast

variable {i : ℕ}

@[simp] theorem moveLast_curLen : (moveLast h i).curLen = h.curLen - 1 := rfl

theorem heapGet_moveLast_self : heapGet (moveLast h i) i = heapGet h h.curLen :=
  heapGet_heapSet_self

theorem heapGet_moveLast_of_ne {k : ℕ} (hi : 1 ≤ i) (hk : 1 ≤ k) (hki : k ≠ i) :
    heapGet (moveLast h i) k = heapGet h k :=
  heapGet_heapSet_of_ne hi hk hki

/-- The element at `index` is the one that leaves. -/
theorem elements_moveLast (hi : 1 ≤ i) (hin : i ≤ h.curLen) :
    elements h = heapGet h i ::ₘ elements (moveLast h i) := by
  obtain ⟨n, hn⟩ : ∃ n, h.curLen = n + 1 := ⟨h.curLen - 1, by omega⟩
  have hg : ∀ k, 1 ≤ k → k ≠ i → heapGet (moveLast h i) k = heapGet h k :=
    fun k hk hki => heapGet_moveLast_of_ne hi hk hki
  unfold elements
  rw [moveLast_curLen, hn, contents_succ, Nat.add_sub_cancel]
  rcases eq_or_ne i (n + 1) with rfl | hne
  · rw [contents_congr fun k hk hkn => hg k hk (by omega)]
  · rw [cons_contents_update hi (by omega) hg, heapGet_moveLast_self, hn]

theorem Indexed.moveLast (hidx : Indexed h) (hoff : 0 ≤ h.indexOffset) (hi : 1 ≤ i)
    (hn : 1 ≤ h.curLen) : Indexed (moveLast h i) := by
  refine Indexed.heapSet hi hoff (fun k hk hkn _ => ?_) fun k hk hkn _ heq => ?_
  · change k ≤ h.curLen - 1 at hkn
    exact hidx k hk (by omega)
  · change k ≤ h.curLen - 1 at hkn
    have hkeq := hidx.inj hk (by omega) hn le_rfl heq
    omega

/-- The last element is at most the parent of the place it leaves. -/
theorem last_not_above (hcmp : TotalPreorder cmpFn) (hord : HeapOrdered cmpFn h)
    (h2 : 1 < h.curLen) :
    ¬ cmpFn (heapGet (moveLast h h.curLen) (parentNode h.curLen))
      (heapGet (moveLast h h.curLen) h.curLen) < 0 := by
  have hle := hord h.curLen h2 le_rfl
  have hpar : heapGet (moveLast h h.curLen) (parentNode h.curLen) = heapGet h (h.curLen / 2) :=
    heapGet_moveLast_of_ne (by omega) (by unfold parentNode; omega) (by unfold parentNode; omega)
  rw [hpar, heapGet_moveLast_self]
  have hflip := hcmp.flip (heapGet h (h.curLen / 2)) (heapGet h h.curLen)
  unfold AtMost at hle
  omega

theorem bubbleUp_moveLast_sameHeap (hcmp : TotalPreorder cmpFn) (hord : HeapOrdered cmpFn h)
    (hin : i ≤ h.curLen) : SameHeap (moveLast h i) (bubbleUp cmpFn (moveLast h i) i).1 := by
  rcases eq_or_ne i h.curLen with rfl | hne
  · rw [bubbleUp, if_neg fun hmove => last_not_above hcmp hord hmove.1 hmove.2]
    exact SameHeap.refl _
  · exact bubbleUp_sameHeap (by rw [moveLast_curLen]; omega)

/-- **After both sifts the heap is in order.** Where the moved element
went up, it was above the parent of its new children, and nothing is
left to do; where it stayed, it is at most its parent and sifts down. -/
theorem sift_moveLast_ordered (hcmp : TotalPreorder cmpFn) (hord : HeapOrdered cmpFn h)
    (hi : 1 ≤ i) (hin : i ≤ h.curLen) :
    HeapOrdered cmpFn (maxHeapify cmpFn (bubbleUp cmpFn (moveLast h i) i).1
      (bubbleUp cmpFn (moveLast h i) i).2) := by
  have htrans := hcmp.isTrans
  have hget : ∀ k, 1 ≤ k → k ≠ i → heapGet (moveLast h i) k = heapGet h k :=
    fun k hk hki => heapGet_moveLast_of_ne hi hk hki
  have hoff : OrderedOff (AtMost cmpFn) (heapGet (moveLast h i)) (h.curLen - 1) i := by
    have hbelow : Ordered (AtMost cmpFn) (heapGet h) (h.curLen - 1) := hord.mono (by omega)
    exact hbelow.orderedOff hget
  by_cases hmove : 1 < i ∧
      cmpFn (heapGet (moveLast h i) (parentNode i)) (heapGet (moveLast h i) i) < 0
  · -- going up: the last position cannot, its element was at most its parent
    have hlast : i ≤ h.curLen - 1 := by
      by_contra hcon
      obtain rfl : i = h.curLen := by omega
      exact last_not_above hcmp hord hmove.1 hmove.2
    have hup : UpReady (AtMost cmpFn) (heapGet (moveLast h i)) (h.curLen - 1) i := by
      refine ⟨hoff, fun k h2 hk hki => ?_⟩
      have hgrand := hoff.grand k h2 hk hki hmove.1
      exact hcmp.trans _ _ _ hgrand (le_of_lt hmove.2)
    have hord' := bubbleUp_ordered hcmp hlast hup
    rw [hord'.maxHeapify_eq hcmp]
    · exact hord'
    · exact bubbleUp_pos hi
  · -- staying put
    rw [bubbleUp, if_neg hmove]
    refine maxHeapify_ordered hcmp hi ⟨hoff, fun h2 _ => ?_⟩
    change AtMost cmpFn (heapGet (moveLast h i) i) (heapGet (moveLast h i) (i / 2))
    have hnot : ¬ cmpFn (heapGet (moveLast h i) (parentNode i)) (heapGet (moveLast h i) i) < 0 :=
      fun hlt => hmove ⟨h2, hlt⟩
    have hflip := hcmp.flip (heapGet (moveLast h i) (parentNode i)) (heapGet (moveLast h i) i)
    unfold parentNode at hnot hflip
    unfold AtMost
    omega

end MoveLast

/-- **What `_tris_heap_remove` does** at a position in use. -/
theorem heapRemove_spec (hcmp : TotalPreorder cmpFn) (hord : HeapOrdered cmpFn h) {i : ℕ}
    (hi : 1 ≤ i) (hin : i ≤ h.curLen) :
    ∃ g, heapRemove cmpFn h i = (some (heapGet h i), g) ∧ HeapOrdered cmpFn g ∧
      elements h = heapGet h i ::ₘ elements g ∧ g.indexOffset = h.indexOffset ∧
      (0 ≤ h.indexOffset → Indexed h → Indexed g) := by
  have hnot : ¬ (i = 0 ∨ h.curLen < i) := by omega
  refine ⟨_, by rw [heapRemove, if_neg hnot], sift_moveLast_ordered hcmp hord hi hin, ?_⟩
  have hpos : 1 ≤ (bubbleUp cmpFn (moveLast h i) i).2 := bubbleUp_pos hi
  have hdown : SameHeap (bubbleUp cmpFn (moveLast h i) i).1
      (maxHeapify cmpFn (bubbleUp cmpFn (moveLast h i) i).1 (bubbleUp cmpFn (moveLast h i) i).2) :=
    maxHeapify_sameHeap hpos
  have hup := bubbleUp_moveLast_sameHeap hcmp hord hin
  refine ⟨?_, hdown.indexOffset.trans hup.indexOffset, fun h0 hidx => ?_⟩
  · rw [hdown.elements, hup.elements]
    exact elements_moveLast hi hin
  · have hlast : Indexed (moveLast h i) := hidx.moveLast h0 hi (by omega)
    exact hdown.indexed (hup.indexOffset.symm ▸ h0) (hup.indexed h0 hlast)

end Heap

end Trismedia
