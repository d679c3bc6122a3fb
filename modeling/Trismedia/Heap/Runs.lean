import Trismedia.Heap.Model
import Trismedia.Common.Trace
/-!
# The heap over whole runs

A run is any sequence of `tris_heap_push`, `tris_heap_pop` and
`tris_heap_remove` from a fresh heap. What the heap should hold is read
off the events alone (`held`); `HeapGood` compares it with the array, the
stored positions and what the next call returns.

An element has one `ssize_t` for its position, so the stored positions
can only be right where an element is pushed while it is not in the heap,
which is how `sched.c` and `test_heap.c` use it (`PushesAbsent`).
-/


namespace Trismedia

namespace Heap

open BinaryHeap

variable {α : Type} [DecidableEq α] {cmpFn : α → α → ℤ} {h : TrisHeap α}

/-- One call on a heap. -/
inductive HeapOp (α : Type)
  | push (elm : α)
  | pop
  | remove (elm : α)

/-- What the call returns and leaves. -/
def HeapOp.exec (cmpFn : α → α → ℤ) (h : TrisHeap α) : HeapOp α → Option α × TrisHeap α
  | .push elm => (none, trisHeapPush cmpFn h elm)
  | .pop => trisHeapPop cmpFn h
  | .remove elm => trisHeapRemove cmpFn h elm

/-- A call on an element to remove is made for elements in the heap. -/
def RemovesPresent (h : TrisHeap α) : HeapOp α → Prop
  | .remove elm => elm ∈ elements h
  | _ => True

/-- And a call on an element to push for elements that are not. -/
def PushesAbsent (h : TrisHeap α) : HeapOp α → Prop
  | .push elm => elm ∉ elements h
  | op => RemovesPresent h op

instance (h : TrisHeap α) : DecidablePred (PushesAbsent h)
  | .push elm => inferInstanceAs (Decidable (elm ∉ elements h))
  | .pop => inferInstanceAs (Decidable True)
  | .remove elm => inferInstanceAs (Decidable (elm ∈ elements h))

/-- One event of a run: a permitted call and what it returned. -/
def HeapStep (allowed : TrisHeap α → HeapOp α → Prop) (cmpFn : α → α → ℤ) (h : TrisHeap α)
    (ev : HeapOp α × Option α) (g : TrisHeap α) : Prop :=
  allowed h ev.1 ∧ ev.1.exec cmpFn h = (ev.2, g)

/-- How an event changes what the heap should hold. -/
def heldStep (m : Multiset α) : HeapOp α × Option α → Multiset α
  | (.push elm, _) => elm ::ₘ m
  | (_, some x) => m.erase x
  | (_, none) => m

/-- The pushed elements not yet taken out. -/
def held (evs : List (HeapOp α × Option α)) : Multiset α := evs.foldl heldStep 0

/-- **A heap that agrees with its history.** -/
structure HeapGood (cmpFn : α → α → ℤ) (evs : List (HeapOp α × Option α)) (h : TrisHeap α) :
    Prop where
  verify : trisHeapVerify cmpFn h = 0
  contents : elements h = held evs
  indexed : 0 ≤ h.indexOffset → ∀ i, 1 ≤ i → i ≤ h.curLen → h.index (heapGet h i) = i
  pop_none : (trisHeapPop cmpFn h).1 = none ↔ held evs = 0
  pop_max : ∀ x, (trisHeapPop cmpFn h).1 = some x →
    x ∈ held evs ∧ ∀ y ∈ held evs, cmpFn y x ≤ 0
  remove : 0 ≤ h.indexOffset → ∀ elm ∈ held evs, (trisHeapRemove cmpFn h elm).1 = some elm

/-- Every element pushed, in turn. -/
def pushAll (cmpFn : α → α → ℤ) (h : TrisHeap α) (xs : List α) : TrisHeap α :=
  xs.foldl (trisHeapPush cmpFn) h

/-- What `n` pops return. -/
def popN (cmpFn : α → α → ℤ) : ℕ → TrisHeap α → List (Option α)
  | 0, _ => []
  | n + 1, h => (trisHeapPop cmpFn h).1 :: popN cmpFn n (trisHeapPop cmpFn h).2

/-! ## One call -/

omit [DecidableEq α] in
theorem verify_of_heapOrdered (hcmp : TotalPreorder cmpFn) (hord : HeapOrdered cmpFn h) :
    trisHeapVerify cmpFn h = 0 := by
  rw [trisHeapVerify, if_neg]
  intro hany
  obtain ⟨i, hi, hbad⟩ := List.any_eq_true.1 hany
  obtain ⟨hi1, -⟩ := List.mem_range'_1.1 hi
  -- either child would be above its parent
  have hchild : ∀ k, 2 ≤ k → k ≤ h.curLen → k / 2 = i →
      ¬ cmpFn (heapGet h i) (heapGet h k) < 0 := by
    intro k h2 hk hki hlt
    have hle := hord k h2 hk
    rw [hki] at hle
    have hflip := (hcmp.flip _ _).1 hlt
    unfold AtMost at hle
    omega
  simp only [Bool.or_eq_true, Bool.and_eq_true, decide_eq_true_eq] at hbad
  rcases hbad with ⟨hle, hlt⟩ | ⟨hle, hlt⟩
  · exact hchild _ (by unfold leftNode; omega) hle (by unfold leftNode; omega) hlt
  · exact hchild _ (by unfold rightNode; omega) hle (by unfold rightNode; omega) hlt

omit [DecidableEq α] in
theorem mem_elements {x : α} :
    x ∈ elements h ↔ ∃ i, 1 ≤ i ∧ i ≤ h.curLen ∧ heapGet h i = x := mem_contents

omit [DecidableEq α] in
theorem elements_eq_zero : elements h = 0 ↔ h.curLen = 0 := by
  rw [← Multiset.card_eq_zero, elements, card_contents]

/-- **Pop on a heap in use.** The element it returns is at least all, and
the rest stays a heap. -/
theorem trisHeapPop_spec (hcmp : TotalPreorder cmpFn) (hord : HeapOrdered cmpFn h)
    (hne : h.curLen ≠ 0) :
    ∃ x g, trisHeapPop cmpFn h = (some x, g) ∧ HeapOrdered cmpFn g ∧
      elements h = x ::ₘ elements g ∧ (∀ y ∈ elements h, cmpFn y x ≤ 0) ∧
      g.indexOffset = h.indexOffset ∧ (0 ≤ h.indexOffset → Indexed h → Indexed g) := by
  have htrans := hcmp.isTrans
  obtain ⟨g, heq, hg, hels, hoff, hidx⟩ := heapRemove_spec hcmp hord le_rfl (by omega)
  refine ⟨heapGet h 1, g, heq, hg, hels, fun y hy => ?_, hoff, hidx⟩
  obtain ⟨i, hi, hin, rfl⟩ := mem_elements.1 hy
  exact hord.le_root hcmp.refl i hi hin

theorem trisHeapPop_empty (hz : h.curLen = 0) : trisHeapPop cmpFn h = (none, h) := by
  rw [trisHeapPop, heapRemove, if_pos (by omega)]

/-- **Remove on an element in the heap** takes out that element. -/
theorem trisHeapRemove_spec (hcmp : TotalPreorder cmpFn) (hord : HeapOrdered cmpFn h)
    (h0 : 0 ≤ h.indexOffset) (hidx : Indexed h) {elm : α} (hmem : elm ∈ elements h) :
    ∃ g, trisHeapRemove cmpFn h elm = (some elm, g) ∧ HeapOrdered cmpFn g ∧
      elements h = elm ::ₘ elements g ∧ g.indexOffset = h.indexOffset ∧ Indexed g := by
  obtain ⟨i, hi, hin, rfl⟩ := mem_elements.1 hmem
  have hget : getIndex h (heapGet h i) = i := by
    rw [getIndex, if_neg (not_lt.2 h0)]
    exact hidx i hi hin
  obtain ⟨g, heq, hg, hels, hoff, hidx'⟩ := heapRemove_spec hcmp hord hi hin
  refine ⟨g, ?_, hg, hels, hoff, hidx' h0 hidx⟩
  rw [trisHeapRemove, hget, if_neg (by omega), Int.toNat_natCast]
  exact heq

theorem trisHeapRemove_unindexed (h0 : h.indexOffset < 0) (elm : α) :
    trisHeapRemove cmpFn h elm = (none, h) := by
  rw [trisHeapRemove, getIndex, if_pos h0, if_pos rfl]

/-! ## Runs -/

/-- What every step keeps: the order, the elements the events leave, and
the stored positions. -/
structure RunInv (cmpFn : α → α → ℤ) (evs : List (HeapOp α × Option α)) (h : TrisHeap α) :
    Prop where
  ordered : HeapOrdered cmpFn h
  contents : elements h = held evs
  indexed : 0 ≤ h.indexOffset → Indexed h

theorem held_snoc (evs : List (HeapOp α × Option α)) (ev : HeapOp α × Option α) :
    held (evs ++ [ev]) = heldStep (held evs) ev := by
  rw [held, List.foldl_append]
  rfl

theorem runInv_create (null : α) (index : α → ℤ) (initHeight : ℕ)
    (indexOffset : ℤ) : RunInv cmpFn [] (trisHeapCreate null index initHeight indexOffset) where
  ordered := fun k h2 hk => by
    change k ≤ 0 at hk
    omega
  contents := rfl
  indexed := fun _ i hi hin => by
    change i ≤ 0 at hin
    omega

/-- **One step keeps the invariant.** -/
theorem RunInv.step (hcmp : TotalPreorder cmpFn) {evs : List (HeapOp α × Option α)}
    {ev : HeapOp α × Option α} {g : TrisHeap α} (hinv : RunInv cmpFn evs h)
    (hstep : HeapStep PushesAbsent cmpFn h ev g) : RunInv cmpFn (evs ++ [ev]) g := by
  obtain ⟨op, r⟩ := ev
  obtain ⟨hallow, hexec⟩ := hstep
  cases op with
  | push elm =>
    obtain ⟨rfl, rfl⟩ := Prod.mk.inj hexec
    obtain ⟨hord, hels, hoff, hidx⟩ := trisHeapPush_spec hcmp hinv.ordered elm
    refine ⟨hord, ?_, fun h0 => ?_⟩
    · rw [held_snoc, hels, hinv.contents]
      rfl
    · rw [hoff] at h0
      exact hidx h0 (hinv.indexed h0) hallow
  | pop =>
    change trisHeapPop cmpFn h = (r, g) at hexec
    rcases eq_or_ne h.curLen 0 with hz | hne
    · rw [trisHeapPop_empty hz] at hexec
      obtain ⟨rfl, rfl⟩ := Prod.mk.inj hexec
      exact ⟨hinv.ordered, by rw [held_snoc, hinv.contents]; rfl, hinv.indexed⟩
    · obtain ⟨x, g', heq, hord, hels, -, hoff, hidx⟩ := trisHeapPop_spec hcmp hinv.ordered hne
      rw [heq] at hexec
      obtain ⟨rfl, rfl⟩ := Prod.mk.inj hexec
      refine ⟨hord, ?_, fun h0 => ?_⟩
      · rw [held_snoc, ← hinv.contents, hels]
        exact (Multiset.erase_cons_head _ _).symm
      · rw [hoff] at h0
        exact hidx h0 (hinv.indexed h0)
  | remove elm =>
    change trisHeapRemove cmpFn h elm = (r, g) at hexec
    rcases lt_or_ge h.indexOffset 0 with hneg | h0
    · rw [trisHeapRemove_unindexed hneg] at hexec
      obtain ⟨rfl, rfl⟩ := Prod.mk.inj hexec
      exact ⟨hinv.ordered, by rw [held_snoc, hinv.contents]; rfl, hinv.indexed⟩
    · obtain ⟨g', heq, hord, hels, hoff, hidx⟩ :=
        trisHeapRemove_spec hcmp hinv.ordered h0 (hinv.indexed h0) hallow
      rw [heq] at hexec
      obtain ⟨rfl, rfl⟩ := Prod.mk.inj hexec
      refine ⟨hord, ?_, fun _ => hidx⟩
      rw [held_snoc, ← hinv.contents, hels]
      exact (Multiset.erase_cons_head _ _).symm

theorem RunInv.good (hcmp : TotalPreorder cmpFn) {evs : List (HeapOp α × Option α)}
    (hinv : RunInv cmpFn evs h) : HeapGood cmpFn evs h where
  verify := verify_of_heapOrdered hcmp hinv.ordered
  contents := hinv.contents
  indexed := hinv.indexed
  pop_none := by
    rw [← hinv.contents, elements_eq_zero]
    rcases eq_or_ne h.curLen 0 with hz | hne
    · simp [trisHeapPop_empty hz, hz]
    · obtain ⟨x, g, heq, -⟩ := trisHeapPop_spec hcmp hinv.ordered hne
      simp [heq, hne]
  pop_max := by
    intro x hx
    rw [← hinv.contents]
    rcases eq_or_ne h.curLen 0 with hz | hne
    · rw [trisHeapPop_empty hz] at hx
      cases hx
    · obtain ⟨x', g, heq, -, hels, hmax, -⟩ := trisHeapPop_spec hcmp hinv.ordered hne
      rw [heq] at hx
      obtain rfl : x' = x := Option.some.inj hx
      exact ⟨hels ▸ Multiset.mem_cons_self _ _, hmax⟩
  remove := by
    intro h0 elm hmem
    rw [← hinv.contents] at hmem
    obtain ⟨g, heq, -⟩ := trisHeapRemove_spec hcmp hinv.ordered h0 (hinv.indexed h0) hmem
    rw [heq]

/-- Pushing a list keeps the order and adds its elements. -/
theorem pushAll_spec (hcmp : TotalPreorder cmpFn) (xs : List α) :
    ∀ h : TrisHeap α, HeapOrdered cmpFn h → HeapOrdered cmpFn (pushAll cmpFn h xs) ∧
      elements (pushAll cmpFn h xs) = elements h + xs := by
  induction xs with
  | nil => exact fun h hord => ⟨hord, by simp [pushAll]⟩
  | cons x xs ih =>
    intro h hord
    obtain ⟨hpush, hels, -⟩ := trisHeapPush_spec hcmp hord x
    obtain ⟨hall, hrest⟩ := ih _ hpush
    refine ⟨hall, hrest.trans ?_⟩
    rw [hels, ← Multiset.cons_coe, Multiset.add_cons, Multiset.cons_add]

/-- **As many pops as there are elements** return them all, largest
first. -/
theorem popN_spec (hcmp : TotalPreorder cmpFn) (n : ℕ) :
    ∀ h : TrisHeap α, HeapOrdered cmpFn h → h.curLen = n →
      ∃ ys : List α, popN cmpFn n h = ys.map some ∧ (ys : Multiset α) = elements h ∧
        ys.Pairwise fun x y => cmpFn y x ≤ 0 := by
  induction n with
  | zero =>
    intro h _ hz
    exact ⟨[], rfl, by rw [elements_eq_zero.2 hz]; rfl, List.Pairwise.nil⟩
  | succ n ih =>
    intro h hord hn
    obtain ⟨x, g, heq, hg, hels, hmax, -⟩ := trisHeapPop_spec hcmp hord (by omega)
    have hcard : g.curLen = n := by
      have hc := congrArg Multiset.card hels
      rw [Multiset.card_cons, elements, elements, card_contents, card_contents] at hc
      omega
    obtain ⟨ys, hpop, hys, hpair⟩ := ih g hg hcard
    refine ⟨x :: ys, ?_, ?_, List.Pairwise.cons (fun y hy => hmax y ?_) hpair⟩
    · rw [popN, heq, hpop, List.map_cons]
    · rw [hels, ← hys, Multiset.cons_coe]
    · rw [hels, ← hys]
      exact Multiset.mem_cons_of_mem hy

/-- **The heap over every run.** For a comparison that is a total
preorder, every run in which an element is pushed only while it is not in
the heap ends in a heap that agrees with its history; and pushing any
list and popping as often returns the list in non-increasing order. -/
theorem heap_runs (hcmp : TotalPreorder cmpFn) (null : α) (index : α → ℤ) (initHeight : ℕ)
    (indexOffset : ℤ) :
    (∀ evs h, Trace (HeapStep PushesAbsent cmpFn)
        (trisHeapCreate null index initHeight indexOffset) evs h → HeapGood cmpFn evs h) ∧
    ∀ xs : List α, ∃ ys : List α,
      popN cmpFn xs.length
        (pushAll cmpFn (trisHeapCreate null index initHeight indexOffset) xs) = ys.map some ∧
      ys.Perm xs ∧ ys.Pairwise fun x y => cmpFn y x ≤ 0 := by
  have hcreate := @runInv_create _ _ cmpFn null index initHeight indexOffset
  refine ⟨fun evs h hrun => ?_, fun xs => ?_⟩
  · have hinv : RunInv cmpFn evs h :=
      hrun.inv hcreate fun _ _ _ _ hI hstep => hI.step hcmp hstep
    exact hinv.good hcmp
  · obtain ⟨hord, hels⟩ := pushAll_spec hcmp xs _ hcreate.ordered
    rw [hcreate.contents] at hels
    have hels' : elements (pushAll cmpFn
        (trisHeapCreate null index initHeight indexOffset) xs) = xs := by
      rw [hels]
      exact Multiset.zero_add _
    have hlen : (pushAll cmpFn (trisHeapCreate null index initHeight indexOffset) xs).curLen =
        xs.length := by
      have hc := congrArg Multiset.card hels'
      rwa [elements, card_contents, Multiset.coe_card] at hc
    obtain ⟨ys, hpop, hys, hpair⟩ := popN_spec hcmp xs.length _ hord hlen
    exact ⟨ys, hpop, Multiset.coe_eq_coe.1 (hys.trans hels'), hpair⟩

/-- Numbers by size: the comparison of `test_heap.c`, up to sign. -/
def nodeCmp (a b : ℕ) : ℤ := (a : ℤ) - b

theorem nodeCmp_totalPreorder : TotalPreorder nodeCmp where
  flip a b := by unfold nodeCmp; omega
  trans a b c := by unfold nodeCmp; omega

/-- The heap after pushing `3`, `7` and `5`, taking out `3` and popping. -/
theorem heap_runs_three :
    HeapGood nodeCmp [(.push 3, none), (.push 7, none), (.push 5, none), (.remove 3, some 3),
        (.pop, some 7)]
      (HeapOp.exec nodeCmp (HeapOp.exec nodeCmp
        (pushAll nodeCmp (trisHeapCreate 0 (fun _ => 0) 8 0) [3, 7, 5]) (.remove 3)).2 .pop).2 := by
  refine (heap_runs nodeCmp_totalPreorder 0 (fun _ => 0) 8 0).1 _ _ ?_
  exact .cons ⟨by decide +kernel, rfl⟩ <| .cons ⟨by decide +kernel, rfl⟩ <|
    .cons ⟨by decide +kernel, rfl⟩ <|
    .cons ⟨by decide +kernel, Prod.ext (by decide +kernel) rfl⟩ <|
    .single ⟨trivial, Prod.ext (by decide +kernel) rfl⟩

/-- **Pushed twice, an element is at two positions and stores one.** -/
theorem not_good_of_double_push :
    ¬ ∀ cmpFn : ℕ → ℕ → ℤ, TotalPreorder cmpFn → ∀ evs h,
      Trace (HeapStep RemovesPresent cmpFn) (trisHeapCreate 0 (fun _ => 0) 8 0) evs h →
      HeapGood cmpFn evs h := by
  intro hall
  have hrun : Trace (HeapStep RemovesPresent nodeCmp) (trisHeapCreate 0 (fun _ => 0) 8 0)
      [(.push 4, none), (.push 4, none)]
      (pushAll nodeCmp (trisHeapCreate 0 (fun _ => 0) 8 0) [4, 4]) :=
    .cons ⟨trivial, rfl⟩ (.single ⟨trivial, rfl⟩)
  have hgood := hall nodeCmp nodeCmp_totalPreorder _ _ hrun
  have hone := hgood.indexed (by decide +kernel) 1 le_rfl (by decide +kernel)
  revert hone
  decide +kernel

end Heap

end Trismedia
