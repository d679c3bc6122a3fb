import Mathlib.Data.List.Induction
import Trismedia.Common.Ring
import Trismedia.FixedJb.Model
/-!
# The queue of the fixed jitter buffer

`ListOk` says how the queued frames stand in memory: a doubly linked list
from `frames` to `tail`. Each piece of `fixed_jb_put`, `fixed_jb_get` and
`resynch_jb` has one lemma, which says that it returns and which list it
leaves.
-/


namespace Trismedia

namespace Fixedjitterbuf

open Ring

/-- A frame in the queue: its address and what it holds. -/
abbrev Item := ℕ × FrameData

/-- The frame of an item. -/
def itemNode (x : Item) (next prev : ℕ) : FixedJbFrame := ⟨x.2, next, prev⟩

/-- The frames from `p` to the null pointer. -/
abbrev FrameArc (mem : ℕ → Option FixedJbFrame) (p : ℕ) (l : List Item) (q : ℕ) : Prop :=
  Arc mem Prod.fst itemNode p l q

/-- **The queue in memory.** -/
structure ListOk (jb : FixedJb) (l : List Item) : Prop where
  frames : jb.frames = first Prod.fst l 0
  tail : jb.tail = last Prod.fst l 0
  arc : FrameArc jb.mem 0 l 0
  nonnull : ∀ x ∈ l, x.1 ≠ 0
  nodup : (l.map Prod.fst).Nodup

variable {jb : FixedJb} {mem : ℕ → Option FixedJbFrame} {l l₁ l₂ : List Item} {h x y : Item}
variable {a p v fuel newframe : ℕ} {d : FrameData} {f : FixedJbFrame}
variable {delivery ms offset now interpl : ℤ} {jb' : FixedJb} {ret : FixedJbCode}
variable {frame : Option FixedJbFrame}

theorem setNext_eq (h : mem a = some f) :
    setNext mem a v = some (Function.update mem a (some { f with next := v })) := by
  unfold setNext
  rw [h]
  rfl

theorem setPrev_eq (h : mem a = some f) :
    setPrev mem a v = some (Function.update mem a (some { f with prev := v })) := by
  unfold setPrev
  rw [h]
  rfl

theorem ListOk.frames_eq_zero (hl : ListOk jb l) : jb.frames = 0 ↔ l = [] := by
  rw [hl.frames]
  cases l with
  | nil => simp [first]
  | cons x l => simpa [first] using hl.nonnull x List.mem_cons_self

/-- Memory that is not in use is not a queued frame's. -/
theorem ListOk.notMem_of_free (hl : ListOk jb l) (hfree : jb.mem a = none) :
    a ∉ l.map Prod.fst := by
  intro hmem
  obtain ⟨x, hx, rfl⟩ := List.mem_map.1 hmem
  obtain ⟨n, p, hcell⟩ := hl.arc.cell hx
  rw [hfree] at hcell
  cases hcell

theorem frameArc_append {q : ℕ} : FrameArc mem p (l₁ ++ l₂) q ↔
    FrameArc mem p l₁ (first Prod.fst l₂ q) ∧ FrameArc mem (last Prod.fst l₁ p) l₂ q := Arc.append

/-- The cell of the last item of the first part. -/
theorem cell_of_append (harc : FrameArc mem p ((l₁ ++ [x]) ++ l₂) 0) :
    mem x.1 = some (itemNode x (first Prod.fst l₂ 0) (last Prod.fst l₁ p)) := by
  rw [frameArc_append, frameArc_append] at harc
  exact harc.1.2.1

/-! ## Putting a frame -/

/-- **The place of a frame**: after the last one that is not later. -/
theorem findPlace_spec (delivery : ℤ) (harc : FrameArc mem 0 (l₁ ++ l₂) 0) (hnn : ∀ x ∈ l₁, x.1 ≠ 0)
    (hl₂ : ∀ y ∈ l₂, delivery < y.2.delivery) :
    ∃ k₁ k₂, l₁ ++ l₂ = k₁ ++ k₂ ∧
      (∀ fuel, l₁.length < fuel →
        findPlace mem delivery fuel (last Prod.fst l₁ 0) = some (last Prod.fst k₁ 0)) ∧
      (∀ y ∈ k₂, delivery < y.2.delivery) ∧ ∀ y ∈ k₁.getLast?, y.2.delivery ≤ delivery := by
  induction l₁ using List.reverseRecOn generalizing l₂ with
  | nil =>
    refine ⟨[], l₂, rfl, fun fuel hfuel => ?_, hl₂, by simp⟩
    obtain ⟨fuel, rfl⟩ : ∃ n, fuel = n + 1 := ⟨fuel - 1, by omega⟩
    rfl
  | append_singleton l₁ x ih =>
    have hcell := cell_of_append harc
    have hx : x.1 ≠ 0 := hnn x (by simp)
    have hlast : last Prod.fst (l₁ ++ [x]) 0 = x.1 := last_append
    have hstep : ∀ fuel, findPlace mem delivery (fuel + 1) x.1 =
        if x.2.delivery > delivery then findPlace mem delivery fuel (last Prod.fst l₁ 0)
        else some x.1 := by
      intro fuel
      rw [findPlace, if_pos hx, hcell]
      rfl
    rw [hlast]
    by_cases hlate : x.2.delivery > delivery
    · have harc' : FrameArc mem 0 (l₁ ++ x :: l₂) 0 := by simpa using harc
      obtain ⟨k₁, k₂, hk, hfind, hk₂, hk₁⟩ := ih harc'
        (fun y hy => hnn y (List.mem_append_left _ hy)) (by
          intro y hy
          rcases List.mem_cons.1 hy with rfl | hy
          · exact hlate
          · exact hl₂ y hy)
      refine ⟨k₁, k₂, by simpa using hk, fun fuel hfuel => ?_, hk₂, hk₁⟩
      rw [List.length_append, List.length_singleton] at hfuel
      obtain ⟨fuel, rfl⟩ : ∃ n, fuel = n + 1 := ⟨fuel - 1, by omega⟩
      rw [hstep, if_pos hlate]
      exact hfind fuel (by omega)
    · refine ⟨l₁ ++ [x], l₂, rfl, fun fuel hfuel => ?_, hl₂, ?_⟩
      · obtain ⟨fuel, rfl⟩ : ∃ n, fuel = n + 1 := ⟨fuel - 1, by omega⟩
        rw [hstep, if_neg hlate, hlast]
      · intro y hy
        rw [List.getLast?_concat, Option.mem_some_iff] at hy
        subst hy
        omega

/-- The frame fits after the chosen one and, where there is a chosen one,
before the next. -/
def Fits (l₁ l₂ : List Item) (delivery ms : ℤ) : Prop :=
  (∀ x ∈ l₁.getLast?, x.2.delivery + x.2.ms ≤ delivery) ∧
    (l₁ ≠ [] → ∀ y ∈ l₂.head?, delivery + ms ≤ y.2.delivery)

theorem covered_spec (delivery ms : ℤ) (harc : FrameArc mem 0 (l₁ ++ l₂) 0) (hnn : ∀ x ∈ l₁ ++ l₂, x.1 ≠ 0) :
    (l₁ ≠ [] ∧ covered mem (last Prod.fst l₁ 0) delivery ms = some true) ∨
      (covered mem (last Prod.fst l₁ 0) delivery ms = some false ∧ Fits l₁ l₂ delivery ms) := by
  rcases List.eq_nil_or_concat' l₁ with rfl | ⟨l₁, x, rfl⟩
  · exact .inr ⟨rfl, by simp, fun hne => absurd rfl hne⟩
  have hcell := cell_of_append harc
  have hx : x.1 ≠ 0 := hnn x (by simp)
  have hlast : last Prod.fst (l₁ ++ [x]) 0 = x.1 := last_append
  have hfits : Fits (l₁ ++ [x]) l₂ delivery ms ↔ x.2.delivery + x.2.ms ≤ delivery ∧
      ∀ y ∈ l₂.head?, delivery + ms ≤ y.2.delivery := by simp [Fits]
  rw [hlast, hfits]
  unfold covered
  rw [if_pos hx, hcell]
  simp only [Option.bind_eq_bind, Option.bind_some, itemNode]
  by_cases hcov : x.2.delivery = delivery ∨ delivery < x.2.delivery + x.2.ms
  · left
    rw [if_pos hcov]
    exact ⟨by simp, rfl⟩
  rw [if_neg hcov]
  cases l₂ with
  | nil =>
    right
    rw [first, if_neg (by simp)]
    exact ⟨rfl, by omega, by simp⟩
  | cons y l₂ =>
    have hy : y.1 ≠ 0 := hnn y (by simp)
    have hycell : mem y.1 = some (itemNode y (first Prod.fst l₂ 0) x.1) := by
      rw [frameArc_append, hlast] at harc
      exact harc.2.1
    rw [first, if_pos hy, hycell]
    simp only [Option.bind_some, itemNode, List.head?_cons, Option.mem_some_iff, forall_eq']
    by_cases hnext : delivery + ms > y.2.delivery
    · left
      exact ⟨by simp, by simp [hnext]⟩
    · right
      exact ⟨by simp [hnext], by omega, by omega⟩

/-- **A frame is linked in** after the chosen one. -/
theorem insertFrame_spec (hl : ListOk jb (l₁ ++ l₂)) (hnew : newframe ≠ 0)
    (hfree : jb.mem newframe = none) :
    ∃ frames tail mem', insertFrame jb (last Prod.fst l₁ 0) newframe d =
        some { jb with frames := frames, tail := tail, mem := mem' } ∧
      ListOk { jb with frames := frames, tail := tail, mem := mem' }
        (l₁ ++ (newframe, d) :: l₂) := by
  have hfresh := hl.notMem_of_free hfree
  have hne : ∀ x ∈ l₁ ++ l₂, x.1 ≠ newframe := by
    intro x hx heq
    exact hfresh (heq ▸ List.mem_map_of_mem hx)
  have hnn : ∀ x ∈ l₁ ++ (newframe, d) :: l₂, x.1 ≠ 0 := by
    intro x hx
    rcases List.mem_append.1 hx with hx | hx
    · exact hl.nonnull x (List.mem_append_left _ hx)
    rcases List.mem_cons.1 hx with rfl | hx
    · exact hnew
    · exact hl.nonnull x (List.mem_append_right _ hx)
  have hnd : ((l₁ ++ (newframe, d) :: l₂).map Prod.fst).Nodup := by
    have hnd := hl.nodup
    have hp : (l₁ ++ (newframe, d) :: l₂).Perm ((newframe, d) :: (l₁ ++ l₂)) :=
      List.perm_middle
    rw [(hp.map Prod.fst).nodup_iff, List.map_cons, List.nodup_cons]
    exact ⟨hfresh, hnd⟩
  -- the new frame's cell, and the others as they were
  have harc := hl.arc
  generalize hmem₀ : Function.update jb.mem newframe (some ⟨d, 0, 0⟩) = mem₀
  have hnewcell : mem₀ newframe = some ⟨d, 0, 0⟩ := by
    rw [← hmem₀]
    exact Function.update_self ..
  have harc₀ : FrameArc mem₀ 0 (l₁ ++ l₂) 0 := harc.frame fun x hx => by
    rw [← hmem₀]
    exact Function.update_of_ne (hne x hx) ..
  unfold insertFrame
  rw [hmem₀]
  rcases List.eq_nil_or_concat' l₁ with rfl | ⟨l₁, x, rfl⟩
  · rw [last, if_neg (by simp)]
    cases l₂ with
    | nil =>
      have hf : jb.frames = 0 := hl.frames
      have ht : jb.tail = 0 := hl.tail
      rw [if_pos hf, if_pos ht]
      exact ⟨_, _, _, rfl, ⟨rfl, rfl, ⟨hnewcell, trivial⟩, hnn, hnd⟩⟩
    | cons y l₂ =>
      have hf : jb.frames = y.1 := hl.frames
      have hy : y.1 ≠ 0 := hl.nonnull y (by simp)
      have hyne : y.1 ≠ newframe := hne y (by simp)
      have hndy : y.1 ∉ l₂.map Prod.fst := (List.nodup_cons.1 hl.nodup).1
      rw [if_neg (by rwa [hf]), hf, setNext_eq hnewcell]
      simp only [Option.bind_eq_bind, Option.bind_some]
      generalize hmem₁ : Function.update mem₀ newframe (some ⟨d, y.1, 0⟩) = mem₁
      have harc₁ : FrameArc mem₁ 0 (y :: l₂) 0 := harc₀.frame fun z hz => by
        rw [← hmem₁]
        exact Function.update_of_ne (hne z hz) ..
      have hcell₁ : mem₁ newframe = some ⟨d, y.1, 0⟩ := by
        rw [← hmem₁]
        exact Function.update_self ..
      rw [setPrev_eq harc₁.1]
      refine ⟨_, _, _, rfl, ⟨rfl, hl.tail, ⟨?_, ?_⟩, hnn, hnd⟩⟩
      · exact (Function.update_of_ne hyne.symm ..).trans hcell₁
      · exact harc₁.setFirst hndy newframe
  · have hx : x.1 ≠ 0 := hl.nonnull x (by simp)
    have hxne : x.1 ≠ newframe := hne x (by simp)
    have hlast : last Prod.fst (l₁ ++ [x]) 0 = x.1 := last_append
    have hxcell := cell_of_append harc₀
    obtain ⟨hxl₁, hxl₂⟩ : x.1 ∉ l₁.map Prod.fst ∧ x.1 ∉ l₂.map Prod.fst := by
      have hnd := hl.nodup
      rw [List.append_assoc, List.map_append, List.nodup_append] at hnd
      refine ⟨fun hmem => hnd.2.2 x.1 hmem x.1 (by simp) rfl, ?_⟩
      exact (List.nodup_cons.1 hnd.2.1).1
    rw [hlast, if_pos hx, hxcell]
    simp only [Option.bind_eq_bind, Option.bind_some, itemNode]
    rw [setNext_eq hxcell]
    simp only [Option.bind_some, itemNode]
    -- the chosen frame points at the new one
    rw [frameArc_append, hlast] at harc₀
    generalize hmem₁ : Function.update mem₀ x.1 (some ⟨x.2, newframe, last Prod.fst l₁ 0⟩) = mem₁
    have hfst₁ : FrameArc mem₁ 0 (l₁ ++ [x]) newframe := by
      rw [← hmem₁]
      exact harc₀.1.setLast hxl₁ newframe
    have hsnd₁ : FrameArc mem₁ x.1 l₂ 0 := harc₀.2.frame fun z hz => by
      rw [← hmem₁]
      refine Function.update_of_ne (fun heq => hxl₂ ?_) ..
      exact heq ▸ List.mem_map_of_mem hz
    have hnew₁ : mem₁ newframe = some ⟨d, 0, 0⟩ := by
      rw [← hmem₁]
      exact (Function.update_of_ne hxne.symm ..).trans hnewcell
    rw [setNext_eq hnew₁]
    simp only [Option.bind_some]
    generalize hmem₂ : Function.update mem₁ newframe
      (some ⟨d, first Prod.fst l₂ 0, 0⟩) = mem₂
    have hoff₂ : ∀ a, a ≠ newframe → mem₂ a = mem₁ a := by
      intro a ha
      rw [← hmem₂]
      exact Function.update_of_ne ha ..
    have hfst₂ : FrameArc mem₂ 0 (l₁ ++ [x]) newframe := hfst₁.frame fun z hz =>
      hoff₂ _ (hne z (List.mem_append_left _ hz))
    have hsnd₂ : FrameArc mem₂ x.1 l₂ 0 := hsnd₁.frame fun z hz =>
      hoff₂ _ (hne z (List.mem_append_right _ hz))
    have hnew₂ : mem₂ newframe = some ⟨d, first Prod.fst l₂ 0, 0⟩ := by
      rw [← hmem₂]
      exact Function.update_self ..
    have hframes : jb.frames = first Prod.fst ((l₁ ++ [x]) ++ (newframe, d) :: l₂) 0 := by
      rw [hl.frames]
      cases l₁ <;> rfl
    cases l₂ with
    | nil =>
      rw [first, if_neg (by simp), if_neg (by simp)]
      simp only [pure, Option.bind_some]
      rw [setPrev_eq hnew₂]
      have htail : newframe = last Prod.fst ((l₁ ++ [x]) ++ [(newframe, d)]) 0 := by
        simp only [last_append, last]
      refine ⟨_, _, _, rfl, ⟨hframes, htail, ?_, hnn, hnd⟩⟩
      refine frameArc_append.2 ⟨hfst₂.frame fun z hz => ?_, ?_, trivial⟩
      · exact Function.update_of_ne (hne z (List.mem_append_left _ hz)) ..
      · rw [hlast]
        exact Function.update_self ..
    | cons y l₂ =>
      have hy : y.1 ≠ 0 := hl.nonnull y (by simp)
      have hyne : y.1 ≠ newframe := hne y (by simp)
      have hyl₂ : y.1 ∉ l₂.map Prod.fst := by
        have hnd := hl.nodup
        rw [List.map_append, List.nodup_append] at hnd
        exact (List.nodup_cons.1 hnd.2.1).1
      have hyl₁ : ∀ z ∈ l₁ ++ [x], z.1 ≠ y.1 := by
        intro z hz
        have hnd := hl.nodup
        rw [List.map_append, List.nodup_append] at hnd
        exact hnd.2.2 _ (List.mem_map_of_mem hz) y.1 (by simp)
      rw [first, if_pos hy, if_pos hy, setPrev_eq hsnd₂.1]
      simp only [Option.bind_some]
      generalize hmem₃ : Function.update mem₂ y.1
        (some { itemNode y (first Prod.fst l₂ 0) x.1 with prev := newframe }) = mem₃
      have hsnd₃ : FrameArc mem₃ newframe (y :: l₂) 0 := by
        rw [← hmem₃]
        exact hsnd₂.setFirst hyl₂ newframe
      have hfst₃ : FrameArc mem₃ 0 (l₁ ++ [x]) newframe := hfst₂.frame fun z hz => by
        rw [← hmem₃]
        exact Function.update_of_ne (hyl₁ z hz) ..
      have hnew₃ : mem₃ newframe = some ⟨d, y.1, 0⟩ := by
        rw [← hmem₃]
        exact (Function.update_of_ne hyne.symm ..).trans hnew₂
      rw [setPrev_eq hnew₃]
      have htail : jb.tail = last Prod.fst ((l₁ ++ [x]) ++ (newframe, d) :: y :: l₂) 0 := by
        rw [hl.tail]
        simp only [last_append, last]
      refine ⟨_, _, _, rfl, ⟨hframes, htail, ?_, hnn, hnd⟩⟩
      refine frameArc_append.2 ⟨hfst₃.frame fun z hz => ?_, ?_, hsnd₃.frame fun z hz => ?_⟩
      · exact Function.update_of_ne (hne z (List.mem_append_left _ hz)) ..
      · rw [hlast]
        exact Function.update_self ..
      · exact Function.update_of_ne (hne z (List.mem_append_right _ hz)) ..

/-! ## Shifting the timestamps -/

/-- The item with its timestamp shifted. -/
def Item.shift (offset : ℤ) (x : Item) : Item := (x.1, { x.2 with ts := x.2.ts + offset })

theorem map_shift_fst (l : List Item) : (l.map (Item.shift offset)).map Prod.fst = l.map Prod.fst := by
  rw [List.map_map]
  rfl

theorem first_shift (l : List Item) (q : ℕ) :
    first Prod.fst (l.map (Item.shift offset)) q = first Prod.fst l q := by
  cases l <;> rfl

theorem last_shift (l : List Item) (p : ℕ) :
    last Prod.fst (l.map (Item.shift offset)) p = last Prod.fst l p := by
  induction l generalizing p with
  | nil => rfl
  | cons x l ih => exact ih x.1

/-- **The offset is added to every timestamp**, and to nothing else. -/
theorem shiftTs_spec (offset : ℤ) (harc : FrameArc mem p l 0) (hnn : ∀ x ∈ l, x.1 ≠ 0)
    (hnd : (l.map Prod.fst).Nodup) :
    ∃ mem', (∀ fuel, l.length < fuel →
        shiftTs offset fuel mem (first Prod.fst l 0) = some mem') ∧
      FrameArc mem' p (l.map (Item.shift offset)) 0 ∧
      ∀ a, a ∉ l.map Prod.fst → mem' a = mem a := by
  induction l generalizing mem p with
  | nil =>
    refine ⟨mem, fun fuel hfuel => ?_, trivial, fun a _ => rfl⟩
    obtain ⟨fuel, rfl⟩ : ∃ n, fuel = n + 1 := ⟨fuel - 1, by omega⟩
    rfl
  | cons x l ih =>
    rw [List.map_cons, List.nodup_cons] at hnd
    have hx : x.1 ≠ 0 := hnn x List.mem_cons_self
    generalize hmem₁ : Function.update mem x.1 (some (itemNode (x.shift offset)
      (first Prod.fst l 0) p)) = mem₁
    have harc₁ : FrameArc mem₁ x.1 l 0 := harc.2.frame fun y hy => by
      rw [← hmem₁]
      refine Function.update_of_ne (fun heq => hnd.1 ?_) ..
      exact heq ▸ List.mem_map_of_mem hy
    obtain ⟨mem', hshift, harc', hoff⟩ := ih harc₁
      (fun y hy => hnn y (List.mem_cons_of_mem _ hy)) hnd.2
    refine ⟨mem', fun fuel hfuel => ?_, ⟨?_, harc'⟩, fun a ha => ?_⟩
    · rw [List.length_cons] at hfuel
      obtain ⟨fuel, rfl⟩ : ∃ n, fuel = n + 1 := ⟨fuel - 1, by omega⟩
      rw [first, shiftTs, if_pos hx, harc.1]
      have hrest := hshift fuel (by omega)
      rw [← hmem₁] at hrest
      exact hrest
    · have hcell := hoff x.1 hnd.1
      rw [← hmem₁, Function.update_self] at hcell
      rw [first_shift]
      exact hcell
    · rw [List.map_cons, List.mem_cons, not_or] at ha
      rw [hoff a ha.2, ← hmem₁]
      exact Function.update_of_ne ha.1 ..

/-! ## Taking a frame -/

/-- **The head is taken.** -/
theorem getJbHead_spec (hl : ListOk jb (h :: l)) :
    ∃ mem' f, getJbHead jb = some ({ jb with
        frames := first Prod.fst l 0
        tail := last Prod.fst l 0
        nextDelivery := h.2.delivery + h.2.ms
        mem := mem' }, f) ∧
      f.toFrameData = h.2 ∧ FrameArc mem' 0 l 0 := by
  have hf : jb.frames = h.1 := hl.frames
  have ht : jb.tail = last Prod.fst l h.1 := hl.tail
  have hnd := hl.nodup
  rw [List.map_cons, List.nodup_cons] at hnd
  have hcell := hl.arc.1
  have harc := hl.arc.2
  unfold getJbHead
  rw [hf, hcell]
  simp only [Option.bind_eq_bind, Option.bind_some]
  cases l with
  | nil =>
    rw [first] at hcell ⊢
    simp only [itemNode, ne_eq, not_true_eq_false, if_false, pure, Option.bind_some] at hcell ⊢
    rw [hcell]
    exact ⟨_, _, rfl, rfl, trivial⟩
  | cons y l =>
    have hy : y.1 ≠ 0 := hl.nonnull y (by simp)
    have hyne : y.1 ≠ h.1 := by
      intro heq
      exact hnd.1 (by simp [heq])
    rw [List.map_cons, List.nodup_cons] at hnd
    rw [first] at hcell ⊢
    simp only [itemNode, ne_eq, hy, not_false_eq_true, if_true]
    rw [setPrev_eq harc.1]
    simp only [Option.bind_some]
    rw [Function.update_of_ne hyne.symm, hcell]
    simp only [Option.bind_some, itemNode, hy, not_false_eq_true, if_true, ht]
    refine ⟨_, _, rfl, rfl, ?_⟩
    refine Arc.frame (harc.setFirst hnd.2.1 0) fun z hz => ?_
    refine Function.update_of_ne (fun heq => hnd.1 ?_) ..
    exact heq ▸ List.mem_map_of_mem hz

/-- What taking the head leaves. -/
theorem ListOk.taken (hl : ListOk jb l) (hne : jb.frames ≠ 0)
    (hget : getJbHead jb = some (jb', f)) :
    ∃ h l', l = h :: l' ∧ ListOk jb' l' ∧ jb'.rxcore = jb.rxcore ∧ jb'.delay = jb.delay ∧
      jb'.resyncThreshold = jb.resyncThreshold := by
  cases l with
  | nil => exact absurd (hl.frames_eq_zero.2 rfl) hne
  | cons h l =>
    obtain ⟨mem', f', hspec, -, harc⟩ := getJbHead_spec hl
    rw [hget] at hspec
    obtain ⟨rfl, rfl⟩ := Prod.mk.inj (Option.some.inj hspec)
    refine ⟨h, l, rfl, ⟨rfl, rfl, harc, fun x hx => ?_, ?_⟩, rfl, rfl, rfl⟩
    · exact hl.nonnull x (List.mem_cons_of_mem _ hx)
    · exact (List.nodup_cons.1 hl.nodup).2

/-- `fixed_jb_get` takes the head, or only moves the next delivery. -/
theorem fixedJbGet_cases (hget : fixedJbGet jb now interpl = some (jb', ret, frame)) :
    (∃ next, jb' = { jb with nextDelivery := next }) ∨
      (jb.frames ≠ 0 ∧ ∃ f, getJbHead jb = some (jb', f)) := by
  unfold fixedJbGet at hget
  split at hget
  case isFalse => cases hget
  split at hget
  · cases hget
    exact .inl ⟨jb.nextDelivery, rfl⟩
  split at hget
  · cases hget
    exact .inl ⟨jb.nextDelivery + interpl, rfl⟩
  rename_i hne
  obtain ⟨head, -, hget⟩ := Option.bind_eq_some_iff.1 hget
  split at hget
  · obtain ⟨⟨jb₁, f⟩, hhead, hret⟩ := Option.bind_eq_some_iff.1 hget
    cases hret
    exact .inr ⟨hne, f, hhead⟩
  split at hget
  · cases hget
    exact .inl ⟨jb.nextDelivery + interpl, rfl⟩
  · obtain ⟨⟨jb₁, f⟩, hhead, hret⟩ := Option.bind_eq_some_iff.1 hget
    cases hret
    exact .inr ⟨hne, f, hhead⟩

/-- `fixed_jb_remove` takes the head, or finds none. -/
theorem fixedJbRemove_cases (hrem : fixedJbRemove jb = some (jb', ret, frame)) :
    jb' = jb ∨ (jb.frames ≠ 0 ∧ ∃ f, getJbHead jb = some (jb', f)) := by
  unfold fixedJbRemove at hrem
  split at hrem
  · cases hrem
    exact .inl rfl
  · rename_i hne
    obtain ⟨⟨jb₁, f⟩, hhead, hret⟩ := Option.bind_eq_some_iff.1 hrem
    cases hret
    exact .inr ⟨hne, f, hhead⟩

end Fixedjitterbuf

end Trismedia
