import Mathlib.Data.List.Basic
import Mathlib.Data.List.Nodup
import Mathlib.Logic.Function.Basic
/-!
# Doubly linked lists in memory

Cells are addresses `A`; a memory gives each cell a `next` and a `prev`
link. `IsDll next prev pr hd l` says that following `next` from `hd`
visits exactly the cells of `l` and that `prev` leads back, `pr` being
the cell before the first. The file has the two edits such a list sees,
a cell put in front and a cell taken out, and the loops that follow the
links. Nothing here says what the cells hold.
-/


variable {A B : Type*}

namespace Dll

/-- `if (p) p->f = v`: the field `f` with the value `v` stored in the cell
`p` points at. -/
def setAt [DecidableEq A] (f : A → B) (p : Option A) (v : B) : A → B :=
  match p with
  | some a => Function.update f a v
  | none => f

/-- **A doubly linked list.** The cells from `hd` on are `l`, and each
leads back to the one before it; `pr` comes before the first. -/
def IsDll (next prev : A → Option A) : Option A → Option A → List A → Prop
  | _, hd, [] => hd = none
  | pr, hd, a :: l => hd = some a ∧ prev a = pr ∧ IsDll next prev (some a) (next a) l

variable {next prev next' prev' : A → Option A} {pr hd : Option A} {a b : A} {l : List A}

@[simp] theorem isDll_nil : IsDll next prev pr hd [] ↔ hd = none := Iff.rfl

@[simp] theorem isDll_cons : IsDll next prev pr hd (a :: l) ↔
    hd = some a ∧ prev a = pr ∧ IsDll next prev (some a) (next a) l := Iff.rfl

/-- A list is read through the links of its own cells only. -/
theorem IsDll.congr (h : IsDll next prev pr hd l)
    (hag : ∀ a ∈ l, next' a = next a ∧ prev' a = prev a) : IsDll next' prev' pr hd l := by
  induction l generalizing pr hd with
  | nil => exact h
  | cons a l ih =>
    obtain ⟨rfl, hp, hl⟩ := h
    obtain ⟨hna, hpa⟩ := hag a List.mem_cons_self
    refine ⟨rfl, hpa.trans hp, ?_⟩
    rw [hna]
    exact ih hl fun b hb => hag b (List.mem_cons_of_mem _ hb)

/-- The head and the `next` links determine the cells. -/
theorem IsDll.unique {pr' : Option A} {l' : List A} (h : IsDll next prev pr hd l)
    (h' : IsDll next prev pr' hd l') : l = l' := by
  induction l generalizing pr pr' hd l' with
  | nil =>
    cases l' with
    | nil => rfl
    | cons b l' =>
      have hb := h'.1
      rw [isDll_nil.1 h] at hb
      cases hb
  | cons a l ih =>
    obtain ⟨rfl, -, hl⟩ := h
    cases l' with
    | nil => cases h'
    | cons b l' =>
      obtain ⟨hb, -, hl'⟩ := h'
      obtain rfl : a = b := Option.some.inj hb
      rw [ih hl hl']

/-- From one of its cells on, a list is a list. -/
theorem IsDll.suffix (h : IsDll next prev pr hd l) (ha : a ∈ l) :
    ∃ pr' l₁ l₂, l = l₁ ++ a :: l₂ ∧ IsDll next prev pr' (some a) (a :: l₂) := by
  induction l generalizing pr hd with
  | nil => cases ha
  | cons b l ih =>
    obtain ⟨rfl, hp, hl⟩ := h
    rcases List.mem_cons.1 ha with rfl | ha
    · exact ⟨pr, [], l, rfl, rfl, hp, hl⟩
    · obtain ⟨pr', l₁, l₂, rfl, h2⟩ := ih hl ha
      exact ⟨pr', b :: l₁, l₂, rfl, h2⟩

/-- **A list that ends visits no cell twice.** From a second visit the
walk would repeat the first for ever. -/
theorem IsDll.nodup (h : IsDll next prev pr hd l) : l.Nodup := by
  induction l generalizing pr hd with
  | nil => exact List.nodup_nil
  | cons a l ih =>
    obtain ⟨rfl, hp, hl⟩ := h
    refine List.nodup_cons.2 ⟨fun ha => ?_, ih hl⟩
    obtain ⟨pr', l₁, l₂, rfl, h2⟩ := hl.suffix ha
    have heq : l₁ ++ a :: l₂ = l₂ := hl.unique h2.2.2
    have hlen := congrArg List.length heq
    rw [List.length_append, List.length_cons] at hlen
    omega

theorem IsDll.head_mem (h : IsDll next prev pr (some a) l) : a ∈ l := by
  cases l with
  | nil => cases h
  | cons b l =>
    rw [Option.some.inj h.1]
    exact List.mem_cons_self

/-- A cell other than the first leads back to a cell of the list. -/
theorem IsDll.prev_of_mem_tail (h : IsDll next prev pr hd (b :: l)) (ha : a ∈ l) :
    ∃ c ∈ b :: l, prev a = some c := by
  induction l generalizing b pr hd with
  | nil => cases ha
  | cons c l ih =>
    have hl := h.2.2
    rcases List.mem_cons.1 ha with rfl | ha
    · exact ⟨b, List.mem_cons_self, hl.2.1⟩
    · obtain ⟨d, hd, hda⟩ := ih hl ha
      exact ⟨d, List.mem_cons_of_mem _ hd, hda⟩

/-! ## The links are mutually inverse -/

theorem IsDll.prev_next (h : IsDll next prev pr hd l) (ha : a ∈ l) (hn : next a = some b) :
    b ∈ l ∧ prev b = some a := by
  induction l generalizing pr hd with
  | nil => cases ha
  | cons c l ih =>
    obtain ⟨rfl, -, hl⟩ := h
    rcases List.mem_cons.1 ha with rfl | ha
    · rw [hn] at hl
      have hb := hl.head_mem
      cases l with
      | nil => cases hb
      | cons d l =>
        obtain ⟨hd, hp, -⟩ := hl
        rw [Option.some.inj hd]
        exact ⟨List.mem_cons_of_mem _ List.mem_cons_self, hp⟩
    · obtain ⟨hb, hp⟩ := ih hl ha
      exact ⟨List.mem_cons_of_mem _ hb, hp⟩

theorem IsDll.next_prev (h : IsDll next prev pr hd l) (ha : a ∈ l) (hp : prev a = some b)
    (hpr : pr ≠ some b) : b ∈ l ∧ next b = some a := by
  induction l generalizing pr hd with
  | nil => cases ha
  | cons c l ih =>
    obtain ⟨rfl, hpc, hl⟩ := h
    rcases List.mem_cons.1 ha with rfl | ha
    · exact absurd (hpc.symm.trans hp) hpr
    · rcases eq_or_ne c b with rfl | hcb
      · -- the cell before `a` is the first one, so `a` is the second
        cases l with
        | nil => cases ha
        | cons d l =>
          have hcd := hl.1
          rcases List.mem_cons.1 ha with rfl | ha
          · exact ⟨List.mem_cons_self, hcd⟩
          · obtain ⟨e, he, hpe⟩ := hl.prev_of_mem_tail ha
            obtain rfl : c = e := Option.some.inj (hp.symm.trans hpe)
            have hall : IsDll next prev pr (some c) (c :: d :: l) := ⟨rfl, hpc, hl⟩
            exact absurd he (List.nodup_cons.1 hall.nodup).1
      · obtain ⟨hb, hn⟩ := ih hl ha fun hc => hcb (Option.some.inj hc)
        exact ⟨List.mem_cons_of_mem _ hb, hn⟩

theorem IsDll.next_ne_self (h : IsDll next prev pr hd l) (ha : a ∈ l) : next a ≠ some a := by
  intro hn
  obtain ⟨pr', l₁, l₂, -, h2⟩ := h.suffix ha
  have hnd := h2.nodup
  rw [isDll_cons, hn] at h2
  exact (List.nodup_cons.1 hnd).1 h2.2.2.head_mem

theorem IsDll.prev_ne_self (h : IsDll next prev none hd l) (ha : a ∈ l) : prev a ≠ some a :=
  fun hp => h.next_ne_self ha (h.next_prev ha hp (by simp)).2

/-- Exactly the first cell has nothing before it. -/
theorem IsDll.head_iff (h : IsDll next prev none hd l) (ha : a ∈ l) :
    hd = some a ↔ prev a = none := by
  cases l with
  | nil => cases ha
  | cons b l =>
    have hback := h.prev_of_mem_tail (a := a)
    obtain ⟨rfl, hb, hl⟩ := h
    constructor
    · rintro hba
      rw [← Option.some.inj hba]
      exact hb
    · intro hp
      rcases List.mem_cons.1 ha with rfl | ha
      · rfl
      · obtain ⟨c, -, hc⟩ := hback ha
        rw [hp] at hc
        cases hc

/-- `a` is met on the way along `next` from `p`. -/
inductive Reaches (next : A → Option A) : Option A → A → Prop
  | here (a : A) : Reaches next (some a) a
  | there {a b : A} : Reaches next (next a) b → Reaches next (some a) b

theorem IsDll.reaches_iff (h : IsDll next prev pr hd l) : Reaches next hd a ↔ a ∈ l := by
  induction l generalizing pr hd with
  | nil =>
    obtain rfl : hd = none := h
    constructor
    · intro hr
      cases hr
    · intro ha
      cases ha
  | cons b l ih =>
    obtain ⟨rfl, -, hl⟩ := h
    rw [List.mem_cons, ← ih hl]
    constructor
    · intro hr
      cases hr with
      | here => exact .inl rfl
      | there hr => exact .inr hr
    · rintro (rfl | hr)
      · exact .here _
      · exact .there hr

/-! ## Putting a cell in front, taking a cell out -/

section Edits

variable [DecidableEq A]

@[simp] theorem setAt_none (f : A → B) (v : B) : setAt f none v = f := rfl

@[simp] theorem setAt_some (f : A → B) (a : A) (v : B) :
    setAt f (some a) v = Function.update f a v := rfl

theorem setAt_of_ne {f : A → B} {p : Option A} {v : B} (h : p ≠ some a) : setAt f p v a = f a := by
  cases p with
  | none => rfl
  | some b => exact Function.update_of_ne (fun hab => h (congrArg some hab.symm)) _ _

/-- **A cell put in front.** Its `next` takes the old head, its `prev` is
empty, and the old head leads back to it. -/
theorem IsDll.pushFront (h : IsDll next prev none hd l) (ha : a ∉ l) :
    IsDll (Function.update next a hd) (setAt (Function.update prev a none) hd (some a)) none
      (some a) (a :: l) := by
  cases l with
  | nil =>
    obtain rfl : hd = none := h
    simp
  | cons b l =>
    obtain ⟨hbl, -⟩ := List.nodup_cons.1 h.nodup
    obtain ⟨rfl, -, hl⟩ := h
    have hab : a ≠ b := fun hab => ha (hab ▸ List.mem_cons_self)
    refine ⟨rfl, ?_, ?_⟩
    · rw [setAt_some, Function.update_of_ne hab, Function.update_self]
    · rw [Function.update_self]
      refine ⟨rfl, Function.update_self .., ?_⟩
      rw [Function.update_of_ne hab.symm]
      refine hl.congr fun c hc => ?_
      have hca : c ≠ a := fun hca => ha (hca ▸ List.mem_cons_of_mem _ hc)
      have hcb : c ≠ b := fun hcb => hbl (hcb ▸ hc)
      rw [setAt_some, Function.update_of_ne hca, Function.update_of_ne hcb,
        Function.update_of_ne hca]
      exact ⟨rfl, rfl⟩

/-- **A cell taken out.** The cell before it takes over its `next`, the
cell after it its `prev`; where nothing comes before it the head moves. -/
theorem IsDll.unlink (h : IsDll next prev pr hd l) (hpr : ∀ p, pr = some p → p ∉ l) (ha : a ∈ l) :
    IsDll (setAt next (prev a) (next a)) (setAt prev (next a) (prev a)) pr
      (if prev a = pr then next a else hd) (l.erase a) := by
  induction l generalizing pr hd with
  | nil => cases ha
  | cons b l ih =>
    have hnd := h.nodup
    have hback := h.prev_of_mem_tail (a := a)
    obtain ⟨rfl, hpb, hl⟩ := h
    obtain ⟨hbl, -⟩ := List.nodup_cons.1 hnd
    rcases eq_or_ne b a with rfl | hba
    · -- the first cell goes: the head moves to the second
      rw [hpb, if_pos rfl, List.erase_cons_head]
      cases l with
      | nil => exact hl
      | cons c l =>
        obtain ⟨hnb, -, hl'⟩ := hl
        have hcl : c ∉ l := (List.nodup_cons.1 (List.nodup_cons.1 hnd).2).1
        rw [hnb]
        refine ⟨rfl, Function.update_self .., ?_⟩
        have hpc : pr ≠ some c := fun hc =>
          hpr c hc (List.mem_cons_of_mem _ List.mem_cons_self)
        rw [setAt_of_ne hpc]
        refine hl'.congr fun d hd => ⟨setAt_of_ne fun hc => ?_, ?_⟩
        · exact hpr d hc (List.mem_cons_of_mem _ (List.mem_cons_of_mem _ hd))
        · exact Function.update_of_ne (fun hdc : d = c => hcl (hdc ▸ hd)) _ _
    · have hal : a ∈ l := (List.mem_cons.1 ha).resolve_left (Ne.symm hba)
      obtain ⟨c, hc, hpa⟩ := hback hal
      have hne : prev a ≠ pr := fun he => hpr c (he ▸ hpa) hc
      have hstep := ih hl (fun p hp => Option.some.inj hp ▸ hbl) hal
      have hnb : next a ≠ some b := fun he => hbl (hl.prev_next hal he).1
      rw [if_neg hne, List.erase_cons_tail (by simpa using hba)]
      refine ⟨rfl, (setAt_of_ne hnb).trans hpb, ?_⟩
      rcases eq_or_ne (prev a) (some b) with hab | hab
      · rw [if_pos hab] at hstep
        rw [hab] at hstep ⊢
        rw [setAt_some, Function.update_self]
        exact hstep
      · rw [if_neg hab] at hstep
        rw [setAt_of_ne hab]
        exact hstep

end Edits

/-! ## Loops along the links -/

/-- `for (b = p; b; b = b->next) if (found(b)) break;` for at most `n`
cells; the outer `none` says that the loop has not ended by then. -/
def findLink (next : A → Option A) (found : A → Bool) : ℕ → Option A → Option (Option A)
  | _, none => some none
  | 0, some _ => none
  | n + 1, some a => if found a then some (some a) else findLink next found n (next a)

/-- `for (c = 0, b = p; b; b = b->next) c++;` for at most `n` cells. -/
def countLinks (next : A → Option A) : ℕ → Option A → Option ℕ
  | _, none => some 0
  | 0, some _ => none
  | n + 1, some a => (countLinks next n (next a)).map (· + 1)

theorem IsDll.findLink_eq {found : A → Bool} {n : ℕ} (h : IsDll next prev pr hd l)
    (hn : l.length ≤ n) : findLink next found n hd = some (l.find? found) := by
  induction l generalizing pr hd n with
  | nil =>
    obtain rfl : hd = none := h
    cases n <;> rfl
  | cons a l ih =>
    obtain ⟨rfl, -, hl⟩ := h
    cases n with
    | zero => cases hn
    | succ n =>
      rw [findLink, List.find?_cons, ih hl (Nat.le_of_succ_le_succ hn)]
      cases found a <;> rfl

theorem IsDll.countLinks_eq {n : ℕ} (h : IsDll next prev pr hd l) (hn : l.length ≤ n) :
    countLinks next n hd = some l.length := by
  induction l generalizing pr hd n with
  | nil =>
    obtain rfl : hd = none := h
    cases n <;> rfl
  | cons a l ih =>
    obtain ⟨rfl, -, hl⟩ := h
    cases n with
    | zero => cases hn
    | succ n =>
      rw [countLinks, ih hl (Nat.le_of_succ_le_succ hn)]
      rfl

end Dll
