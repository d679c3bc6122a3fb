import Mathlib.Data.BitVec
import Mathlib.Algebra.Order.Group.Int
import Trismedia.Common.Leads
/-!
# Hunting for a circuit

The idle circuits of a linkset, linked through `next_idle` with the one freed
last in front, and how one is taken from them, `cic_hunt` of
`channels/ss7/l4isup.c`. A loop over the list takes fuel, and one that runs out
of it is `none`.
-/


namespace Trismedia

namespace Isup

open Links

/-! ## Circuits -/

/-- The bits of `blocked`. -/
def blLm : BitVec 32 := 1

def blLh : BitVec 32 := 2

def blRm : BitVec 32 := 4

def blRh : BitVec 32 := 8

def blUnequipped : BitVec 32 := 0x10

def blLinkdown : BitVec 32 := 0x20

variable {C : Type*}

namespace Hunt

/-- What of a `struct ss7_chan` the hunt reads. -/
structure SsChan (C : Type*) where
  nextIdle : Option C
  cic : ℕ
  resetDone : Bool
  blocked : BitVec 32

/-- `hunt_policy` -/
inductive HuntPolicy where
  | oddLru
  | evenMru
  | seqLth
  | seqHtl
  deriving DecidableEq

/-- What of a `struct linkset` the hunt reads, and the circuits. -/
structure Linkset (C : Type*) where
  idleList : Option C
  huntPolicy : HuntPolicy
  chan : C → SsChan C

/-- A line that is not resetting or blocked: one that is blocked for the other
end alone, `BL_LM`, may be selected. -/
def SsChan.selectable (c : SsChan C) : Bool :=
  c.resetDone ∧ c.blocked &&& (blLh ||| blRm ||| blRh ||| blUnequipped ||| blLinkdown) = 0

/-! ## The hunt -/

/-- `best` and `best_prev`. -/
structure Best (C : Type*) where
  best : Option C := none
  bestPrev : Option C := none

/-- The loop over the idle list: `select` is what it does with a line it may
select, and `stop` where it breaks. -/
def huntLoop (chan : C → SsChan C) (select : Best C → Option C → C → Best C) (stop : C → Bool) :
    ℕ → Best C → Option C → Option C → Option (Best C)
  | _, b, _, none => some b
  | 0, _, _, some _ => none
  | fuel + 1, b, prev, some cur =>
    if !(chan cur).selectable then huntLoop chan select stop fuel b (some cur) (chan cur).nextIdle
    else if stop cur then some (select b prev cur)
    else huntLoop chan select stop fuel (select b prev cur) (some cur) (chan cur).nextIdle

variable [DecidableEq C]

/-- The best is taken off the list; `none` if there is none. -/
def takeBest (ls : Linkset C) (b : Best C) : Linkset C × Option C :=
  match b.best with
  | none => (ls, none)
  | some best =>
    let next := (ls.chan best).nextIdle
    let ls :=
      match b.bestPrev with
      | none => { ls with idleList := next }
      | some prev =>
        { ls with chan := Function.update ls.chan prev { ls.chan prev with nextIdle := next } }
    ({ ls with chan := Function.update ls.chan best { ls.chan best with nextIdle := none } },
      some best)

/-- A pass of `cic_hunt_odd_lru`. -/
def selectOdd (chan : C → SsChan C) (odd : ℕ) (b : Best C) (prev : Option C) (cur : C) : Best C :=
  if (chan cur).cic % 2 = odd then ⟨some cur, prev⟩ else b

/-- `cic_hunt_odd_lru` -/
def cicHuntOddLru (fuel : ℕ) (ls : Linkset C) : Option (Linkset C × Option C) := do
  let b ← huntLoop ls.chan (selectOdd ls.chan 1) (fun _ => false) fuel {} none ls.idleList
  if b.best.isSome then some (takeBest ls b)
  else
    let b ← huntLoop ls.chan (selectOdd ls.chan 0) (fun _ => false) fuel b none ls.idleList
    some (takeBest ls b)

/-- The first idle even circuit, if any, or the first odd one. -/
def selectEven (chan : C → SsChan C) (b : Best C) (prev : Option C) (cur : C) : Best C :=
  if (chan cur).cic % 2 = 0 then ⟨some cur, prev⟩
  else if b.best.isNone then ⟨some cur, prev⟩
  else b

/-- `cic_hunt_even_mru` -/
def cicHuntEvenMru (fuel : ℕ) (ls : Linkset C) : Option (Linkset C × Option C) := do
  let b ← huntLoop ls.chan (selectEven ls.chan) (fun cur => (ls.chan cur).cic % 2 = 0) fuel {} none
    ls.idleList
  some (takeBest ls b)

/-- The lowest, or the highest. Before the first is taken `best_prev` is not
set. -/
def selectSeq (chan : C → SsChan C) (lth : Bool) (b : Best C) (prev : Option C) (cur : C) : Best C :=
  match b.best with
  | none => { b with best := some cur }
  | some best =>
    if lth then if (chan cur).cic < (chan best).cic then ⟨some cur, prev⟩ else b
    else if (chan cur).cic > (chan best).cic then ⟨some cur, prev⟩ else b

/-- `cic_hunt_seq_lth_htl` -/
def cicHuntSeqLthHtl (fuel : ℕ) (ls : Linkset C) (lth : Bool) : Option (Linkset C × Option C) := do
  let b ← huntLoop ls.chan (selectSeq ls.chan lth) (fun _ => false) fuel {} none ls.idleList
  some (takeBest ls b)

/-- **`cic_hunt`** -/
def cicHunt (fuel : ℕ) (ls : Linkset C) : Option (Linkset C × Option C) :=
  match ls.huntPolicy with
  | .oddLru => cicHuntOddLru fuel ls
  | .evenMru => cicHuntEvenMru fuel ls
  | .seqLth => cicHuntSeqLthHtl fuel ls true
  | .seqHtl => cicHuntSeqLthHtl fuel ls false

/-! ## What is asked of it -/

/-- **The idle list** has no circuit twice. -/
structure IdleList (ls : Linkset C) (l : List C) : Prop where
  leads : Leads (fun c => (ls.chan c).nextIdle) ls.idleList l none
  nodup : l.Nodup

/-- The circuits of the list that may be selected. -/
def selectables (ls : Linkset C) (l : List C) : List C := l.filter fun c => (ls.chan c).selectable

/-- **The circuit that a policy names**: the odd one that is free longest, or
else the even one; the even one that was free last, or else the odd one; the
lowest; the highest. -/
def Named (ls : Linkset C) (l : List C) (r : Option C) : HuntPolicy → Prop
  | .oddLru =>
    r = ((selectables ls l).filter fun c => (ls.chan c).cic % 2 = 1).getLast?.or
      (selectables ls l).getLast?
  | .evenMru =>
    r = ((selectables ls l).find? fun c => (ls.chan c).cic % 2 = 0).or (selectables ls l).head?
  | .seqLth => ∀ c ∈ r, ∀ d ∈ selectables ls l, (ls.chan c).cic ≤ (ls.chan d).cic
  | .seqHtl => ∀ c ∈ r, ∀ d ∈ selectables ls l, (ls.chan d).cic ≤ (ls.chan c).cic

/-- **The hunt is right**: it takes the circuit that the policy names, none
exactly if there is none, and leaves the others in their order. -/
structure HuntRight (ls : Linkset C) (l : List C) (ls' : Linkset C) (r : Option C) : Prop where
  none_iff : r = none ↔ selectables ls l = []
  mem : ∀ c ∈ r, c ∈ selectables ls l
  named : Named ls l r ls.huntPolicy
  rest : IdleList ls' (l.filter fun c => some c ≠ r)
  off : ∀ c ∈ r, (ls'.chan c).nextIdle = none
  frame : ls'.huntPolicy = ls.huntPolicy ∧
    ∀ c, { ls'.chan c with nextIdle := (ls.chan c).nextIdle } = ls.chan c

/-- The order of a sequential policy: `c` is before `d`. -/
def Before (ls : Linkset C) (c d : C) : HuntPolicy → Prop
  | .seqLth => (ls.chan c).cic < (ls.chan d).cic
  | .seqHtl => (ls.chan d).cic < (ls.chan c).cic
  | _ => True

/-- **The first is not the best**: where the hunt is sequential, the first
circuit that may be selected is the head of the list, or another is before
it. -/
def FirstKept (ls : Linkset C) (l : List C) : Prop :=
  ls.huntPolicy = .seqLth ∨ ls.huntPolicy = .seqHtl → ∀ c, (selectables ls l).head? = some c →
    l.head? = some c ∨ ∃ d ∈ selectables ls l, Before ls d c ls.huntPolicy

variable {ls : Linkset C} {l pre P S : List C} {b : Best C} {c : C} {fuel : ℕ}
variable {chan : C → SsChan C} {select : Best C → Option C → C → Best C} {stop : C → Bool}

/-! ## The loop -/

omit [DecidableEq C] in
/-- **The loop keeps an invariant** of what it has passed, up to the end or to
where it breaks. -/
theorem huntLoop_inv {I : List C → Best C → Prop}
    (hskip : ∀ pre c b, I pre b → (chan c).selectable = false → I (pre ++ [c]) b)
    (hstep : ∀ pre c b, I pre b → (chan c).selectable = true → stop c = false →
      I (pre ++ [c]) (select b pre.getLast? c)) :
    ∀ l pre b p fuel, I pre b → Leads (fun c => (chan c).nextIdle) p l none → l.length ≤ fuel →
      ∃ b', huntLoop chan select stop fuel b pre.getLast? p = some b' ∧
        (I (pre ++ l) b' ∨ ∃ seen c rest b'', pre ++ l = seen ++ c :: rest ∧ I seen b'' ∧
          (chan c).selectable = true ∧ stop c = true ∧ b' = select b'' seen.getLast? c) := by
  intro l
  induction l with
  | nil =>
    intro pre b p fuel hI hleads _
    obtain rfl : p = none := hleads
    rw [List.append_nil]
    refine ⟨b, ?_, Or.inl hI⟩
    rw [huntLoop]
  | cons c l ih =>
    intro pre b p fuel hI hleads hfuel
    obtain ⟨rfl, hleads⟩ := hleads
    obtain ⟨fuel, rfl⟩ : ∃ k, fuel = k + 1 := ⟨fuel - 1, by rw [List.length_cons] at hfuel; omega⟩
    have hrest : l.length ≤ fuel := Nat.le_of_succ_le_succ hfuel
    have hlast : (pre ++ [c]).getLast? = some c := List.getLast?_concat
    have hsplit : pre ++ c :: l = pre ++ [c] ++ l := by rw [List.append_assoc, List.singleton_append]
    rw [huntLoop]
    by_cases hsel : (chan c).selectable = true
    · rw [hsel, Bool.not_true, if_neg Bool.false_ne_true]
      by_cases hstop : stop c = true
      · rw [if_pos hstop]
        exact ⟨_, rfl, Or.inr ⟨pre, c, l, b, rfl, hI, hsel, hstop, rfl⟩⟩
      · obtain ⟨b', hloop, hI'⟩ := ih (pre ++ [c]) (select b pre.getLast? c) _ fuel
          (hstep pre c b hI hsel (Bool.not_eq_true _ ▸ hstop)) hleads hrest
        rw [hlast] at hloop
        rw [if_neg hstop, hsplit]
        exact ⟨b', hloop, hI'⟩
    · have hsel' := Bool.not_eq_true _ ▸ hsel
      obtain ⟨b', hloop, hI'⟩ := ih (pre ++ [c]) b _ fuel (hskip pre c b hI hsel') hleads hrest
      rw [hlast] at hloop
      rw [hsel', Bool.not_false, if_pos rfl, hsplit]
      exact ⟨b', hloop, hI'⟩

/-! ## Taking the best -/

/-- `p` is the circuit in front of `c`. -/
def Place (l : List C) (c : C) (p : Option C) : Prop := ∃ P S, l = P ++ c :: S ∧ p = P.getLast?

omit [DecidableEq C] in
theorem Place.append {p : Option C} (h : Place l c p) (l' : List C) : Place (l ++ l') c p := by
  obtain ⟨P, S, rfl, hp⟩ := h
  exact ⟨P, S ++ l', by rw [List.append_assoc, List.cons_append], hp⟩

omit [DecidableEq C] in
theorem place_last : Place (pre ++ [c]) c pre.getLast? := ⟨pre, [], rfl, rfl⟩

theorem takeBest_none (h : b.best = none) : takeBest ls b = (ls, none) := by
  rw [takeBest, h]

theorem takeBest_snd : (takeBest ls b).2 = b.best := by
  unfold takeBest
  cases b.best <;> rfl

/-- The links behind a hunt. -/
theorem takeBest_next (h : b.best = some c) (x : C) :
    ((takeBest ls b).1.chan x).nextIdle =
      if x = c then none
      else if b.bestPrev = some x then (ls.chan c).nextIdle
      else (ls.chan x).nextIdle := by
  unfold takeBest
  rw [h]
  dsimp only
  by_cases hx : x = c
  · subst hx
    rw [Function.update_self, if_pos rfl]
  · rw [Function.update_of_ne hx, if_neg hx]
    rcases b.bestPrev with _ | prev
    · rw [if_neg (Option.some_ne_none x).symm]
    · dsimp only
      by_cases hprev : x = prev
      · subst hprev
        rw [Function.update_self, if_pos rfl]
      · rw [Function.update_of_ne hprev, if_neg fun h => hprev (Option.some.inj h).symm]

theorem takeBest_idleList (h : b.best = some c) : (takeBest ls b).1.idleList =
    if b.bestPrev.isNone then (ls.chan c).nextIdle else ls.idleList := by
  unfold takeBest
  rw [h]
  cases b.bestPrev <;> rfl

/-- Nothing but links is written. -/
theorem takeBest_frame : (takeBest ls b).1.huntPolicy = ls.huntPolicy ∧
    ∀ c, { (takeBest ls b).1.chan c with nextIdle := (ls.chan c).nextIdle } = ls.chan c := by
  have hupdate : ∀ (chan : C → SsChan C) (a : C) (v : Option C),
      (∀ c, { chan c with nextIdle := (ls.chan c).nextIdle } = ls.chan c) →
        ∀ c, { Function.update chan a { chan a with nextIdle := v } c with
          nextIdle := (ls.chan c).nextIdle } = ls.chan c := by
    intro chan a v h c
    by_cases hc : c = a
    · subst hc
      rw [Function.update_self]
      exact h c
    · rw [Function.update_of_ne hc]
      exact h c
  unfold takeBest
  rcases b.best with _ | best
  · exact ⟨rfl, fun _ => rfl⟩
  rcases b.bestPrev with _ | prev
  · exact ⟨rfl, hupdate _ _ _ fun _ => rfl⟩
  · refine ⟨rfl, ?_⟩
    dsimp only
    have honce := hupdate ls.chan prev (ls.chan best).nextIdle fun _ => rfl
    exact hupdate _ _ _ honce

/-- The circuit is taken out of its place. -/
theorem takeBest_rest (h : IdleList ls (P ++ c :: S)) (hbest : b.best = some c)
    (hprev : b.bestPrev = P.getLast?) : IdleList (takeBest ls b).1 (P ++ S) := by
  have hnd := List.nodup_append.1 h.nodup
  obtain ⟨hcS, hndS⟩ := List.nodup_cons.1 hnd.2.1
  obtain ⟨m, -, -, hS⟩ := leads_append.1 h.leads
  have hPne : ∀ a ∈ P, a ≠ c := fun a ha => hnd.2.2 a ha c List.mem_cons_self
  have hSne : ∀ a ∈ S, a ≠ c := fun a ha heq => hcS (heq ▸ ha)
  -- only the link of the circuit in front is written to
  have hfront : ∀ a ∈ P, P.getLast? ≠ some a →
      ((takeBest ls b).1.chan a).nextIdle = (ls.chan a).nextIdle := by
    intro a ha hlast
    rw [takeBest_next hbest, if_neg (hPne a ha), hprev, if_neg hlast]
  have hlink : ∀ a, P.getLast? = some a →
      ((takeBest ls b).1.chan a).nextIdle = (ls.chan c).nextIdle := by
    intro a hlast
    rw [takeBest_next hbest, if_neg (hPne a (List.mem_of_getLast? hlast)), hprev, if_pos hlast]
  have hbehind : ∀ a ∈ S, ((takeBest ls b).1.chan a).nextIdle = (ls.chan a).nextIdle := by
    intro a ha
    rw [takeBest_next hbest, if_neg (hSne a ha), hprev, if_neg]
    intro hlast
    exact hnd.2.2 a (List.mem_of_getLast? hlast) a (List.mem_cons_of_mem _ ha) rfl
  have hspliced : Leads (fun a => ((takeBest ls b).1.chan a).nextIdle)
      (if P.isEmpty then (ls.chan c).nextIdle else ls.idleList) (P ++ ([] ++ S)) none :=
    Leads.splice (M := [c]) h.leads hfront hlink hbehind hS.head hnd.1
  refine ⟨?_, ?_⟩
  · have hroot : (takeBest ls b).1.idleList =
        if P.isEmpty then (ls.chan c).nextIdle else ls.idleList := by
      rw [takeBest_idleList hbest, hprev]
      rcases P.eq_nil_or_concat' with rfl | ⟨P', z, rfl⟩
      · rfl
      · rw [List.getLast?_concat, List.isEmpty_eq_false_iff.2 (by simp)]
        rfl
    rw [hroot]
    exact hspliced
  · refine List.nodup_append.2 ⟨hnd.1, hndS, fun a ha d hd => ?_⟩
    exact hnd.2.2 a ha d (List.mem_cons_of_mem _ hd)

/-- Where the circuit in front is not known, all in front is lost. -/
theorem takeBest_lost (h : IdleList ls (P ++ c :: S)) (hbest : b.best = some c)
    (hprev : b.bestPrev = none) :
    Leads (fun c => ((takeBest ls b).1.chan c).nextIdle) (takeBest ls b).1.idleList S none := by
  have hnd := List.nodup_append.1 h.nodup
  obtain ⟨hcS, -⟩ := List.nodup_cons.1 hnd.2.1
  obtain ⟨m, -, -, hS⟩ := leads_append.1 h.leads
  rw [takeBest_idleList hbest, hprev, if_pos Option.isNone_none]
  refine hS.frame fun a ha => ?_
  have hne : a ≠ c := fun heq => hcS (heq ▸ ha)
  rw [takeBest_next hbest, hprev, if_neg hne, if_neg (Option.some_ne_none a).symm]

/-- The others, in their order. -/
theorem filter_ne (h : (P ++ c :: S).Nodup) :
    ((P ++ c :: S).filter fun a => some a ≠ some c) = P ++ S := by
  have hnd := List.nodup_append.1 h
  obtain ⟨hcS, -⟩ := List.nodup_cons.1 hnd.2.1
  have hP : (P.filter fun a => decide (some a ≠ some c)) = P := by
    refine List.filter_eq_self.2 fun a ha => decide_eq_true fun heq => ?_
    exact hnd.2.2 a ha c List.mem_cons_self (Option.some.inj heq)
  have hS : (S.filter fun a => decide (some a ≠ some c)) = S := by
    refine List.filter_eq_self.2 fun a ha => decide_eq_true fun heq => ?_
    exact hcS (Option.some.inj heq ▸ ha)
  rw [List.filter_append, List.filter_cons_of_neg (by simp), hP, hS]

/-- **The hunt is right** where the circuit in front of the best is known. -/
theorem huntRight_of_place (h : IdleList ls l)
    (hbest : ∀ c ∈ b.best, c ∈ selectables ls l ∧ Place l c b.bestPrev)
    (hnone : b.best = none → selectables ls l = []) (hnamed : Named ls l b.best ls.huntPolicy) :
    HuntRight ls l (takeBest ls b).1 (takeBest ls b).2 := by
  rw [takeBest_snd]
  refine ⟨⟨hnone, fun hnil => ?_⟩, fun c hc => (hbest c hc).1, hnamed, ?_, fun c hc => ?_,
    takeBest_frame⟩
  · refine Option.eq_none_iff_forall_not_mem.2 fun c hc => ?_
    have hmem := (hbest c hc).1
    rw [hnil] at hmem
    exact List.not_mem_nil hmem
  · rcases hb : b.best with _ | c
    · have hall : (l.filter fun a => decide (some a ≠ (none : Option C))) = l :=
        List.filter_eq_self.2 fun a _ => decide_eq_true (Option.some_ne_none a)
      rw [takeBest_none hb, hall]
      exact h
    · obtain ⟨-, P, S, rfl, hprev⟩ := hbest c hb
      rw [filter_ne h.nodup]
      exact takeBest_rest h hb hprev
  · rw [takeBest_next hc, if_pos rfl]

/-! ## The policies -/

omit [DecidableEq C] in
theorem filter_snoc_of {p : C → Bool} (h : p c = true) :
    (pre ++ [c]).filter p = pre.filter p ++ [c] := by
  rw [List.filter_append, List.filter_cons_of_pos h, List.filter_nil]

omit [DecidableEq C] in
theorem filter_snoc_of_not {p : C → Bool} (h : p c = false) :
    (pre ++ [c]).filter p = pre.filter p := by
  rw [List.filter_append, List.filter_cons_of_neg (Bool.not_eq_true _ ▸ h), List.filter_nil,
    List.append_nil]

omit [DecidableEq C] in
theorem selectables_snoc_of (h : (ls.chan c).selectable = true) :
    selectables ls (pre ++ [c]) = selectables ls pre ++ [c] :=
  filter_snoc_of (p := fun c => (ls.chan c).selectable) h

omit [DecidableEq C] in
theorem selectables_snoc_of_not (h : (ls.chan c).selectable = false) :
    selectables ls (pre ++ [c]) = selectables ls pre :=
  filter_snoc_of_not (p := fun c => (ls.chan c).selectable) h

omit [DecidableEq C] in
/-- The last odd circuit, or the last even one. -/
theorem huntLoop_selectOdd (odd : ℕ) (h : IdleList ls l) (hfuel : l.length ≤ fuel)
    (hb : b.best = none) :
    ∃ b', huntLoop ls.chan (selectOdd ls.chan odd) (fun _ => false) fuel b none ls.idleList = some b' ∧
      b'.best = ((selectables ls l).filter fun c => (ls.chan c).cic % 2 = odd).getLast? ∧
        ∀ c ∈ b'.best, Place l c b'.bestPrev := by
  have hskip : ∀ pre c (b : Best C),
      (b.best = ((selectables ls pre).filter fun c => (ls.chan c).cic % 2 = odd).getLast? ∧
        ∀ c ∈ b.best, Place pre c b.bestPrev) → (ls.chan c).selectable = false →
      b.best = ((selectables ls (pre ++ [c])).filter fun c => (ls.chan c).cic % 2 = odd).getLast? ∧
        ∀ d ∈ b.best, Place (pre ++ [c]) d b.bestPrev := by
    intro pre c b ⟨hbest, hplace⟩ hsel
    rw [selectables_snoc_of_not hsel]
    exact ⟨hbest, fun d hd => (hplace d hd).append [c]⟩
  have hstep : ∀ pre c (b : Best C),
      (b.best = ((selectables ls pre).filter fun c => (ls.chan c).cic % 2 = odd).getLast? ∧
        ∀ c ∈ b.best, Place pre c b.bestPrev) → (ls.chan c).selectable = true → false = false →
      (selectOdd ls.chan odd b pre.getLast? c).best =
          ((selectables ls (pre ++ [c])).filter fun c => (ls.chan c).cic % 2 = odd).getLast? ∧
        ∀ d ∈ (selectOdd ls.chan odd b pre.getLast? c).best,
          Place (pre ++ [c]) d (selectOdd ls.chan odd b pre.getLast? c).bestPrev := by
    intro pre c b ⟨hbest, hplace⟩ hsel _
    rw [selectables_snoc_of hsel, selectOdd]
    by_cases hodd : (ls.chan c).cic % 2 = odd
    · rw [if_pos hodd, filter_snoc_of (p := fun c => (ls.chan c).cic % 2 = odd)
        (decide_eq_true hodd), List.getLast?_concat]
      refine ⟨rfl, fun d hd => ?_⟩
      obtain rfl := Option.some.inj hd
      exact place_last
    · rw [if_neg hodd, filter_snoc_of_not (p := fun c => (ls.chan c).cic % 2 = odd)
        (decide_eq_false hodd)]
      exact ⟨hbest, fun d hd => (hplace d hd).append [c]⟩
  obtain ⟨b', hloop, hI | ⟨_, _, _, _, _, _, _, hfalse, _⟩⟩ := huntLoop_inv hskip hstep l [] b
    ls.idleList fuel ⟨hb, fun c hc => absurd (hb.symm.trans hc) (Option.some_ne_none c).symm⟩
    h.leads hfuel
  · exact ⟨b', hloop, hI⟩
  · exact absurd hfalse Bool.false_ne_true

theorem cicHuntOddLru_right (h : IdleList ls l) (hfuel : l.length ≤ fuel)
    (hpolicy : ls.huntPolicy = .oddLru) :
    ∃ ls' r, cicHuntOddLru fuel ls = some (ls', r) ∧ HuntRight ls l ls' r := by
  obtain ⟨b, hloop, hbest, hplace⟩ := huntLoop_selectOdd 1 h hfuel (b := {}) rfl
  unfold cicHuntOddLru
  rw [hloop, Option.bind_eq_bind, Option.bind_some]
  rcases hb : b.best with _ | c
  · -- there is no odd one, and the even ones are all there are
    rw [hb] at hbest
    have hodd := List.filter_eq_nil_iff.1 (List.getLast?_eq_none_iff.1 hbest.symm)
    obtain ⟨b', hloop', hbest', hplace'⟩ := huntLoop_selectOdd 0 h hfuel hb
    have heven : ((selectables ls l).filter fun c => (ls.chan c).cic % 2 = 0) =
        selectables ls l := by
      refine List.filter_eq_self.2 fun c hc => decide_eq_true ?_
      have hne : ¬(ls.chan c).cic % 2 = 1 := by simpa using hodd c hc
      omega
    rw [heven] at hbest'
    rw [Option.isSome_none, if_neg Bool.false_ne_true, hloop', Option.bind_some]
    refine ⟨_, _, rfl, huntRight_of_place h (fun c hc => ⟨?_, hplace' c hc⟩) ?_ ?_⟩
    · rw [hbest'] at hc
      exact List.mem_of_getLast? hc
    · intro hnone
      exact List.getLast?_eq_none_iff.1 (hbest'.symm.trans hnone)
    · rw [hpolicy]
      show b'.best = _
      rw [← hbest, Option.none_or, hbest']
  · rw [Option.isSome_some, if_pos rfl]
    refine ⟨_, _, rfl, huntRight_of_place h (fun d hd => ⟨?_, hplace d hd⟩) ?_ ?_⟩
    · rw [hbest] at hd
      exact List.mem_of_mem_filter (List.mem_of_getLast? hd)
    · intro hnone
      exact absurd (hb.symm.trans hnone) (Option.some_ne_none c)
    · rw [hpolicy]
      show b.best = _
      rw [← hbest, hb, Option.some_or]

theorem cicHuntEvenMru_right (h : IdleList ls l) (hfuel : l.length ≤ fuel)
    (hpolicy : ls.huntPolicy = .evenMru) :
    ∃ ls' r, cicHuntEvenMru fuel ls = some (ls', r) ∧ HuntRight ls l ls' r := by
  -- as long as the loop goes on there is no even one
  let I : List C → Best C → Prop := fun pre b =>
    (∀ c ∈ selectables ls pre, ¬(ls.chan c).cic % 2 = 0) ∧
      b.best = (selectables ls pre).head? ∧ ∀ c ∈ b.best, Place pre c b.bestPrev
  have hskip : ∀ pre c b, I pre b → (ls.chan c).selectable = false → I (pre ++ [c]) b := by
    intro pre c b ⟨hodd, hbest, hplace⟩ hsel
    dsimp only [I]
    rw [selectables_snoc_of_not hsel]
    exact ⟨hodd, hbest, fun d hd => (hplace d hd).append [c]⟩
  have hstep : ∀ pre c b, I pre b → (ls.chan c).selectable = true →
      decide ((ls.chan c).cic % 2 = 0) = false →
        I (pre ++ [c]) (selectEven ls.chan b pre.getLast? c) := by
    intro pre c b ⟨hodd, hbest, hplace⟩ hsel hstop
    dsimp only [I]
    rw [selectables_snoc_of hsel, selectEven, if_neg (of_decide_eq_false hstop)]
    have hall : ∀ d ∈ selectables ls pre ++ [c], ¬(ls.chan d).cic % 2 = 0 :=
      List.forall_mem_append.2 ⟨hodd, List.forall_mem_singleton.2 (of_decide_eq_false hstop)⟩
    rcases hb : b.best with _ | best
    · have hnil := List.head?_eq_none_iff.1 (hbest.symm.trans hb)
      rw [Option.isNone_none, if_pos rfl, hnil]
      rw [hnil] at hall
      refine ⟨hall, rfl, fun d hd => ?_⟩
      obtain rfl := Option.some.inj hd
      exact place_last
    · rw [Option.isNone_some, if_neg Bool.false_ne_true, List.head?_append, ← hbest, hb]
      exact ⟨hall, rfl, fun d hd => (hplace d (hb.symm ▸ hd)).append [c]⟩
  obtain ⟨b, hloop, ⟨hodd, hbest, hplace⟩ | ⟨seen, c, rest, b', hl, ⟨hodd, -, -⟩, hsel, hstop, hb⟩⟩ :=
    huntLoop_inv hskip hstep l [] {} ls.idleList fuel
      ⟨fun c hc => absurd hc List.not_mem_nil, rfl,
        fun c hc => absurd hc (Option.not_mem_none c)⟩ h.leads hfuel
  all_goals
    rw [List.getLast?_nil] at hloop
    rw [cicHuntEvenMru, hloop, Option.bind_eq_bind, Option.bind_some]
  · refine ⟨_, _, rfl, huntRight_of_place h (fun c hc => ⟨?_, hplace c hc⟩) ?_ ?_⟩
    · rw [hbest] at hc
      exact List.mem_of_head? hc
    · intro hnone
      exact List.head?_eq_none_iff.1 (hbest.symm.trans hnone)
    · have hfind : ((selectables ls l).find? fun c => decide ((ls.chan c).cic % 2 = 0)) = none :=
        List.find?_eq_none.2 fun c hc => by simpa using hodd c hc
      rw [hpolicy]
      show b.best = _
      rw [hfind, Option.none_or, hbest]
      rfl
  · have heven : (ls.chan c).cic % 2 = 0 := of_decide_eq_true hstop
    rw [List.nil_append] at hl
    rw [selectEven, if_pos heven] at hb
    subst hb
    have hmem : c ∈ selectables ls l := by
      rw [hl]
      exact List.mem_filter.2 ⟨List.mem_append_right _ List.mem_cons_self, hsel⟩
    have hfind : ((selectables ls l).find? fun c => decide ((ls.chan c).cic % 2 = 0)) = some c := by
      have hnone : ((selectables ls seen).find? fun c => decide ((ls.chan c).cic % 2 = 0)) = none :=
        List.find?_eq_none.2 fun d hd => by simpa using hodd d hd
      rw [hl, selectables, List.filter_append, List.find?_append, ← selectables, hnone,
        Option.none_or, List.filter_cons_of_pos (p := fun c => (ls.chan c).selectable) hsel,
        List.find?_cons_of_pos (p := fun c => decide ((ls.chan c).cic % 2 = 0)) hstop]
    refine ⟨_, (takeBest ls ⟨some c, seen.getLast?⟩).2, rfl,
      huntRight_of_place (b := ⟨some c, seen.getLast?⟩) h (fun d hd => ?_) ?_ ?_⟩
    · obtain rfl := Option.some.inj hd
      exact ⟨hmem, seen, rest, hl, rfl⟩
    · exact fun hnone => absurd hnone (Option.some_ne_none c)
    · rw [hpolicy]
      show some c = _
      rw [hfind, Option.some_or]

/-! ### The sequential policies -/

/-- What the two of them make as small as they can. -/
def rank (ls : Linkset C) (lth : Bool) (c : C) : ℤ :=
  if lth then ((ls.chan c).cic : ℤ) else -((ls.chan c).cic : ℤ)

omit [DecidableEq C] in
theorem selectSeq_of_best {lth : Bool} {prev : Option C} {best : C} (h : b.best = some best) :
    selectSeq ls.chan lth b prev c =
      if rank ls lth c < rank ls lth best then ⟨some c, prev⟩ else b := by
  rw [selectSeq, h]
  cases lth with
  | true =>
    show (if (ls.chan c).cic < (ls.chan best).cic then (⟨some c, prev⟩ : Best C) else b) =
      if ((ls.chan c).cic : ℤ) < ((ls.chan best).cic : ℤ) then ⟨some c, prev⟩ else b
    exact if_congr (by omega) rfl rfl
  | false =>
    show (if (ls.chan c).cic > (ls.chan best).cic then (⟨some c, prev⟩ : Best C) else b) =
      if -((ls.chan c).cic : ℤ) < -((ls.chan best).cic : ℤ) then ⟨some c, prev⟩ else b
    exact if_congr (by omega) rfl rfl

/-- **What the sequential loop knows.** The best is before the others, and what
is in front of it is known unless it is the first. -/
structure SeqBest (ls : Linkset C) (lth : Bool) (pre : List C) (b : Best C) : Prop where
  nothing : b.best = none → selectables ls pre = [] ∧ b.bestPrev = none
  mem : ∀ c ∈ b.best, c ∈ selectables ls pre
  least : ∀ c ∈ b.best, ∀ d ∈ selectables ls pre, rank ls lth c ≤ rank ls lth d
  first : ∀ c ∈ b.best, (selectables ls pre).head? = some c → b.bestPrev = none
  later : ∀ c ∈ b.best, ∀ d, (selectables ls pre).head? = some d → d ≠ c →
    rank ls lth c < rank ls lth d ∧ Place pre c b.bestPrev

omit [DecidableEq C] in
theorem SeqBest.skip {lth : Bool} (h : SeqBest ls lth pre b)
    (hsel : (ls.chan c).selectable = false) : SeqBest ls lth (pre ++ [c]) b := by
  obtain ⟨hnothing, hmem, hleast, hfirst, hlater⟩ := h
  rw [← selectables_snoc_of_not hsel] at hnothing hmem hleast hfirst hlater
  refine ⟨hnothing, hmem, hleast, hfirst, fun a ha d hd hne => ?_⟩
  obtain ⟨hlt, hplace⟩ := hlater a ha d hd hne
  exact ⟨hlt, hplace.append [c]⟩

omit [DecidableEq C] in
theorem SeqBest.step {lth : Bool} (h : SeqBest ls lth pre b)
    (hsel : (ls.chan c).selectable = true) :
    SeqBest ls lth (pre ++ [c]) (selectSeq ls.chan lth b pre.getLast? c) := by
  have hsnoc := @selectables_snoc_of C ls pre c hsel
  rcases hb : b.best with _ | best
  · -- the first of all
    obtain ⟨hnil, hprev⟩ := h.nothing hb
    rw [hnil, List.nil_append] at hsnoc
    rw [selectSeq, hb]
    refine ⟨fun hnone => absurd hnone (Option.some_ne_none c), ?_, ?_, fun _ _ _ => hprev, ?_⟩
    all_goals
      intro a ha
      obtain rfl := Option.some.inj ha
      rw [hsnoc]
    · exact List.mem_singleton_self _
    · exact List.forall_mem_singleton.2 le_rfl
    · intro d hd hne
      exact absurd (Option.some.inj hd).symm hne
  have hmem := h.mem best hb
  have hleast := h.least best hb
  have hhead : (selectables ls (pre ++ [c])).head? = (selectables ls pre).head? := by
    rw [hsnoc, List.head?_append_of_ne_nil _ (List.ne_nil_of_mem hmem)]
  rw [selectSeq_of_best hb]
  by_cases hlt : rank ls lth c < rank ls lth best
  · rw [if_pos hlt]
    refine ⟨fun hnone => absurd hnone (Option.some_ne_none c), ?_, ?_, ?_, ?_⟩
    all_goals
      intro a ha
      obtain rfl := Option.some.inj ha
    · rw [hsnoc]
      exact List.mem_append_right _ (List.mem_singleton_self _)
    · intro d hd
      rw [hsnoc] at hd
      rcases List.mem_append.1 hd with hd | hd
      · exact hlt.le.trans (hleast d hd)
      · rw [List.mem_singleton.1 hd]
    · intro hfirst
      rw [hhead] at hfirst
      exact absurd hlt (not_lt.2 (hleast _ (List.mem_of_head? hfirst)))
    · intro d hd _
      rw [hhead] at hd
      exact ⟨hlt.trans_le (hleast d (List.mem_of_head? hd)), place_last⟩
  · rw [if_neg hlt]
    refine ⟨fun hnone => absurd (hb.symm.trans hnone) (Option.some_ne_none best), ?_, ?_, ?_, ?_⟩
    · intro a ha
      rw [hsnoc]
      exact List.mem_append_left _ (h.mem a ha)
    · intro a ha d hd
      obtain rfl := Option.some.inj (hb.symm.trans ha)
      rw [hsnoc] at hd
      rcases List.mem_append.1 hd with hd | hd
      · exact hleast d hd
      · rw [List.mem_singleton.1 hd]
        exact not_lt.1 hlt
    · intro a ha hfirst
      rw [hhead] at hfirst
      exact h.first a ha hfirst
    · intro a ha d hd hne
      rw [hhead] at hd
      obtain ⟨hbefore, hplace⟩ := h.later a ha d hd hne
      exact ⟨hbefore, hplace.append [c]⟩

/-- The sequential hunt is right unless the first is the best and has another in
front of it. -/
theorem cicHuntSeqLthHtl_iff {lth : Bool} (h : IdleList ls l) (hfuel : l.length ≤ fuel)
    (hnamed : ∀ r, Named ls l r ls.huntPolicy ↔
      ∀ c ∈ r, ∀ d ∈ selectables ls l, rank ls lth c ≤ rank ls lth d) :
    (∃ ls' r, cicHuntSeqLthHtl fuel ls lth = some (ls', r) ∧ HuntRight ls l ls' r) ↔
      ∀ c, (selectables ls l).head? = some c →
        l.head? = some c ∨ ∃ d ∈ selectables ls l, rank ls lth d < rank ls lth c := by
  obtain ⟨b, hloop, hbest | ⟨_, _, _, _, _, _, _, hfalse, _⟩⟩ :=
    @huntLoop_inv C ls.chan (selectSeq ls.chan lth) (fun _ => false) (SeqBest ls lth)
      (fun pre c b hI hsel => hI.skip hsel) (fun pre c b hI hsel _ => hI.step hsel) l [] {} ls.idleList fuel
      ⟨fun _ => ⟨rfl, rfl⟩, fun c hc => absurd hc (Option.not_mem_none c),
        fun c hc => absurd hc (Option.not_mem_none c), fun _ _ _ => rfl,
        fun c hc => absurd hc (Option.not_mem_none c)⟩ h.leads hfuel
  swap
  · exact absurd hfalse Bool.false_ne_true
  rw [List.nil_append] at hbest
  have hrun : cicHuntSeqLthHtl fuel ls lth = some (takeBest ls b) := by
    rw [List.getLast?_nil] at hloop
    rw [cicHuntSeqLthHtl, hloop, Option.bind_eq_bind, Option.bind_some]
  have hnone : b.best = none → selectables ls l = [] := fun hb => (hbest.nothing hb).1
  -- it is right as soon as what is in front of the best is known
  have hright : (∀ c ∈ b.best, Place l c b.bestPrev) →
      ∃ ls' r, cicHuntSeqLthHtl fuel ls lth = some (ls', r) ∧ HuntRight ls l ls' r := fun hplace =>
    ⟨_, _, hrun, huntRight_of_place h (fun c hc => ⟨hbest.mem c hc, hplace c hc⟩) hnone
      ((hnamed _).2 hbest.least)⟩
  rcases hb : b.best with _ | c
  · refine iff_of_true (hright fun c hc => absurd (hb.symm.trans hc) (Option.some_ne_none c).symm) ?_
    intro c hc
    rw [hnone hb] at hc
    exact absurd hc (Option.some_ne_none c).symm
  obtain ⟨first, hfirst⟩ := Option.isSome_iff_exists.1
    (List.isSome_head?.2 (List.ne_nil_of_mem (hbest.mem c hb)))
  by_cases hne : first = c
  · subst hne
    have hprev := hbest.first first hb hfirst
    have hnodup := h.nodup
    obtain ⟨P, S, rfl⟩ := List.append_of_mem (List.mem_of_mem_filter (hbest.mem first hb))
    have hleast := hbest.least first hb
    have hkept : (∀ c, (selectables ls (P ++ first :: S)).head? = some c →
        (P ++ first :: S).head? = some c ∨ ∃ d ∈ selectables ls (P ++ first :: S),
          rank ls lth d < rank ls lth c) ↔ P = [] := by
      constructor
      · intro hkept
        rcases hkept first hfirst with hhead | ⟨d, hd, hlt⟩
        · rcases P with _ | ⟨a, P⟩
          · rfl
          · obtain rfl := Option.some.inj hhead
            exact absurd List.mem_cons_self
              fun hmem => (List.nodup_append.1 hnodup).2.2 a hmem a List.mem_cons_self rfl
        · exact absurd hlt (not_lt.2 (hleast d hd))
      · rintro rfl c hc
        rw [hfirst] at hc
        exact Or.inl hc
    rw [hkept]
    constructor
    · rintro ⟨ls', r, hr, hwas⟩
      have hpair : (ls', r) = takeBest ls b := Option.some.inj (hr.symm.trans hrun)
      have hls : ls' = (takeBest ls b).1 := congrArg Prod.fst hpair
      have hres : r = some first := (congrArg Prod.snd hpair).trans (takeBest_snd.trans hb)
      have hlost := takeBest_lost h hb hprev
      have hrest := hwas.rest.leads
      rw [hres, filter_ne hnodup, hls] at hrest
      have heq := congrArg List.length (hrest.unique hlost)
      rw [List.length_append] at heq
      exact List.eq_nil_of_length_eq_zero (by omega)
    · rintro rfl
      refine hright fun c hc => ?_
      obtain rfl := Option.some.inj (hb.symm.trans hc)
      exact ⟨[], S, rfl, hprev⟩
  · obtain ⟨hlt, hplace⟩ := hbest.later c hb first hfirst hne
    refine iff_of_true (hright fun d hd => ?_) fun d hd => ?_
    · obtain rfl := Option.some.inj (hb.symm.trans hd)
      exact hplace
    · obtain rfl := Option.some.inj (hfirst.symm.trans hd)
      exact Or.inr ⟨c, hbest.mem c hb, hlt⟩

/-- **When a hunt is right**: with the sequential policies, if the first circuit
that may be selected is not the one selected, or is the head of the list; with
the others always. -/
theorem huntRight_iff (h : IdleList ls l) (hfuel : l.length ≤ fuel) :
    (∃ ls' r, cicHunt fuel ls = some (ls', r) ∧ HuntRight ls l ls' r) ↔ FirstKept ls l := by
  unfold FirstKept cicHunt
  rcases hpolicy : ls.huntPolicy
  · refine iff_of_true (cicHuntOddLru_right h hfuel hpolicy) ?_
    rintro (h | h) <;> cases h
  · refine iff_of_true (cicHuntEvenMru_right h hfuel hpolicy) ?_
    rintro (h | h) <;> cases h
  · have hiff := @cicHuntSeqLthHtl_iff C _ ls l fuel true h hfuel fun r => by
      rw [hpolicy]
      exact forall₄_congr fun c _ d _ => Int.ofNat_le.symm
    have hbefore : ∀ c d, rank ls true d < rank ls true c ↔ Before ls d c .seqLth := fun _ _ =>
      Int.ofNat_lt
    simp only [hbefore] at hiff
    exact hiff.trans ⟨fun hkept _ => hkept, fun hkept => hkept (Or.inl rfl)⟩
  · have hiff := @cicHuntSeqLthHtl_iff C _ ls l fuel false h hfuel fun r => by
      rw [hpolicy]
      exact forall₄_congr fun c _ d _ => (Int.neg_le_neg_iff.trans Int.ofNat_le).symm
    have hbefore : ∀ c d, rank ls false d < rank ls false c ↔ Before ls d c .seqHtl := fun _ _ =>
      Int.neg_lt_neg_iff.trans Int.ofNat_lt
    simp only [hbefore] at hiff
    exact hiff.trans ⟨fun hkept _ => hkept, fun hkept => hkept (Or.inr rfl)⟩

/-- Two idle circuits, the first still to be reset. -/
def oneReset : Linkset ℕ where
  idleList := some 0
  huntPolicy := .seqLth
  chan c := if c = 0 then ⟨some 1, 1, false, 0⟩ else ⟨none, 2, true, 0⟩

theorem oneReset_idleList : IdleList oneReset [0, 1] := ⟨⟨rfl, rfl, rfl⟩, by decide⟩

theorem huntRight_iff_oneReset :
    (∃ ls' r, cicHunt 2 oneReset = some (ls', r) ∧ HuntRight oneReset [0, 1] ls' r) ↔
      FirstKept oneReset [0, 1] := huntRight_iff oneReset_idleList (by decide)

theorem not_huntRight : ¬∀ (ls : Linkset ℕ) (l : List ℕ), IdleList ls l →
    ∃ ls' r, cicHunt l.length ls = some (ls', r) ∧ HuntRight ls l ls' r := by
  intro h
  obtain ⟨ls', r, hrun, hright⟩ := h oneReset [0, 1] oneReset_idleList
  have hrest := hright.rest.leads
  have hpair : (ls', r) = takeBest oneReset ⟨some 1, none⟩ := (Option.some.inj hrun).symm
  have hls : ls' = (takeBest oneReset ⟨some 1, none⟩).1 := congrArg Prod.fst hpair
  have hr : r = some 1 := congrArg Prod.snd hpair
  rw [hls, hr] at hrest
  exact absurd hrest.1 (Option.some_ne_none 0).symm

end Hunt

end Isup

end Trismedia
