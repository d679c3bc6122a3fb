import Mathlib.Tactic.SplitIfs
import Trismedia.Dlinkedlists.Lists
/-!
# Safe traversals

A traversal passes the entries in its direction, and the block of a round
puts an entry before the current one, takes that out or moves it to another
list. Where the hidden variables name the neighbours of the current entry,
each macro does this in either direction, and forwards they always do.
-/


namespace Trismedia

namespace Dlinkedlists

open Dll Links

variable {H A : Type}

/-! ## What a traversal is to do -/

/-- The entries of a list in the order of the traversal, behind or before
those that it has passed. -/
def Direction.join (d : Direction) (passed l : List A) : List A :=
  match d with
  | .forwards => passed ++ l
  | .backwards => l.reverse ++ passed

/-- Where a traversal stands: the other lists, the entries passed, and those
that it moved to the end of its own list, which lies ahead. -/
structure Place (H A : Type) where
  lists : H → List A
  passed : List A
  ahead : List A

variable [DecidableEq H]

/-- One round at the entry `x` of the list `h`. -/
def Action.step (a : Action H A) (d : Direction) (h : H) (q : Place H A) (x : A) : Place H A :=
  match a with
  | .nothing => { q with passed := d.join q.passed [x] }
  | .insert elm => { q with passed := d.join q.passed [elm, x] }
  | .remove => q
  | .move newhead =>
    if newhead = h then { q with ahead := q.ahead ++ [x] }
    else { q with lists := Function.update q.lists newhead (d.join (q.lists newhead) [x]) }

/-- All lists, with `todo` still to come. -/
def Place.all (q : Place H A) (d : Direction) (h : H) (todo : List A) : H → List A :=
  Function.update q.lists h (d.join q.passed (todo ++ q.ahead))

/-- **The lists that a traversal of `h` is to leave.** -/
def edits (d : Direction) (h : H) : Place H A → List A → List (Action H A) → H → List A
  | q, x :: todo, a :: actions => edits d h (a.step d h q x) todo actions
  | q, todo, _ => q.all d h todo

@[simp] theorem edits_nil {d : Direction} {h : H} {q : Place H A} {todo : List A} :
    edits d h q todo [] = q.all d h todo := by
  cases todo <;> rfl

/-- A new entry stands in no list. -/
def Action.Legal (a : Action H A) (m : H → List A) : Prop :=
  match a with
  | .insert elm => ∀ k, elm ∉ m k
  | _ => True

def LegalActions (d : Direction) (h : H) : Place H A → List A → List (Action H A) → Prop
  | q, x :: todo, a :: actions =>
    a.Legal (q.all d h (x :: todo)) ∧ LegalActions d h (a.step d h q x) todo actions
  | _, _, _ => True

/-! ## The macros of a round -/

variable [DecidableEq A] {s : Loop H A} {m : H → List A} {h k : H} {P S : List A} {e x : A}

theorem removeCurrent_spec (hs : Represents s.lists m) (hm : m s.listHead = P ++ x :: S)
    (hcur : s.newPrev = some x) (hprev : s.listPrev = P.getLast?) (hnext : s.listNext = S.head?) :
    ∃ L, removeCurrent s = some
        { s with lists := L, newPrev := if S.isEmpty then none else s.listPrev } ∧
      Represents L (Function.update m s.listHead (P ++ S)) := by
  have hnd := hs.nodup s.listHead
  rw [hm, List.nodup_middle, List.nodup_cons, List.mem_append, not_or] at hnd
  have hlast : (if S.head?.isNone then P.getLast? else (s.lists.heads s.listHead).last) =
      if S.isEmpty then P.getLast? else (s.lists.heads s.listHead).last := by cases S <;> rfl
  rcases List.eq_nil_or_concat' P with rfl | ⟨P, p, rfl⟩
  · have hprev' : s.listPrev = none := hprev
    have heq : removeCurrent s = some { s with
        lists := ⟨Function.update s.lists.next x none,
          setAt (Function.update s.lists.prev x none) S.head? none,
          Function.update s.lists.heads s.listHead
            ⟨S.head?, if S.isEmpty then none else (s.lists.heads s.listHead).last⟩⟩
        newPrev := if S.isEmpty then none else s.listPrev } := by
      unfold removeCurrent
      rw [hcur, hprev', hnext]
      cases S <;> rfl
    refine ⟨_, heq, hs.erase hm (fun a ha => ?_) (fun a ha => ?_) ?_⟩
    · simp [ha]
    · simp [setAt_apply, ha]
    · simp
  · have hprev' : s.listPrev = some p := by rw [hprev, List.getLast?_concat]
    have heq : removeCurrent s = some { s with
        lists := ⟨Function.update (Function.update s.lists.next x none) p S.head?,
          setAt (Function.update s.lists.prev x none) S.head? (some p),
          Function.update s.lists.heads s.listHead
            ⟨(s.lists.heads s.listHead).first,
              if S.isEmpty then some p else (s.lists.heads s.listHead).last⟩⟩
        newPrev := if S.isEmpty then none else s.listPrev } := by
      unfold removeCurrent
      rw [hcur, hprev', hnext]
      cases S <;> rfl
    refine ⟨_, heq, hs.erase hm (fun a ha => ?_) (fun a ha => ?_) ?_⟩
    · simp [Function.update_apply, ha, eq_comm]
    · simp [setAt_apply, ha]
    · simp

omit [DecidableEq A] in
/-- The entry taken out stands in no list. -/
theorem Represents.notMem_erase {s : Lists H A} (hs : Represents s m) (hm : m h = P ++ x :: S)
    (k : H) : x ∉ Function.update m h (P ++ S) k := by
  have hnd := hs.nodup h
  rw [hm, List.nodup_middle, List.nodup_cons] at hnd
  rcases eq_or_ne k h with rfl | hk
  · rw [Function.update_self]
    exact hnd.1
  · rw [Function.update_of_ne hk]
    exact fun hx => hk (hs.apart k h x hx (by simp [hm]))

theorem moveCurrent_spec (hs : Represents s.lists m) (hm : m s.listHead = P ++ x :: S)
    (hcur : s.newPrev = some x) (hprev : s.listPrev = P.getLast?) (hnext : s.listNext = S.head?)
    (k : H) :
    ∃ L, moveCurrent s k = some
        { s with lists := L, newPrev := if S.isEmpty then none else s.listPrev } ∧
      Represents L (if k = s.listHead then Function.update m s.listHead (P ++ S ++ [x]) else
        Function.update (Function.update m k (m k ++ [x])) s.listHead (P ++ S)) := by
  obtain ⟨L, hL, hR⟩ := removeCurrent_spec hs hm hcur hprev hnext
  obtain ⟨L', hL', hR'⟩ := insertTail_spec (h := k) hR (hs.notMem_erase hm)
  refine ⟨L', ?_, ?_⟩
  · simp only [moveCurrent, hcur, hL, hL', Option.bind_eq_bind, Option.bind_some]
    rfl
  · split_ifs with hk
    · subst hk
      rwa [Function.update_self, Function.update_idem] at hR'
    · rwa [Function.update_of_ne hk, Function.update_comm (Ne.symm hk)] at hR'

theorem moveCurrentBackwards_spec (hs : Represents s.lists m) (hm : m s.listHead = P ++ x :: S)
    (hcur : s.newPrev = some x) (hprev : s.listPrev = P.getLast?) (hnext : s.listNext = S.head?)
    (k : H) :
    ∃ L, moveCurrentBackwards s k = some
        { s with lists := L, newPrev := if S.isEmpty then none else s.listPrev } ∧
      Represents L (if k = s.listHead then Function.update m s.listHead (x :: (P ++ S)) else
        Function.update (Function.update m k (x :: m k)) s.listHead (P ++ S)) := by
  obtain ⟨L, hL, hR⟩ := removeCurrent_spec hs hm hcur hprev hnext
  have hR' := insertHead_spec (h := k) hR (hs.notMem_erase hm)
  refine ⟨insertHead L k x, ?_, ?_⟩
  · unfold moveCurrentBackwards
    rw [hcur, hL, hnext]
    cases S <;> rfl
  · split_ifs with hk
    · subst hk
      rwa [Function.update_self, Function.update_idem] at hR'
    · rwa [Function.update_of_ne hk, Function.update_comm (Ne.symm hk)] at hR'

theorem insertBeforeCurrent_spec (hs : Represents s.lists m) (hm : m s.listHead = P ++ x :: S)
    (hprev : s.listPrev = P.getLast?) (he : ∀ k, e ∉ m k) :
    ∃ L, insertBeforeCurrent s e = some { s with lists := L } ∧
      Represents L (Function.update m s.listHead (P ++ e :: x :: S)) := by
  have hd := hs.doubly s.listHead
  have heh := he s.listHead
  rw [hm] at hd heh
  rcases List.eq_nil_or_concat' P with rfl | ⟨P, p, rfl⟩
  · have hprev' : s.listPrev = none := hprev
    have hfirst : (s.lists.heads s.listHead).first = some x := hd.first_eq
    have heq : insertBeforeCurrent s e = some { s with lists :=
        ⟨Function.update s.lists.next e (some x),
          Function.update (Function.update s.lists.prev x (some e)) e none,
          Function.update s.lists.heads s.listHead
            { s.lists.heads s.listHead with first := some e }⟩ } := by
      unfold insertBeforeCurrent
      rw [hprev']
      dsimp only
      rw [hfirst]
      rfl
    refine ⟨_, heq, hs.insert (P := []) hm he (fun a => ?_) (fun a => ?_) ?_⟩
    · simp [Function.update_apply]
    · simp [Function.update_apply, eq_comm]
    · simp
  · have hprev' : s.listPrev = some p := by rw [hprev, List.getLast?_concat]
    have hpe : p ≠ e := by
      rintro rfl
      exact heh (by simp)
    have hpx : s.lists.next p = some x := by
      rw [List.append_assoc] at hd
      exact hd.links.1
    have heq : insertBeforeCurrent s e = some { s with lists :=
        { s.lists with
          next := Function.update (Function.update s.lists.next e (some x)) p (some e)
          prev := Function.update (Function.update s.lists.prev e (some p)) x (some e) } } := by
      unfold insertBeforeCurrent
      rw [hprev']
      dsimp only
      rw [hpx, Function.update_of_ne hpe, hpx, setAt_some]
    have hxe : x ≠ e := by
      rintro rfl
      exact heh (by simp)
    refine ⟨_, heq, hs.insert hm he (fun a => ?_) (fun a => ?_) ?_⟩
    · rcases eq_or_ne a e with rfl | hae
      · simp [hpe.symm]
      · simp [Function.update_apply, hae, eq_comm]
    · rcases eq_or_ne a e with rfl | hae
      · simp [hxe.symm]
      · simp [Function.update_apply, hae, eq_comm]
    · simp

theorem insertBeforeCurrentBackwards_spec (hs : Represents s.lists m)
    (hm : m s.listHead = P ++ x :: S) (hcur : s.newPrev = some x) (hnext : s.listNext = S.head?)
    (he : ∀ k, e ∉ m k) :
    ∃ L, insertBeforeCurrentBackwards s e = some { s with lists := L } ∧
      Represents L (Function.update m s.listHead (P ++ x :: e :: S)) := by
  have hd := hs.doubly s.listHead
  have heh := he s.listHead
  rw [hm] at hd heh
  have hxe : x ≠ e := by
    rintro rfl
    exact heh (by simp)
  have hm' : m s.listHead = P ++ [x] ++ S := by simpa using hm
  have hgoal : P ++ x :: e :: S = P ++ [x] ++ e :: S := by simp
  rw [hgoal]
  cases S with
  | nil =>
    have hnext' : s.listNext = none := hnext
    have hlast : (s.lists.heads s.listHead).last = some x := by
      rw [hd.last_eq, List.getLast?_concat]
    have heq : insertBeforeCurrentBackwards s e = some { s with lists :=
        ⟨Function.update (Function.update s.lists.next e none) x (some e),
          Function.update s.lists.prev e (some x), Function.update s.lists.heads s.listHead
            { s.lists.heads s.listHead with last := some e }⟩ } := by
      unfold insertBeforeCurrentBackwards
      rw [hnext']
      dsimp only
      rw [hlast]
      rfl
    refine ⟨_, heq, hs.insert hm' he (fun a => ?_) (fun a => ?_) ?_⟩
    · rcases eq_or_ne a e with rfl | hae
      · simp [hxe.symm]
      · simp [Function.update_apply, hae, eq_comm]
    · simp [Function.update_apply]
    · simp
  | cons n S =>
    have hnext' : s.listNext = some n := hnext
    have hne : n ≠ e := by
      rintro rfl
      exact heh (by simp)
    have heq : insertBeforeCurrentBackwards s e = some { s with lists :=
        { s.lists with
          next := Function.update (Function.update s.lists.next e (some n)) x (some e)
          prev := Function.update (Function.update s.lists.prev e (some x)) n (some e) } } := by
      unfold insertBeforeCurrentBackwards
      rw [hnext', hcur]
      rfl
    refine ⟨_, heq, hs.insert hm' he (fun a => ?_) (fun a => ?_) ?_⟩
    · rcases eq_or_ne a e with rfl | hae
      · simp [hxe.symm]
      · simp [Function.update_apply, hae, eq_comm]
    · rcases eq_or_ne a e with rfl | hae
      · simp [hne.symm]
      · simp [Function.update_apply, hae, eq_comm]
    · simp

/-! ## The loop -/

/-- A round of the loop, and the rest of it. -/
theorem traverse_cons {d : Direction} {a : Action H A} {actions : List (Action H A)} {t : Loop H A}
    (hvar : s.var = some x) (hrun : a.run d s = some t) :
    traverse d (a :: actions) s =
      (traverse d actions (traverseNext t d)).map fun r => (x :: r.1, r.2) := by
  conv_lhs => unfold traverse
  rw [hvar]
  dsimp only
  rw [hrun]
  cases h : traverse d actions (traverseNext t d) <;> simp [h]

omit [DecidableEq A] in
theorem Action.step_ahead {a : Action H A} {d : Direction} {q : Place H A} (ha : a ≠ .move h) :
    (a.step d h q x).ahead = q.ahead := by
  cases a with
  | nothing => rfl
  | insert e => rfl
  | remove => rfl
  | move k =>
    have hk : k ≠ h := fun h => ha (h ▸ rfl)
    rw [Action.step, if_neg hk]

end Dlinkedlists

end Trismedia
