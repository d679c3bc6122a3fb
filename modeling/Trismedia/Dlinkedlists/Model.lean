import Trismedia.Common.Dll
/-!
# Doubly linked lists and their safe traversals

The macros of `include/trismedia/dlinkedlists.h`. An entry has the links
`field.next` and `field.prev`; lists are told apart by names of a type `H`,
and each has a first and a last entry. A traversal runs forwards or
backwards, and its block may edit the list at the current entry through
three hidden variables: `__list_next` and `__list_prev`, and `__new_prev`,
which is `__list_prev` in the next round of a forward traversal and
`__list_next` in the next round of a backward one.
-/


namespace Trismedia

namespace Dlinkedlists

open Dll

/-- `TRIS_DLLIST_HEAD`, less its lock. -/
structure DllistHead (A : Type) where
  first : Option A
  last : Option A
  deriving DecidableEq

/-- The links of all entries and the heads of all lists. -/
structure Lists (H A : Type) where
  next : A → Option A
  prev : A → Option A
  heads : H → DllistHead A

variable {H A : Type} [DecidableEq H] [DecidableEq A]

/-! ## Operations -/

/-- `TRIS_DLLIST_INSERT_AFTER`. -/
def insertAfter (s : Lists H A) (head : H) (listelm elm : A) : Lists H A :=
  let next := Function.update s.next elm (s.next listelm)
  let prev := Function.update s.prev elm (some listelm)
  let prev := setAt prev (next listelm) (some elm)
  let next := Function.update next listelm (some elm)
  let hd := s.heads head
  ⟨next, prev, Function.update s.heads head
    (if hd.last = some listelm then { hd with last := some elm } else hd)⟩

/-- `TRIS_DLLIST_INSERT_BEFORE`. -/
def insertBefore (s : Lists H A) (head : H) (listelm elm : A) : Lists H A :=
  let next := Function.update s.next elm (some listelm)
  let prev := Function.update s.prev elm (s.prev listelm)
  let next := setAt next (prev listelm) (some elm)
  let prev := Function.update prev listelm (some elm)
  let hd := s.heads head
  ⟨next, prev, Function.update s.heads head
    (if hd.first = some listelm then { hd with first := some elm } else hd)⟩

/-- `TRIS_DLLIST_INSERT_HEAD`. -/
def insertHead (s : Lists H A) (head : H) (elm : A) : Lists H A :=
  let hd := s.heads head
  let next := Function.update s.next elm hd.first
  let prev := setAt s.prev hd.first (some elm)
  let prev := Function.update prev elm none
  ⟨next, prev, Function.update s.heads head
    ⟨some elm, if hd.last.isNone then some elm else hd.last⟩⟩

/-- `TRIS_DLLIST_INSERT_TAIL`; `none` where null is dereferenced, as below. -/
def insertTail (s : Lists H A) (head : H) (elm : A) : Option (Lists H A) :=
  let hd := s.heads head
  match hd.first with
  | none =>
    some ⟨Function.update s.next elm none, Function.update s.prev elm none,
      Function.update s.heads head ⟨some elm, some elm⟩⟩
  | some _ => do
    let last ← hd.last
    let next := Function.update s.next last (some elm)
    let prev := Function.update s.prev elm hd.last
    let next := Function.update next elm none
    return ⟨next, prev, Function.update s.heads head { hd with last := some elm }⟩

/-- `TRIS_DLLIST_APPEND_DLLIST`. -/
def appendDllist (s : Lists H A) (head list : H) : Option (Lists H A) := do
  let hd := s.heads head
  let l := s.heads list
  let s : Lists H A ← match hd.first with
    | none => some { s with heads := Function.update s.heads head ⟨l.first, l.last⟩ }
    | some _ => do
      let last ← hd.last
      let first ← l.first
      pure ⟨Function.update s.next last l.first, Function.update s.prev first hd.last,
        Function.update s.heads head { hd with last := l.last }⟩
  return { s with heads := Function.update s.heads list ⟨none, none⟩ }

/-- `TRIS_DLLIST_REMOVE_HEAD`, with the entry that it returns. -/
def removeHead (s : Lists H A) (head : H) : Option A × Lists H A :=
  let hd := s.heads head
  match hd.first with
  | none => (none, s)
  | some cur =>
    let prev := setAt s.prev (s.next cur) none
    let next := Function.update s.next cur none
    (some cur, ⟨next, prev, Function.update s.heads head
      ⟨s.next cur, if hd.last = some cur then none else hd.last⟩⟩)

/-- `TRIS_DLLIST_REMOVE`. -/
def remove (s : Lists H A) (head : H) (elm : A) : Option (Lists H A) := do
  let hd := s.heads head
  let s : Lists H A ←
    if hd.first = some elm then
      some ⟨s.next, setAt s.prev (s.next elm) none, Function.update s.heads head
        ⟨s.next elm, if hd.last = some elm then none else hd.last⟩⟩
    else do
      let p ← s.prev elm
      let next := Function.update s.next p (s.next elm)
      let prev := setAt s.prev (next elm) (s.prev elm)
      pure ⟨next, prev, Function.update s.heads head
        (if hd.last = some elm then { hd with last := prev elm } else hd)⟩
  return { s with next := Function.update s.next elm none, prev := Function.update s.prev elm none }

/-! ## Traversals -/

inductive Direction
  | forwards | backwards
  deriving DecidableEq

/-- A safe traversal in progress. -/
structure Loop (H A : Type) where
  lists : Lists H A
  listHead : H
  var : Option A
  listNext : Option A
  listPrev : Option A
  newPrev : Option A

/-- `TRIS_DLLIST_TRAVERSE_SAFE_BEGIN` and
`TRIS_DLLIST_TRAVERSE_BACKWARDS_SAFE_BEGIN`: what the loop starts from. -/
def traverseBegin (s : Lists H A) (head : H) : Direction → Loop H A
  | .forwards =>
    let var := (s.heads head).first
    ⟨s, head, var, var.bind s.next, none, var⟩
  | .backwards =>
    let var := (s.heads head).last
    ⟨s, head, var, none, var.bind s.prev, var⟩

/-- The step of the loop from one round to the next. -/
def traverseNext (s : Loop H A) : Direction → Loop H A
  | .forwards =>
    { s with
      listPrev := s.newPrev
      var := s.listNext
      newPrev := s.listNext
      listNext := s.listNext.bind s.lists.next }
  | .backwards =>
    { s with
      listNext := s.newPrev
      var := s.listPrev
      newPrev := s.listPrev
      listPrev := s.listPrev.bind s.lists.prev }

/-- `TRIS_DLLIST_REMOVE_CURRENT`. -/
def removeCurrent (s : Loop H A) : Option (Loop H A) := do
  let cur ← s.newPrev
  let next := Function.update s.lists.next cur none
  let prev := Function.update s.lists.prev cur none
  let hd := s.lists.heads s.listHead
  let (next, prev, hd) := match s.listPrev with
    | some p =>
      (Function.update next p s.listNext, setAt prev s.listNext s.listPrev, hd)
    | none => (next, setAt prev s.listNext none, { hd with first := s.listNext })
  let hd := if s.listNext.isNone then { hd with last := s.listPrev } else hd
  return { s with
    lists := ⟨next, prev, Function.update s.lists.heads s.listHead hd⟩
    newPrev := if s.listNext.isSome then s.listPrev else none }

/-- `TRIS_DLLIST_MOVE_CURRENT`. -/
def moveCurrent (s : Loop H A) (newhead : H) : Option (Loop H A) := do
  let cur ← s.newPrev
  let s ← removeCurrent s
  let lists ← insertTail s.lists newhead cur
  return { s with lists := lists }

/-- `TRIS_DLLIST_MOVE_CURRENT_BACKWARDS`. -/
def moveCurrentBackwards (s : Loop H A) (newhead : H) : Option (Loop H A) := do
  let cur ← s.newPrev
  match s.listNext with
  | none => do
    let s ← removeCurrent s
    return { s with newPrev := none, lists := insertHead s.lists newhead cur }
  | some _ => do
    let s ← removeCurrent s
    return { s with lists := insertHead s.lists newhead cur }

/-- `TRIS_DLLIST_INSERT_BEFORE_CURRENT`. -/
def insertBeforeCurrent (s : Loop H A) (elm : A) : Option (Loop H A) :=
  let hd := s.lists.heads s.listHead
  match s.listPrev with
  | some p =>
    let next := Function.update s.lists.next elm (s.lists.next p)
    let prev := Function.update s.lists.prev elm (some p)
    let prev := setAt prev (next p) (some elm)
    let next := Function.update next p (some elm)
    some { s with lists := { s.lists with next := next, prev := prev } }
  | none => do
    let next := Function.update s.lists.next elm hd.first
    let first ← hd.first
    let prev := Function.update s.lists.prev first (some elm)
    let prev := Function.update prev elm none
    return { s with lists := ⟨next, prev,
      Function.update s.lists.heads s.listHead { hd with first := some elm }⟩ }

/-- `TRIS_DLLIST_INSERT_BEFORE_CURRENT_BACKWARDS`: before it in the order of
the traversal, so after it in the list. -/
def insertBeforeCurrentBackwards (s : Loop H A) (elm : A) : Option (Loop H A) :=
  let hd := s.lists.heads s.listHead
  match s.listNext with
  | some n => do
    let next := Function.update s.lists.next elm (some n)
    let prev := Function.update s.lists.prev elm s.newPrev
    let cur ← s.newPrev
    let next := Function.update next cur (some elm)
    let prev := Function.update prev n (some elm)
    return { s with lists := { s.lists with next := next, prev := prev } }
  | none => do
    let prev := Function.update s.lists.prev elm hd.last
    let next := Function.update s.lists.next elm none
    let last ← hd.last
    let next := Function.update next last (some elm)
    return { s with lists := ⟨next, prev,
      Function.update s.lists.heads s.listHead { hd with last := some elm }⟩ }

/-- What the block of a round does to its entry. -/
inductive Action (H A : Type)
  | nothing
  | insert (elm : A)
  | remove
  | move (newhead : H)
  deriving DecidableEq

def Action.run (a : Action H A) (d : Direction) (s : Loop H A) : Option (Loop H A) :=
  match a, d with
  | .nothing, _ => some s
  | .insert elm, .forwards => insertBeforeCurrent s elm
  | .insert elm, .backwards => insertBeforeCurrentBackwards s elm
  | .remove, _ => removeCurrent s
  | .move newhead, .forwards => moveCurrent s newhead
  | .move newhead, .backwards => moveCurrentBackwards s newhead

/-- **A traversal**, with an action for each round: the entries visited and
what is left. There is no result where null is dereferenced or the rounds
outlast the actions. -/
def traverse (d : Direction) : List (Action H A) → Loop H A → Option (List A × Lists H A)
  | actions, s =>
    match s.var, actions with
    | none, _ => some ([], s.lists)
    | some _, [] => none
    | some x, a :: actions => do
      let s ← a.run d s
      let (visited, t) ← traverse d actions (traverseNext s d)
      return (x :: visited, t)

/-! ## Programs -/

/-- One statement of a program. -/
inductive Statement (H A : Type)
  | insertHead (head : H) (elm : A)
  | insertTail (head : H) (elm : A)
  | insertAfter (head : H) (listelm elm : A)
  | insertBefore (head : H) (listelm elm : A)
  | appendDllist (head list : H)
  | remove (head : H) (elm : A)
  | removeHead (head : H)
  | traverse (d : Direction) (head : H) (actions : List (Action H A))
  deriving DecidableEq

/-- A statement run: the entries it visits or returns, and what is left. -/
def Statement.run (s : Lists H A) : Statement H A → Option (List A × Lists H A)
  | .insertHead head elm => some ([], Dlinkedlists.insertHead s head elm)
  | .insertTail head elm => (Dlinkedlists.insertTail s head elm).map ([], ·)
  | .insertAfter head listelm elm => some ([], Dlinkedlists.insertAfter s head listelm elm)
  | .insertBefore head listelm elm => some ([], Dlinkedlists.insertBefore s head listelm elm)
  | .appendDllist head list => (Dlinkedlists.appendDllist s head list).map ([], ·)
  | .remove head elm => (Dlinkedlists.remove s head elm).map ([elm], ·)
  | .removeHead head =>
    let (cur, t) := Dlinkedlists.removeHead s head
    some (cur.toList, t)
  | .traverse d head actions => Dlinkedlists.traverse d actions (traverseBegin s head d)

/-- A program run: what each statement visits or returns, and what is left. -/
def run : List (Statement H A) → Lists H A → Option (List (List A) × Lists H A)
  | [], s => some ([], s)
  | c :: cs, s => do
    let (o, s) ← c.run s
    let (os, s) ← run cs s
    return (o :: os, s)

end Dlinkedlists

end Trismedia
