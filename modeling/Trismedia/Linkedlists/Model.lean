import Mathlib.Data.List.Induction
import Trismedia.Common.Leads
/-!
# Singly linked lists and their safe traversal

The macros of `include/trismedia/linkedlists.h`. An entry has a link
`field.next`; a list is the pair of its first and last entry. The block
between `TRIS_LIST_TRAVERSE_SAFE_BEGIN` and `TRIS_LIST_TRAVERSE_SAFE_END` may
edit the list at its current entry. What it needs to know of the list is in
three hidden variables: `__list_next` and `__list_prev`, read when the round
began, and `__new_prev`, which the next round takes for its `__list_prev`.
-/


namespace Trismedia

namespace Linkedlists

/-- `TRIS_LIST_HEAD`, less its lock. -/
structure ListHead (A : Type) where
  first : Option A
  last : Option A
  deriving DecidableEq

/-- A safe traversal in progress: the links, the list traversed and another
one, the entry of the round and the hidden variables. -/
structure Loop (A : Type) where
  next : A → Option A
  head : ListHead A
  newhead : ListHead A
  var : Option A
  listNext : Option A
  listPrev : Option A
  newPrev : Option A

variable {A : Type}

/-- `TRIS_LIST_TRAVERSE_SAFE_BEGIN`: what the `for` loop starts from. -/
def traverseSafeBegin (next : A → Option A) (head newhead : ListHead A) : Loop A where
  next := next
  head := head
  newhead := newhead
  var := head.first
  listNext := head.first.bind next
  listPrev := none
  newPrev := head.first

/-- The step of that loop from one round to the next. -/
def traverseSafeNext (s : Loop A) : Loop A where
  next := s.next
  head := s.head
  newhead := s.newhead
  var := s.listNext
  listNext := s.listNext.bind s.next
  listPrev := s.newPrev
  newPrev := s.listNext

variable [DecidableEq A]

/-- `TRIS_LIST_INSERT_BEFORE_CURRENT`. -/
def insertBeforeCurrent (s : Loop A) (elm : A) : Loop A :=
  match s.listPrev with
  | some p =>
    let next := Function.update s.next elm (s.next p)
    { s with next := Function.update next p (some elm), newPrev := some elm }
  | none =>
    { s with
      next := Function.update s.next elm s.head.first
      head := { s.head with first := some elm }
      newPrev := some elm }

/-- `TRIS_LIST_REMOVE_CURRENT`; `none` where it dereferences null. -/
def removeCurrent (s : Loop A) : Option (Loop A) := do
  let cur ← s.newPrev
  let s := { s with next := Function.update s.next cur none, newPrev := s.listPrev }
  let s := match s.listPrev with
    | some p => { s with next := Function.update s.next p s.listNext }
    | none => { s with head := { s.head with first := s.listNext } }
  return if s.listNext.isNone then { s with head := { s.head with last := s.listPrev } } else s

/-- `TRIS_LIST_INSERT_TAIL`; the link of the entry itself is not written. -/
def insertTail (next : A → Option A) (head : ListHead A) (elm : A) :
    Option ((A → Option A) × ListHead A) :=
  match head.first with
  | none => some (next, ⟨some elm, some elm⟩)
  | some _ => do
    let last ← head.last
    return (Function.update next last (some elm), { head with last := some elm })

/-- `TRIS_LIST_MOVE_CURRENT`. -/
def moveCurrent (s : Loop A) : Option (Loop A) := do
  let cur ← s.newPrev
  let s ← removeCurrent s
  let (next, newhead) ← insertTail s.next s.newhead cur
  return { s with next := next, newhead := newhead }

/-- What a round leaves of its entry. -/
inductive Fate
  | keep | remove | move
  deriving DecidableEq

/-- The block of one round: the entries inserted before the current one, and
what is then done to that. -/
structure Body (A : Type) where
  inserted : List A
  fate : Fate
  deriving DecidableEq

/-- The block run. -/
def Body.run (b : Body A) (s : Loop A) : Option (Loop A) :=
  let s := b.inserted.foldl insertBeforeCurrent s
  match b.fate with
  | .keep => some s
  | .remove => removeCurrent s
  | .move => moveCurrent s

/-- **The traversal**, with a block for each round: the entries visited and
what is left. There is no result where null is dereferenced or the rounds
outlast the blocks. -/
def traverse : List (Body A) → Loop A → Option (List A × Loop A)
  | bodies, s =>
    match s.var, bodies with
    | none, _ => some ([], s)
    | some _, [] => none
    | some x, b :: bodies => do
      let s ← b.run s
      let (visited, t) ← traverse bodies (traverseSafeNext s)
      return (x :: visited, t)

end Linkedlists

/-!
## The rounds of a safe traversal

Before the entry of a round stand the entries passed. Those behind
`__list_prev` are reached by no hidden variable, so `At` keeps the list in
three parts: what ends with `__list_prev`, what stands behind it, and what
is still to come. An insertion goes between the first two, and a removal
joins the first to the last: what stood behind is lost.
-/

namespace Linkedlists

open Links

variable {A : Type} {s : Loop A} {P Q R O : List A} {x e c : A}

/-- The list that a head stands for. -/
def Holds (next : A → Option A) (head : ListHead A) (l : List A) : Prop :=
  Leads next head.first l none ∧ head.last = l.getLast?

/-- **A round in progress.** The list is `P`, then `Q`, then the entry of the
round and what is to come; `__list_prev` is the end of `P`. -/
structure At (s : Loop A) (P Q R O : List A) : Prop where
  main : Holds s.next s.head (P ++ Q ++ R)
  other : Holds s.next s.newhead O
  nodup : (P ++ Q ++ R ++ O).Nodup
  prev : s.listPrev = P.getLast?
  var : s.var = R.head?
  upcoming : s.listNext = R.tail.head?

theorem At.begin {next : A → Option A} {head newhead : ListHead A} (h : Holds next head R)
    (h' : Holds next newhead O) (hnd : (R ++ O).Nodup) :
    At (traverseSafeBegin next head newhead) [] [] R O := by
  have hfirst : head.first = R.head? := by
    have hf := h.1.head
    rwa [Option.or_none] at hf
  refine ⟨h, h', hnd, rfl, hfirst, ?_⟩
  show head.first.bind next = R.tail.head?
  cases R with
  | nil =>
    rw [hfirst]
    rfl
  | cons x R =>
    have hn := h.1.2.head
    rw [Option.or_none] at hn
    rw [hfirst]
    exact hn

/-! ## One round -/

/-- Only the links of its own entries are read. -/
theorem Holds.frame {next next' : A → Option A} {head : ListHead A} {l : List A}
    (h : Holds next head l) (hag : ∀ a ∈ l, next' a = next a) : Holds next' head l :=
  ⟨h.1.frame hag, h.2⟩

/-- **The next round**: its previous entry is the one `__new_prev` names. -/
theorem At.advance (hmain : Holds s.next s.head (P ++ Q ++ R)) (hother : Holds s.next s.newhead O)
    (hnd : (P ++ Q ++ R ++ O).Nodup) (hnew : s.newPrev = P.getLast?)
    (hnext : s.listNext = R.head?) : At (traverseSafeNext s) P Q R O := by
  refine ⟨hmain, hother, hnd, hnew, hnext, ?_⟩
  show s.listNext.bind s.next = R.tail.head?
  rw [hnext]
  cases R with
  | nil => rfl
  | cons y R =>
    obtain ⟨m, -, -, hR⟩ := leads_append.1 hmain.1
    have hy := hR.head
    rwa [Option.or_none] at hy

variable [DecidableEq A]

omit [DecidableEq A] in
theorem getLast?_append_cons (l R : List A) : (l ++ x :: R).getLast? = (x :: R).getLast? := by
  rw [List.getLast?_append, List.getLast?_cons]
  rfl

omit [DecidableEq A] in
theorem notMem_of_nodup {p : A} {S : List A} (h : (P ++ [p] ++ S).Nodup) : p ∉ P ++ S := by
  rw [List.append_assoc, List.singleton_append, List.nodup_middle, List.nodup_cons] at h
  exact h.1

/-- **An insertion** puts the new entry behind `__list_prev`, so before what
an earlier insertion of the round put there. -/
theorem At.insertBeforeCurrent (h : At s P Q (x :: R) O) (he : e ∉ P ++ Q ++ x :: R ++ O) :
    At (insertBeforeCurrent s e) P (e :: Q) (x :: R) O ∧
      (insertBeforeCurrent s e).newPrev = some e := by
  obtain ⟨hmain, hother, hnd, hprev, hvar, hup⟩ := h
  have hnd' : (P ++ e :: Q ++ x :: R ++ O).Nodup := by
    simp only [List.append_assoc, List.cons_append] at hnd he ⊢
    exact List.nodup_middle.2 (List.nodup_cons.2 ⟨he, hnd⟩)
  have hlast : s.head.last = (P ++ e :: Q ++ x :: R).getLast? := by
    rw [hmain.2, getLast?_append_cons, getLast?_append_cons]
  have heO : e ∉ O := fun h => he (List.mem_append_right _ h)
  have heQR : e ∉ Q ++ x :: R := by
    intro h
    refine he (List.mem_append_left _ ?_)
    rw [List.append_assoc]
    exact List.mem_append_right _ h
  have hother' : Leads (Function.update s.next e s.head.first) s.newhead.first O none :=
    hother.1.update heO
  rcases List.eq_nil_or_concat' P with rfl | ⟨P, p, rfl⟩
  · have hins : Linkedlists.insertBeforeCurrent s e = { s with
        next := Function.update s.next e s.head.first
        head := { s.head with first := some e }
        newPrev := some e } := by
      unfold Linkedlists.insertBeforeCurrent
      rw [hprev]
      rfl
    rw [hins]
    refine ⟨⟨⟨⟨rfl, ?_⟩, hlast⟩, ⟨hother', hother.2⟩, hnd', hprev, hvar, hup⟩, rfl⟩
    show Leads _ (Function.update s.next e s.head.first e) (Q ++ x :: R) none
    rw [Function.update_self]
    exact hmain.1.update heQR
  · have hins : Linkedlists.insertBeforeCurrent s e = { s with
        next := Function.update (Function.update s.next e (s.next p)) p (some e)
        newPrev := some e } := by
      unfold Linkedlists.insertBeforeCurrent
      rw [hprev, List.getLast?_concat]
    rw [hins]
    rw [List.append_assoc] at hmain
    obtain ⟨m, hP, hQR⟩ := leads_append.1 hmain.1
    have hp : p ∉ P ++ (e :: Q ++ x :: R ++ O) := notMem_of_nodup (by simpa using hnd')
    have hpO : p ∉ O := fun h => hp (by simp [h])
    have hpS : p ∉ P ++ (e :: Q ++ x :: R) := by
      intro h
      simp only [List.mem_append] at h hp
      tauto
    have heP : e ∉ P ++ [p] := by
      intro h
      simp only [List.mem_append] at h he
      tauto
    have hnext : Function.update s.next e (s.next p) e = m := by
      rw [Function.update_self, (leads_snoc.1 hP).2]
    refine ⟨⟨⟨?_, hlast⟩, ⟨?_, hother.2⟩, hnd', hprev, hvar, hup⟩, rfl⟩
    · rw [List.append_assoc]
      exact (hP.update heP).join ⟨rfl, hnext ▸ hQR.update heQR⟩ hpS
    · exact (hother.1.update heO).update hpO

/-- The insertions of a round, one after another. -/
theorem At.insertAll {es : List A} (h : At s P Q (x :: R) O) (hnd : es.Nodup)
    (hes : ∀ e ∈ es, e ∉ P ++ Q ++ x :: R ++ O) (hnew : s.newPrev = some x) :
    At (es.foldl Linkedlists.insertBeforeCurrent s) P (es.reverse ++ Q) (x :: R) O ∧
      (es.foldl Linkedlists.insertBeforeCurrent s).newPrev = (es.getLast?.or (some x)) := by
  induction es using List.reverseRecOn with
  | nil => exact ⟨h, hnew⟩
  | append_singleton es e ih =>
    rw [List.nodup_append] at hnd
    obtain ⟨hAt, -⟩ := ih hnd.1 fun a ha => hes a (List.mem_append_left _ ha)
    rw [List.foldl_append]
    have he := hes e (by simp)
    have hees : e ∉ es := fun h => hnd.2.2 e h e (by simp) rfl
    have he' : e ∉ P ++ (es.reverse ++ Q) ++ x :: R ++ O := by
      simp only [List.mem_append, List.mem_reverse] at he ⊢
      tauto
    obtain ⟨hAt', hnew'⟩ := hAt.insertBeforeCurrent he'
    simp only [List.reverse_append, List.reverse_singleton, List.getLast?_concat]
    exact ⟨hAt', hnew'⟩

/-- **A removal** joins what is closed to what is to come. The entry that is
taken out is the one `__new_prev` names. -/
theorem At.removeCurrent (h : At s P Q (x :: R) O) (hcur : s.newPrev = some c)
    (hc : c ∉ P ++ R ++ O) :
    ∃ t, removeCurrent s = some t ∧ Holds t.next t.head (P ++ R) ∧ Holds t.next t.newhead O ∧
      t.newPrev = P.getLast? ∧ t.listNext = R.head? ∧ t.next c = none := by
  obtain ⟨hmain, hother, hnd, hprev, hvar, hup⟩ := h
  simp only [List.mem_append, not_or] at hc
  obtain ⟨⟨hcP, hcR⟩, hcO⟩ := hc
  obtain ⟨m, hPQ, -, hR⟩ := leads_append.1 hmain.1
  obtain ⟨m', hP, -⟩ := leads_append.1 hPQ
  have hxR : s.next x = R.head? := by
    have hn := hR.head
    rwa [Option.or_none] at hn
  rw [hxR] at hR
  have hR' := hR.update (v := none) hcR
  have hO' := hother.1.update (v := none) hcO
  have hlast : (if R.head?.isNone then P.getLast? else s.head.last) = (P ++ R).getLast? := by
    cases R with
    | nil => rw [List.append_nil]; rfl
    | cons y R =>
      rw [hmain.2, getLast?_append_cons, List.getLast?_cons_cons, getLast?_append_cons]
      rfl
  have hrem : Linkedlists.removeCurrent s = some
      { s with
        next := P.getLast?.elim (Function.update s.next c none)
          fun p => Function.update (Function.update s.next c none) p R.head?
        head := ⟨P.getLast?.elim R.head? fun _ => s.head.first,
          if R.head?.isNone then P.getLast? else s.head.last⟩
        newPrev := P.getLast? } := by
    unfold Linkedlists.removeCurrent
    rw [hcur, hprev, hup]
    cases P.getLast? <;> cases R <;> rfl
  rw [hlast] at hrem
  refine ⟨_, hrem, ?_⟩
  rcases List.eq_nil_or_concat' P with rfl | ⟨P, p, rfl⟩
  · exact ⟨⟨hR', rfl⟩, ⟨hO', hother.2⟩, rfl, hup, Function.update_self ..⟩
  · have hp : p ∉ P ++ (Q ++ x :: R ++ O) := notMem_of_nodup (by simpa using hnd)
    simp only [List.mem_append, List.mem_cons, not_or] at hp
    have hpPR : p ∉ P ++ R := by simp [hp]
    have hpO : p ∉ O := hp.2.2
    have hcp : c ≠ p := by
      rintro rfl
      exact hcP (by simp)
    rw [List.getLast?_concat]
    refine ⟨⟨?_, rfl⟩, ⟨hO'.update hpO, hother.2⟩, rfl, hup, ?_⟩
    · exact (hP.update hcP).join hR' hpPR
    · show Function.update (Function.update s.next c none) p R.head? c = none
      rw [Function.update_of_ne hcp, Function.update_self]

theorem insertTail_spec {next : A → Option A} {head : ListHead A} {l : List A}
    (h : Holds next head l) (hnd : (l ++ [c]).Nodup) (hc : next c = none) :
    ∃ next' head', insertTail next head c = some (next', head') ∧ Holds next' head' (l ++ [c]) ∧
      ∀ a ∉ l, next' a = next a := by
  rcases List.eq_nil_or_concat' l with rfl | ⟨l, z, rfl⟩
  · have hfirst : head.first = none := h.1
    refine ⟨next, ⟨some c, some c⟩, ?_, ⟨⟨rfl, hc⟩, rfl⟩, fun _ _ => rfl⟩
    rw [insertTail, hfirst]
  · obtain ⟨y, hy⟩ : ∃ y, head.first = some y := by
      have hf := h.1.head
      rw [Option.or_none] at hf
      rw [hf]
      cases l <;> exact ⟨_, rfl⟩
    have hlast : head.last = some z := by rw [h.2, List.getLast?_concat]
    rw [List.nodup_append, List.nodup_append] at hnd
    have hz : z ∉ l ++ [c] := by
      rw [List.mem_append, not_or]
      exact ⟨fun hz => hnd.1.2.2 z hz z (by simp) rfl, fun hz => hnd.2.2 z (by simp) z hz rfl⟩
    have hzc : c ≠ z := fun hcz => hz (by simp [hcz])
    refine ⟨Function.update next z (some c), { head with last := some c }, ?_, ⟨?_, ?_⟩, ?_⟩
    · rw [insertTail, hy, hlast]
      rfl
    · exact h.1.join ⟨rfl, hc⟩ hz
    · rw [List.getLast?_concat]
    · intro a ha
      exact Function.update_of_ne (fun haz => ha (by simp [haz])) ..

/-- **A move** puts the entry that is taken out at the end of the other
list. -/
theorem At.moveCurrent (h : At s P Q (x :: R) O) (hcur : s.newPrev = some c)
    (hc : c ∉ P ++ R ++ O) :
    ∃ t, moveCurrent s = some t ∧ Holds t.next t.head (P ++ R) ∧
      Holds t.next t.newhead (O ++ [c]) ∧ t.newPrev = P.getLast? ∧ t.listNext = R.head? := by
  obtain ⟨t, ht, hmain, hother, hnew, hup, hnull⟩ := h.removeCurrent hcur hc
  have hpart := List.nodup_append.1 h.nodup
  have hcO : c ∉ O := fun h => hc (List.mem_append_right _ h)
  have hnd : (O ++ [c]).Nodup := List.concat_eq_append ▸ hpart.2.1.concat hcO
  obtain ⟨next', head', htail, hother', hag⟩ := insertTail_spec hother hnd hnull
  refine ⟨{ t with next := next', newhead := head' }, ?_, ?_, hother', hnew, hup⟩
  · simp only [Linkedlists.moveCurrent, hcur, ht, htail, Option.bind_eq_bind, Option.bind_some]
    rfl
  · refine hmain.frame fun a ha => hag a fun haO => ?_
    refine hpart.2.2 a ?_ a haO rfl
    simp only [List.mem_append, List.mem_cons] at ha ⊢
    tauto

/-! ## The round after -/

omit [DecidableEq A] in
theorem At.kept {P' Q' : List A} (h : At s P Q (x :: R) O) (hnew : s.newPrev = P'.getLast?)
    (heq : P' ++ Q' ++ R = P ++ Q ++ x :: R) : At (traverseSafeNext s) P' Q' R O := by
  refine At.advance ?_ h.other ?_ hnew h.upcoming
  · rw [heq]
    exact h.main
  · rw [heq]
    exact h.nodup

/-- The entry that is taken out stands nowhere else. -/
theorem At.removed (h : At s P Q (x :: R) O) (hcur : s.newPrev = some c) (hc : c ∈ Q ++ [x]) :
    (∃ t, Linkedlists.removeCurrent s = some t ∧ At (traverseSafeNext t) P [] R O) ∧
      ∃ t, Linkedlists.moveCurrent s = some t ∧ At (traverseSafeNext t) P [] R (O ++ [c]) := by
  have hnd : (P ++ (Q ++ [x]) ++ (R ++ O)).Nodup := by simpa using h.nodup
  have hc' : c ∉ P ++ R ++ O := by
    intro h
    obtain ⟨hleft, -, hdisj⟩ := List.nodup_append.1 hnd
    rw [List.append_assoc, List.mem_append] at h
    rcases h with hP | hRO
    · exact (List.nodup_append.1 hleft).2.2 c hP c hc rfl
    · exact hdisj c (List.mem_append_right _ hc) c hRO rfl
  have hPRO : (P ++ [] ++ R ++ O).Nodup := by
    refine hnd.sublist ?_
    rw [List.append_nil, List.append_assoc]
    exact (List.sublist_append_left _ _).append_right _
  constructor
  · obtain ⟨t, ht, hmain, hother, hnew, hup, -⟩ := h.removeCurrent hcur hc'
    refine ⟨t, ht, At.advance ?_ hother hPRO hnew hup⟩
    rwa [List.append_nil]
  · obtain ⟨t, ht, hmain, hother, hnew, hup⟩ := h.moveCurrent hcur hc'
    refine ⟨t, ht, At.advance ?_ hother ?_ hnew hup⟩
    · rwa [List.append_nil]
    · rw [List.append_nil] at hPRO ⊢
      rw [← List.append_assoc, ← List.concat_eq_append]
      exact hPRO.concat hc'

end Linkedlists

end Trismedia
