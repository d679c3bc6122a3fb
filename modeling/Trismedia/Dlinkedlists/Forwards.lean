import Trismedia.Dlinkedlists.Traverse
/-!
# Forward traversals

Forwards the hidden variables name the neighbours of the current entry in
every round, whatever the rounds before did. Only an entry that is moved to
the end of the list itself lies ahead again and is met a second time.
-/


namespace Trismedia

namespace Dlinkedlists

open Links

variable {H A : Type} [DecidableEq H] [DecidableEq A] {s : Loop H A} {m : H → List A} {h : H} {x : A}

/-- A round of a forward traversal. -/
structure ForwardAt (s : Loop H A) (m : H → List A) (passed todo : List A) : Prop where
  lists : Represents s.lists (Function.update m s.listHead (passed ++ todo))
  var : s.var = todo.head?
  cur : s.newPrev = todo.head?
  next : s.listNext = todo.tail.head?
  prev : todo ≠ [] → s.listPrev = passed.getLast?

omit [DecidableEq A] in
/-- The next round of a forward traversal. -/
theorem ForwardAt.advance {passed todo : List A}
    (hL : Represents s.lists (Function.update m s.listHead (passed ++ todo)))
    (hnext : s.listNext = todo.head?) (hnew : todo ≠ [] → s.newPrev = passed.getLast?) :
    ForwardAt (traverseNext s .forwards) m passed todo := by
  refine ⟨hL, hnext, hnext, ?_, hnew⟩
  show s.listNext.bind s.lists.next = todo.tail.head?
  rw [hnext]
  cases todo with
  | nil => rfl
  | cons y R =>
    have hd := hL.doubly s.listHead
    rw [Function.update_self] at hd
    exact hd.links.1

omit [DecidableEq A] in
theorem ForwardAt.begin {s : Lists H A} (hs : Represents s m) :
    ForwardAt (traverseBegin s h .forwards) m [] (m h) := by
  have hfirst := (hs.doubly h).first_eq
  refine ⟨?_, hfirst, hfirst, ?_, fun _ => rfl⟩
  · show Represents s (Function.update m h (m h))
    rwa [Function.update_eq_self]
  · show (s.heads h).first.bind s.next = (m h).tail.head?
    rw [hfirst]
    have hd := hs.doubly h
    cases hm : m h with
    | nil => rfl
    | cons y R =>
      rw [hm] at hd
      exact (Doubly.links (P := []) hd).1

/-- **One round forwards.** An entry moved to the end of its own list is met
again, unless it was the last. -/
theorem ForwardAt.round {a : Action H A} {q : Place H A} {todo : List A}
    (hs : ForwardAt s q.lists q.passed (x :: todo))
    (ha : a.Legal (Function.update q.lists s.listHead (q.passed ++ x :: todo))) :
    ∃ t, a.run .forwards s = some t ∧ t.listHead = s.listHead ∧
      (a ≠ .move s.listHead → ForwardAt (traverseNext t .forwards)
        (a.step .forwards s.listHead q x).lists (a.step .forwards s.listHead q x).passed todo) ∧
      (a = .move s.listHead → todo = [] →
        ForwardAt (traverseNext t .forwards) q.lists (q.passed ++ [x]) []) ∧
      (a = .move s.listHead → todo ≠ [] →
        ForwardAt (traverseNext t .forwards) q.lists q.passed (todo ++ [x])) := by
  obtain ⟨hL, -, hcur, hnext, hprev⟩ := hs
  have hprev' := hprev (List.cons_ne_nil x todo)
  have hm := Function.update_self s.listHead (q.passed ++ x :: todo) q.lists
  have hmid : q.passed ++ x :: todo = q.passed ++ [x] ++ todo := by simp
  have hout : todo ≠ [] →
      (if todo.isEmpty then none else s.listPrev) = q.passed.getLast? := by
    intro hne
    rw [hprev']
    simp [hne]
  cases a with
  | nothing =>
    refine ⟨s, rfl, rfl, fun _ => ForwardAt.advance ?_ hnext fun _ => ?_, by simp, by simp⟩
    · rwa [hmid] at hL
    · rw [hcur]
      exact List.getLast?_concat.symm
  | insert e =>
    obtain ⟨L, hrun, hR⟩ := insertBeforeCurrent_spec hL hm hprev' ha
    rw [Function.update_idem] at hR
    refine ⟨_, hrun, rfl, fun _ => ForwardAt.advance ?_ hnext fun _ => ?_, by simp, by simp⟩
    · have heq : q.passed ++ e :: x :: todo = q.passed ++ [e, x] ++ todo := by simp
      rwa [heq] at hR
    · show s.newPrev = (q.passed ++ [e, x]).getLast?
      rw [hcur, List.getLast?_append]
      rfl
  | remove =>
    obtain ⟨L, hrun, hR⟩ := removeCurrent_spec hL hm hcur hprev' hnext
    rw [Function.update_idem] at hR
    exact ⟨_, hrun, rfl, fun _ => ForwardAt.advance hR hnext hout, by simp, by simp⟩
  | move k =>
    obtain ⟨L, hrun, hR⟩ := moveCurrent_spec hL hm hcur hprev' hnext k
    refine ⟨_, hrun, rfl, fun hne => ?_, fun heq htodo => ?_, fun heq htodo => ?_⟩
    · have hk : k ≠ s.listHead := fun h => hne (h ▸ rfl)
      rw [if_neg hk, Function.update_of_ne hk, Function.update_comm hk, Function.update_idem,
        Function.update_comm hk.symm] at hR
      simp only [Action.step, if_neg hk]
      exact ForwardAt.advance hR hnext hout
    · have hk : k = s.listHead := by injection heq
      subst htodo
      rw [if_pos hk, Function.update_idem, List.append_nil] at hR
      refine ForwardAt.advance ?_ hnext (by simp)
      rwa [List.append_nil]
    · have hk : k = s.listHead := by injection heq
      rw [if_pos hk, Function.update_idem, List.append_assoc] at hR
      refine ForwardAt.advance hR ?_ fun _ => hout htodo
      show s.listNext = (todo ++ [x]).head?
      rw [hnext, List.head?_append]
      obtain ⟨y, R, rfl⟩ := List.exists_cons_of_ne_nil htodo
      rfl

/-- Where an entry lies ahead that was passed already, there are more rounds
than entries. -/
theorem traverse_forwards_ahead {actions : List (Action H A)} {q : Place H A} {todo : List A}
    (hs : ForwardAt s q.lists q.passed (todo ++ q.ahead)) (hq : q.ahead ≠ [])
    (hlegal : LegalActions .forwards s.listHead q todo actions)
    (hlen : actions.length = todo.length) : traverse .forwards actions s = none := by
  induction todo generalizing s q actions with
  | nil =>
    obtain rfl := List.length_eq_zero_iff.1 hlen
    obtain ⟨y, R, hy⟩ := List.exists_cons_of_ne_nil hq
    have hvar : s.var = some y := by
      rw [hs.var, hy]
      rfl
    unfold traverse
    rw [hvar]
  | cons x todo ih =>
    obtain _ | ⟨a, actions⟩ := actions
    · cases hlen
    · obtain ⟨ha, hrest⟩ := hlegal
      obtain ⟨t, hrun, hhead, hother, -, hself⟩ := hs.round ha
      have hhead' : (traverseNext t .forwards).listHead = s.listHead := hhead
      have hlen' : actions.length = todo.length := by simpa using hlen
      rw [traverse_cons hs.var hrun, Option.map_eq_none_iff]
      rw [← hhead'] at hrest
      by_cases hmove : a = .move s.listHead
      · refine ih ?_ ?_ hrest hlen'
        · have hAt := hself hmove (by simp [hq])
          rw [hmove, hhead', Action.step, if_pos rfl]
          rwa [← List.append_assoc]
        · rw [hmove, hhead', Action.step, if_pos rfl]
          simp
      · refine ih ?_ ?_ hrest hlen'
        · rw [hhead', Action.step_ahead hmove]
          exact hother hmove
        · rwa [hhead', Action.step_ahead hmove]

/-- **Where a forward traversal is safe**: it moves no entry to the end of its
own list but the last. -/
def SafeForwards (h : H) : List (Action H A) → Prop
  | [] => True
  | a :: actions => (a = .move h → actions = []) ∧ SafeForwards h actions

/-- **A forward traversal** makes the edits asked for exactly where it is
safe. -/
theorem traverse_forwards_iff {actions : List (Action H A)} {q : Place H A} {todo : List A}
    (hs : ForwardAt s q.lists q.passed todo) (hq : q.ahead = [])
    (hlegal : LegalActions .forwards s.listHead q todo actions)
    (hlen : actions.length = todo.length) :
    (∃ t, traverse .forwards actions s = some (todo, t) ∧
        Represents t (edits .forwards s.listHead q todo actions)) ↔
      SafeForwards s.listHead actions := by
  induction todo generalizing s q actions with
  | nil =>
    obtain rfl := List.length_eq_zero_iff.1 hlen
    refine ⟨fun _ => trivial, fun _ => ⟨s.lists, ?_, ?_⟩⟩
    · have hvar : s.var = none := hs.var
      unfold traverse
      rw [hvar]
    · have hL := hs.lists
      rwa [edits_nil, Place.all, hq]
  | cons x todo ih =>
    obtain _ | ⟨a, actions⟩ := actions
    · cases hlen
    · obtain ⟨ha, hrest⟩ := hlegal
      rw [Place.all, hq, List.append_nil] at ha
      obtain ⟨t, hrun, hhead, hother, hlast, hself⟩ := hs.round ha
      have hhead' : (traverseNext t .forwards).listHead = s.listHead := hhead
      have hlen' : actions.length = todo.length := by simpa using hlen
      rw [traverse_cons hs.var hrun]
      rw [← hhead'] at hrest
      by_cases hmove : a = .move s.listHead
      · by_cases htodo : todo = []
        · subst htodo
          obtain rfl := List.length_eq_zero_iff.1 hlen'
          have hAt := hlast hmove rfl
          have hvar : (traverseNext t .forwards).var = none := hAt.var
          refine ⟨fun _ => ⟨fun _ => rfl, trivial⟩, fun _ => ⟨t.lists, ?_, ?_⟩⟩
          · unfold traverse
            rw [hvar]
            rfl
          · have hL := hAt.lists
            rw [hhead', List.append_nil] at hL
            rw [hmove, edits, Action.step, if_pos rfl, edits_nil, Place.all, hq]
            exact hL
        · have hAt := hself hmove htodo
          have hnone : traverse .forwards actions (traverseNext t .forwards) = none := by
            refine traverse_forwards_ahead ?_ ?_ hrest hlen'
            · rw [hmove, hhead', Action.step, if_pos rfl, hq]
              exact hAt
            · rw [hmove, hhead', Action.step, if_pos rfl]
              simp
          rw [hnone]
          constructor
          · rintro ⟨u, hu, -⟩
            cases hu
          · rintro ⟨hsafe, -⟩
            rw [hsafe hmove] at hlen'
            exact absurd (List.length_eq_zero_iff.1 hlen'.symm) htodo
      · have hq' : (a.step .forwards s.listHead q x).ahead = [] := by
          rw [Action.step_ahead hmove, hq]
        rw [hhead'] at hrest
        have hih := ih (hother hmove) hq' (hhead'.symm ▸ hrest) hlen'
        rw [hhead'] at hih
        have hsafe : SafeForwards s.listHead (a :: actions) ↔ SafeForwards s.listHead actions :=
          ⟨fun h => h.2, fun h => ⟨fun heq => absurd heq hmove, h⟩⟩
        rw [hsafe, ← hih, edits]
        simp

end Dlinkedlists

/-!
## Backward traversals

A removal where an entry stands behind the current one sets `__new_prev` to
the entry before it, and the next round takes that for its `__list_next`: it
is the current entry of that round. If the round does nothing, the round
after it is in order again. If it does anything, the entry that stands behind
loses its neighbour: its link leads to a cell that does not lead back, and
nothing that the traversal does later mends this.
-/

namespace Dlinkedlists

open Dll Links

variable {H A : Type} [DecidableEq H] [DecidableEq A] {s : Loop H A} {m : H → List A} {h k : H}
variable {e x n p : A}

/-- A round of a backward traversal. `own` says that the entry is its own
`__list_next`, where there is one behind it. -/
structure BackwardAt (s : Loop H A) (m : H → List A) (passed todo : List A) (own : Bool) :
    Prop where
  lists : Represents s.lists (Function.update m s.listHead (todo.reverse ++ passed))
  var : s.var = todo.head?
  cur : s.newPrev = todo.head?
  prev : s.listPrev = todo.tail.head?
  next : todo ≠ [] → s.listNext = if own then todo.head? else passed.head?
  behind : own → passed ≠ []

omit [DecidableEq A] in
/-- The next round of a backward traversal. -/
theorem BackwardAt.advance {passed todo : List A} {own : Bool}
    (hL : Represents s.lists (Function.update m s.listHead (todo.reverse ++ passed)))
    (hprev : s.listPrev = todo.head?)
    (hnew : todo ≠ [] → s.newPrev = if own then todo.head? else passed.head?)
    (hown : own → passed ≠ []) :
    BackwardAt (traverseNext s .backwards) m passed todo own := by
  refine ⟨hL, hprev, hprev, ?_, hnew, hown⟩
  show s.listPrev.bind s.lists.prev = todo.tail.head?
  rw [hprev]
  cases todo with
  | nil => rfl
  | cons y R =>
    have hd := hL.doubly s.listHead
    rw [Function.update_self, List.reverse_cons, List.append_assoc] at hd
    have hlink := hd.links.2
    rwa [List.getLast?_reverse] at hlink

omit [DecidableEq A] in
theorem BackwardAt.begin {s : Lists H A} (hs : Represents s m) :
    BackwardAt (traverseBegin s h .backwards) m [] (m h).reverse false := by
  have hlast := (hs.doubly h).last_eq
  rw [← List.head?_reverse] at hlast
  refine ⟨?_, hlast, hlast, ?_, fun _ => rfl, by simp⟩
  · show Represents s (Function.update m h ((m h).reverse.reverse ++ []))
    rwa [List.reverse_reverse, List.append_nil, Function.update_eq_self]
  · show (s.heads h).last.bind s.prev = (m h).reverse.tail.head?
    rw [hlast]
    have hd := hs.doubly h
    rcases List.eq_nil_or_concat' (m h) with hm | ⟨l, y, hm⟩
    · rw [hm]
      rfl
    · rw [hm] at hd ⊢
      rw [List.reverse_append, List.reverse_singleton, List.singleton_append, List.tail_cons,
        List.head?_reverse]
      exact hd.links.2

/-- The round after one that does this to an entry finds it its own
`__list_next`; `behind` says that an entry stands behind that. -/
def Action.leavesOwn (a : Action H A) (behind : Bool) : Bool :=
  match a with
  | .nothing | .insert _ => false
  | .remove | .move _ => behind

/-- **One round backwards**, where `__list_next` is the next entry. An entry
moved to the front of its own list is met again, unless it was the first. -/
theorem BackwardAt.round {a : Action H A} {q : Place H A} {todo : List A}
    (hs : BackwardAt s q.lists q.passed (x :: todo) false)
    (ha : a.Legal (Function.update q.lists s.listHead ((x :: todo).reverse ++ q.passed))) :
    ∃ t, a.run .backwards s = some t ∧ t.listHead = s.listHead ∧
      (a ≠ .move s.listHead → BackwardAt (traverseNext t .backwards)
        (a.step .backwards s.listHead q x).lists (a.step .backwards s.listHead q x).passed todo
        (a.leavesOwn !q.passed.isEmpty)) ∧
      (a = .move s.listHead → todo = [] →
        BackwardAt (traverseNext t .backwards) q.lists (x :: q.passed) [] false) ∧
      (a = .move s.listHead → todo ≠ [] →
        BackwardAt (traverseNext t .backwards) q.lists q.passed (todo ++ [x])
          !q.passed.isEmpty) := by
  obtain ⟨hL, -, hcur, hprev, hnext, -⟩ := hs
  have hnext' : s.listNext = q.passed.head? := hnext (List.cons_ne_nil x todo)
  have hmid : (x :: todo).reverse ++ q.passed = todo.reverse ++ x :: q.passed := by simp
  have hprev' : s.listPrev = todo.reverse.getLast? := by
    rw [hprev, List.getLast?_reverse]
    rfl
  rw [hmid] at hL ha
  have hm := Function.update_self s.listHead (todo.reverse ++ x :: q.passed) q.lists
  have hout : (if q.passed.isEmpty then none else s.listPrev) =
      if !q.passed.isEmpty then todo.head? else q.passed.head? := by
    rw [hprev]
    cases q.passed <;> rfl
  have hbehind : (!q.passed.isEmpty) = true → q.passed ≠ [] := by simp
  cases a with
  | nothing =>
    refine ⟨s, rfl, rfl, fun _ => ?_, by simp, by simp⟩
    exact BackwardAt.advance hL hprev (fun _ => hcur) (by simp [Action.leavesOwn])
  | insert e =>
    obtain ⟨L, hrun, hR⟩ := insertBeforeCurrentBackwards_spec hL hm hcur hnext' ha
    rw [Function.update_idem] at hR
    refine ⟨_, hrun, rfl, fun _ => ?_, by simp, by simp⟩
    exact BackwardAt.advance hR hprev (fun _ => hcur) (by simp [Action.leavesOwn])
  | remove =>
    obtain ⟨L, hrun, hR⟩ := removeCurrent_spec hL hm hcur hprev' hnext'
    rw [Function.update_idem] at hR
    refine ⟨_, hrun, rfl, fun _ => ?_, by simp, by simp⟩
    exact BackwardAt.advance hR hprev (fun _ => hout) hbehind
  | move k =>
    obtain ⟨L, hrun, hR⟩ := moveCurrentBackwards_spec hL hm hcur hprev' hnext' k
    refine ⟨_, hrun, rfl, fun hne => ?_, fun heq htodo => ?_, fun heq htodo => ?_⟩
    · have hk : k ≠ s.listHead := fun h => hne (h ▸ rfl)
      rw [if_neg hk, Function.update_of_ne hk, Function.update_comm hk, Function.update_idem,
        Function.update_comm hk.symm] at hR
      simp only [Action.step, if_neg hk]
      exact BackwardAt.advance hR hprev (fun _ => hout) hbehind
    · have hk : k = s.listHead := by injection heq
      subst htodo
      rw [if_pos hk, Function.update_idem] at hR
      exact BackwardAt.advance hR hprev (by simp) (by simp)
    · have hk : k = s.listHead := by injection heq
      have hlist : x :: (todo.reverse ++ q.passed) = (todo ++ [x]).reverse ++ q.passed := by simp
      have hhead : (todo ++ [x]).head? = todo.head? := by
        obtain ⟨y, R, rfl⟩ := List.exists_cons_of_ne_nil htodo
        rfl
      rw [if_pos hk, Function.update_idem, hlist] at hR
      refine BackwardAt.advance hR ?_ (fun _ => ?_) hbehind
      · rw [hhead]
        exact hprev
      · rw [hhead]
        exact hout

omit [DecidableEq A] in
/-- A round that does nothing to an entry that is its own `__list_next`. -/
theorem BackwardAt.pause {passed todo : List A} (hs : BackwardAt s m passed (x :: todo) true) :
    BackwardAt (traverseNext s .backwards) m (x :: passed) todo false := by
  obtain ⟨hL, -, hcur, hprev, -, -⟩ := hs
  have hmid : (x :: todo).reverse ++ passed = todo.reverse ++ x :: passed := by simp
  rw [hmid] at hL
  exact BackwardAt.advance hL hprev (fun _ => hcur) (by simp)

/-! ## What is not mended -/

/-- **A round that leaves `n` alone**, which leads to `p`. The entries that the
traversal may still meet are among `W`, which their links do not lead out
of, and neither a hidden variable nor the head of a list names `n`. -/
structure Apart (s : Loop H A) (n p : A) (W : List A) : Prop where
  prev : s.lists.prev n = some p
  out : n ∉ W
  closed : ∀ a ∈ W, ∀ b, s.lists.prev a = some b → b ∈ W
  cur : s.newPrev = s.var
  var : ∀ a, s.var = some a → a ∈ W
  listPrev : ∀ a, s.listPrev = some a → a ∈ W
  listNext : ∀ a, s.listNext = some a → a ∈ W
  own : s.var.isSome → s.listNext.isSome
  heads : ∀ j, (s.lists.heads j).first ≠ some n

/-- What a round may write: no link to `n`, no `prev` link of `n`, and none out
of `W`, where it may have put a new entry. -/
structure Spares (s t : Loop H A) (n : A) (W : List A) : Prop where
  next : ∀ a, t.lists.next a = some n → s.lists.next a = some n
  prev : t.lists.prev n = s.lists.prev n
  out : n ∉ W
  closed : ∀ a ∈ W, ∀ b, t.lists.prev a = some b → b ∈ W
  heads : ∀ j, (t.lists.heads j).first ≠ some n
  listHead : t.listHead = s.listHead
  listPrev : ∀ a, t.listPrev = some a → a ∈ W
  newPrev : ∀ a, t.newPrev = some a → a ∈ W
  own : t.listPrev.isSome → t.newPrev.isSome

theorem Spares.removeCurrent {t : Loop H A} {W : List A} (hs : Apart s n p W)
    (hvar : s.var = some x) (hrun : removeCurrent s = some t) : Spares s t n W := by
  obtain ⟨L, head, var, listNext, listPrev, newPrev⟩ := s
  obtain ⟨hprev, hout, hclosed, hcur, hvarW, hlp, hln, hown, hheads⟩ := hs
  obtain rfl : newPrev = var := hcur
  obtain rfl : newPrev = some x := hvar
  obtain ⟨z, rfl⟩ := Option.isSome_iff_exists.1 (hown rfl)
  have hx : x ∈ W := hvarW x rfl
  have hz : z ∈ W := hln z rfl
  have hnx : n ≠ x := fun h => hout (h ▸ hx)
  have hnz : n ≠ z := fun h => hout (h ▸ hz)
  have hnext : ∀ a, Function.update L.next x none a = some n → L.next a = some n := by
    intro a ha
    rcases eq_or_ne a x with rfl | hax
    · rw [Function.update_self] at ha
      cases ha
    · rwa [Function.update_of_ne hax] at ha
  have hprev' : Function.update (Function.update L.prev x none) z listPrev n = L.prev n := by
    rw [Function.update_of_ne hnz, Function.update_of_ne hnx]
  have hclosed' : ∀ a ∈ W, ∀ b,
      Function.update (Function.update L.prev x none) z listPrev a = some b → b ∈ W := by
    intro a ha b hb
    rcases eq_or_ne a z with rfl | haz
    · rw [Function.update_self] at hb
      exact hlp b hb
    · rw [Function.update_of_ne haz] at hb
      rcases eq_or_ne a x with rfl | hax
      · rw [Function.update_self] at hb
        cases hb
      · rw [Function.update_of_ne hax] at hb
        exact hclosed a ha b hb
  cases listPrev with
  | none =>
    obtain rfl := Option.some.inj hrun
    refine ⟨hnext, hprev', hout, hclosed', fun j hj => ?_, rfl, hlp, hlp, fun h => h⟩
    have hj' : (Function.update L.heads head { L.heads head with first := some z } j).first =
        some n := hj
    rw [Function.update_apply] at hj'
    split at hj'
    · exact hnz (Option.some.inj hj').symm
    · exact hheads j hj'
  | some q =>
    obtain rfl := Option.some.inj hrun
    refine ⟨fun a ha => ?_, hprev', hout, hclosed', fun j hj => ?_, rfl, hlp, hlp, fun h => h⟩
    · have ha' : Function.update (Function.update L.next x none) q (some z) a = some n := ha
      rcases eq_or_ne a q with rfl | haq
      · rw [Function.update_self] at ha'
        exact absurd (Option.some.inj ha').symm hnz
      · rw [Function.update_of_ne haq] at ha'
        exact hnext a ha'
    · have hj' : (Function.update L.heads head (L.heads head) j).first = some n := hj
      rw [Function.update_eq_self] at hj'
      exact hheads j hj'

theorem Spares.insert {t : Loop H A} {W : List A} (hs : Apart s n p W) (hvar : s.var = some x)
    (he : e ≠ n) (hrun : insertBeforeCurrentBackwards s e = some t) : Spares s t n (e :: W) := by
  obtain ⟨L, head, var, listNext, listPrev, newPrev⟩ := s
  obtain ⟨hprev, hout, hclosed, hcur, hvarW, hlp, hln, hown, hheads⟩ := hs
  obtain rfl : newPrev = var := hcur
  obtain rfl : newPrev = some x := hvar
  obtain ⟨z, rfl⟩ := Option.isSome_iff_exists.1 (hown rfl)
  have hx : x ∈ W := hvarW x rfl
  have hz : z ∈ W := hln z rfl
  have hnx : n ≠ x := fun h => hout (h ▸ hx)
  have hnz : n ≠ z := fun h => hout (h ▸ hz)
  obtain rfl := Option.some.inj hrun
  refine ⟨fun a ha => ?_, ?_, ?_, fun a ha b hb => ?_, hheads, rfl,
    fun a ha => List.mem_cons_of_mem _ (hlp a ha), fun a ha => ?_, fun _ => rfl⟩
  · have ha' : Function.update (Function.update L.next e (some z)) x (some e) a = some n := ha
    rcases eq_or_ne a x with rfl | hax
    · rw [Function.update_self] at ha'
      exact absurd (Option.some.inj ha') he
    · rw [Function.update_of_ne hax] at ha'
      rcases eq_or_ne a e with rfl | hae
      · rw [Function.update_self] at ha'
        exact absurd (Option.some.inj ha').symm hnz
      · rwa [Function.update_of_ne hae] at ha'
  · show Function.update (Function.update L.prev e (some x)) z (some e) n = L.prev n
    rw [Function.update_of_ne hnz, Function.update_of_ne he.symm]
  · rw [List.mem_cons, not_or]
    exact ⟨he.symm, hout⟩
  · have hb' : Function.update (Function.update L.prev e (some x)) z (some e) a = some b := hb
    rcases eq_or_ne a z with rfl | haz
    · rw [Function.update_self] at hb'
      obtain rfl := Option.some.inj hb'
      exact List.mem_cons_self
    · rw [Function.update_of_ne haz] at hb'
      rcases eq_or_ne a e with rfl | hae
      · rw [Function.update_self] at hb'
        obtain rfl := Option.some.inj hb'
        exact List.mem_cons_of_mem _ hx
      · rw [Function.update_of_ne hae] at hb'
        have haW : a ∈ W := by
          rcases List.mem_cons.1 ha with h | h
          · exact absurd h hae
          · exact h
        exact List.mem_cons_of_mem _ (hclosed a haW b hb')
  · obtain rfl := Option.some.inj ha
    exact List.mem_cons_of_mem _ hx

theorem Spares.move {t : Loop H A} {W : List A} (hs : Apart s n p W) (hvar : s.var = some x)
    (hrun : moveCurrentBackwards s k = some t) : Spares s t n W := by
  have hx : x ∈ W := hs.var x hvar
  have hnx : n ≠ x := fun h => hs.out (h ▸ hx)
  have hcur : s.newPrev = some x := hs.cur.trans hvar
  obtain ⟨z, hz⟩ := Option.isSome_iff_exists.1 (hs.own (by rw [hvar]; rfl))
  unfold moveCurrentBackwards at hrun
  rw [hz, hcur] at hrun
  simp only [Option.bind_eq_bind, Option.bind_some] at hrun
  obtain ⟨u, hu, hres⟩ := Option.bind_eq_some_iff.1 hrun
  obtain rfl := Option.some.inj hres
  have hsp := Spares.removeCurrent hs hvar hu
  have hfirst := hsp.heads k
  refine ⟨fun a ha => ?_, ?_, hsp.out, fun a ha b hb => ?_, fun j hj => ?_, hsp.listHead,
    hsp.listPrev, hsp.newPrev, hsp.own⟩
  · dsimp only [insertHead] at ha
    rcases eq_or_ne a x with rfl | hax
    · rw [Function.update_self] at ha
      exact absurd ha hfirst
    · rw [Function.update_of_ne hax] at ha
      exact hsp.next a ha
  · dsimp only [insertHead]
    rw [Function.update_of_ne hnx, setAt_of_ne hfirst, hsp.prev]
  · dsimp only [insertHead] at hb
    rcases eq_or_ne a x with rfl | hax
    · rw [Function.update_self] at hb
      cases hb
    · rw [Function.update_of_ne hax, setAt_apply] at hb
      split at hb
      · obtain rfl := Option.some.inj hb
        exact hx
      · exact hsp.closed a ha b hb
  · dsimp only [insertHead] at hj
    rw [Function.update_apply] at hj
    split at hj
    · exact hnx (Option.some.inj hj).symm
    · exact hsp.heads j hj

theorem Spares.run {a : Action H A} {t : Loop H A} {W : List A} (hs : Apart s n p W)
    (hvar : s.var = some x) (he : ∀ e, a = .insert e → e ≠ n)
    (hrun : a.run .backwards s = some t) : ∃ W', Spares s t n W' := by
  cases a with
  | nothing =>
    obtain rfl := Option.some.inj hrun
    refine ⟨W, fun _ h => h, rfl, hs.out, hs.closed, hs.heads, rfl, hs.listPrev, ?_, fun _ => ?_⟩
    · rw [hs.cur]
      exact hs.var
    · rw [hs.cur, hvar]
      rfl
  | insert e => exact ⟨_, Spares.insert hs hvar (he e rfl) hrun⟩
  | remove => exact ⟨_, Spares.removeCurrent hs hvar hrun⟩
  | move k => exact ⟨_, Spares.move hs hvar hrun⟩

omit [DecidableEq H] [DecidableEq A] in
/-- **A round leaves it alone**, and so will the next. -/
theorem Apart.advance {t : Loop H A} {W W' : List A} (hs : Apart s n p W) (hsp : Spares s t n W') :
    Apart (traverseNext t .backwards) n p W' := by
  refine ⟨hsp.prev.trans hs.prev, hsp.out, hsp.closed, rfl, hsp.listPrev, fun a ha => ?_,
    hsp.newPrev, hsp.own, hsp.heads⟩
  obtain ⟨y, hy, hya⟩ := Option.bind_eq_some_iff.1 ha
  exact hsp.closed y (hsp.listPrev y hy) a hya

omit [DecidableEq A] in
theorem Action.Legal.ne {a : Action H A} {q : Place H A} {todo : List A}
    (ha : a.Legal (q.all .backwards h todo)) (hn : n ∈ q.passed) : ∀ e, a = .insert e → e ≠ n := by
  rintro e rfl rfl
  have he := ha h
  rw [Place.all, Function.update_self] at he
  exact he (List.mem_append_right _ hn)

omit [DecidableEq A] in
theorem Action.mem_step {a : Action H A} {q : Place H A} (hn : n ∈ q.passed) :
    n ∈ (a.step .backwards h q x).passed := by
  cases a with
  | nothing => simp [Action.step, Direction.join, hn]
  | insert e => simp [Action.step, Direction.join, hn]
  | remove => exact hn
  | move k =>
    rw [Action.step]
    split
    · exact hn
    · exact hn

omit [DecidableEq A] in
theorem mem_edits {actions : List (Action H A)} {q : Place H A} {todo : List A}
    (hn : n ∈ q.passed) : n ∈ edits .backwards h q todo actions h := by
  induction actions generalizing q todo with
  | nil =>
    rw [edits_nil, Place.all, Function.update_self]
    exact List.mem_append_right _ hn
  | cons a actions ih =>
    cases todo with
    | nil =>
      show n ∈ q.all .backwards h [] h
      rw [Place.all, Function.update_self]
      exact List.mem_append_right _ hn
    | cons x todo => exact ih (Action.mem_step hn)

/-- **A link that does not lead back is not mended** by a traversal. -/
theorem Apart.traverse {actions : List (Action H A)} {q : Place H A} {todo l W : List A}
    {t : Lists H A} (hs : Apart s n p W) (hnext : s.lists.next p ≠ some n) (hn : n ∈ q.passed)
    (hlegal : LegalActions .backwards s.listHead q todo actions)
    (hlen : actions.length = todo.length)
    (hrun : traverse .backwards actions s = some (l, t)) :
    t.prev n = some p ∧ t.next p ≠ some n := by
  induction actions generalizing s q todo l W with
  | nil =>
    cases hvar : s.var with
    | none =>
      unfold Dlinkedlists.traverse at hrun
      rw [hvar] at hrun
      obtain rfl : s.lists = t := congrArg Prod.snd (Option.some.inj hrun)
      exact ⟨hs.prev, hnext⟩
    | some x =>
      unfold Dlinkedlists.traverse at hrun
      rw [hvar] at hrun
      cases hrun
  | cons a actions ih =>
    cases hvar : s.var with
    | none =>
      unfold Dlinkedlists.traverse at hrun
      rw [hvar] at hrun
      obtain rfl : s.lists = t := congrArg Prod.snd (Option.some.inj hrun)
      exact ⟨hs.prev, hnext⟩
    | some x =>
      obtain _ | ⟨y, todo⟩ := todo
      · cases hlen
      · obtain ⟨ha, hrest⟩ := hlegal
        unfold Dlinkedlists.traverse at hrun
        rw [hvar] at hrun
        obtain ⟨u, hu, hrun⟩ := Option.bind_eq_some_iff.1 hrun
        obtain ⟨r, hr, hres⟩ := Option.bind_eq_some_iff.1 hrun
        obtain rfl : r.2 = t := congrArg Prod.snd (Option.some.inj hres)
        obtain ⟨W', hsp⟩ := Spares.run hs hvar (Action.Legal.ne ha hn) hu
        have hhead : (traverseNext u .backwards).listHead = s.listHead := hsp.listHead
        rw [← hhead] at hrest
        refine ih (hs.advance hsp) (fun h => hnext (hsp.next p h)) ?_ hrest (by simpa using hlen) hr
        exact Action.mem_step hn

theorem removeCurrent_next {t : Loop H A} (hcur : s.newPrev = some x) (hp : s.listPrev ≠ some x)
    (hrun : removeCurrent s = some t) : t.lists.next x = none := by
  obtain ⟨L, head, var, listNext, listPrev, newPrev⟩ := s
  obtain rfl : newPrev = some x := hcur
  cases listPrev with
  | none =>
    obtain rfl := Option.some.inj hrun
    exact Function.update_self ..
  | some q =>
    obtain rfl := Option.some.inj hrun
    have hxq : x ≠ q := fun h => hp (congrArg some h.symm)
    show Function.update (Function.update L.next x none) q listNext x = none
    rw [Function.update_of_ne hxq, Function.update_self]

/-- **An entry that is its own `__list_next`** and not left as it is: the entry
behind it leads to it, and it leads elsewhere. -/
theorem BackwardAt.breaks {a : Action H A} {t : Loop H A} {passed todo : List A}
    (hs : BackwardAt s m passed (x :: todo) true)
    (ha : a.Legal (Function.update m s.listHead ((x :: todo).reverse ++ passed)))
    (hne : a ≠ .nothing) (hrun : a.run .backwards s = some t) :
    ∃ n ∈ passed, ∃ W, Apart (traverseNext t .backwards) n x W ∧ t.listHead = s.listHead ∧
      t.lists.next x ≠ some n := by
  obtain ⟨n, S, rfl⟩ := List.exists_cons_of_ne_nil (hs.behind rfl)
  have hd := hs.lists.doubly s.listHead
  have hnd := hs.lists.nodup s.listHead
  rw [Function.update_self] at hd hnd
  have hlist : (x :: todo).reverse ++ n :: S = todo.reverse ++ x :: n :: S := by simp
  rw [hlist] at hd hnd
  have hx : x ∉ todo.reverse ++ n :: S := (List.nodup_cons.1 (List.nodup_middle.1 hnd)).1
  have hxn : x ≠ n := by
    rintro rfl
    exact hx (by simp)
  have hxt : x ∉ todo := fun h => hx (by simp [h])
  have hnt : n ∉ todo := by
    intro h
    exact (List.nodup_append.1 hnd).2.2 n (by simp [h]) n (by simp) rfl
  have hvar : s.var = some x := hs.var
  have hcur : s.newPrev = some x := hs.cur
  have hlp : s.listPrev = todo.head? := hs.prev
  have hnext : s.listNext = some x := hs.next (List.cons_ne_nil x todo)
  have hprevn : s.lists.prev n = some x := by
    have hlist' : todo.reverse ++ x :: n :: S = todo.reverse ++ [x] ++ n :: S := by simp
    rw [hlist'] at hd
    rw [hd.links.2, List.getLast?_concat]
  have hchain : ∃ w, Leads s.lists.prev w (x :: todo) none := by
    have hrev := hd.2
    have hsplit : (todo.reverse ++ x :: n :: S).reverse = (n :: S).reverse ++ (x :: todo) := by
      simp
    rw [hsplit] at hrev
    obtain ⟨w, -, hrest⟩ := leads_append.1 hrev
    exact ⟨w, hrest⟩
  obtain ⟨w, hchain⟩ := hchain
  have hheads : ∀ j, (s.lists.heads j).first ≠ some n := by
    intro j hj
    rw [(hs.lists.doubly j).first_eq] at hj
    rcases eq_or_ne j s.listHead with rfl | hjh
    · rw [Function.update_self, hlist, List.head?_append, List.head?_reverse] at hj
      cases hlast : todo.getLast? with
      | none =>
        rw [hlast] at hj
        exact hxn (Option.some.inj hj)
      | some y =>
        rw [hlast] at hj
        obtain rfl := Option.some.inj hj
        exact hnt (List.mem_of_getLast? hlast)
    · refine hjh (hs.lists.apart j s.listHead n (List.mem_of_mem_head? hj) ?_)
      rw [Function.update_self]
      simp
  have hApart : Apart s n x (x :: todo) := by
    refine ⟨hprevn, ?_, fun b hb c hc => hchain.closed hb hc, hcur.trans hvar.symm, ?_, ?_, ?_, ?_,
      hheads⟩
    · rw [List.mem_cons, not_or]
      exact ⟨hxn.symm, hnt⟩
    · intro b hb
      obtain rfl := Option.some.inj (hvar.symm.trans hb)
      exact List.mem_cons_self
    · intro b hb
      rw [hlp] at hb
      exact List.mem_cons_of_mem _ (List.mem_of_mem_head? hb)
    · intro b hb
      obtain rfl := Option.some.inj (hnext.symm.trans hb)
      exact List.mem_cons_self
    · intro _
      rw [hnext]
      rfl
  have he : ∀ e, a = .insert e → e ≠ n := by
    rintro e rfl rfl
    have he := ha s.listHead
    rw [Function.update_self] at he
    exact he (by simp)
  obtain ⟨W, hsp⟩ := Spares.run hApart hvar he hrun
  refine ⟨n, List.mem_cons_self, W, hApart.advance hsp, hsp.listHead, ?_⟩
  have hp : s.listPrev ≠ some x := by
    rw [hlp]
    exact fun h => hxt (List.mem_of_mem_head? h)
  cases a with
  | nothing => exact absurd rfl hne
  | insert e =>
    have hrun' : insertBeforeCurrentBackwards s e = some t := hrun
    unfold insertBeforeCurrentBackwards at hrun'
    rw [hnext, hcur] at hrun'
    obtain rfl := Option.some.inj hrun'
    show Function.update (Function.update s.lists.next e (some x)) x (some e) x ≠ some n
    rw [Function.update_self]
    exact fun h => he e rfl (Option.some.inj h)
  | remove =>
    rw [removeCurrent_next hcur hp hrun]
    simp
  | move k =>
    have hrun' : moveCurrentBackwards s k = some t := hrun
    unfold moveCurrentBackwards at hrun'
    rw [hnext, hcur] at hrun'
    simp only [Option.bind_eq_bind, Option.bind_some] at hrun'
    obtain ⟨u, hu, hres⟩ := Option.bind_eq_some_iff.1 hrun'
    obtain rfl := Option.some.inj hres
    show Function.update u.lists.next x (u.lists.heads k).first x ≠ some n
    rw [Function.update_self]
    exact (Spares.removeCurrent hApart hvar hu).heads k

/-! ## Where a backward traversal is safe -/

/-- **Where a backward traversal is safe.** `behind` says that an entry stands
behind the current one, and `own` that the current one is its own
`__list_next`: then the round does nothing. No entry is moved to the front of
its own list but the first. -/
def SafeFrom (h : H) (behind own : Bool) : List (Action H A) → Prop
  | [] => True
  | a :: actions => (own → a = .nothing) ∧ (a = .move h → actions = []) ∧
      SafeFrom h (behind || !a.leavesOwn true) (a.leavesOwn behind) actions

omit [DecidableEq A] in
theorem Action.isEmpty_step {a : Action H A} {q : Place H A} (ha : a ≠ .move h) :
    (!(a.step .backwards h q x).passed.isEmpty) = (!q.passed.isEmpty || !a.leavesOwn true) := by
  cases a with
  | nothing => simp [Action.step, Direction.join, Action.leavesOwn]
  | insert e => simp [Action.step, Direction.join, Action.leavesOwn]
  | remove => simp [Action.step, Action.leavesOwn]
  | move k =>
    have hk : k ≠ h := fun h => ha (h ▸ rfl)
    simp [Action.step, Action.leavesOwn, hk]

/-- A round that goes well, in order or with nothing done. -/
theorem BackwardAt.goes {a : Action H A} {q : Place H A} {todo : List A} {own : Bool}
    (hs : BackwardAt s q.lists q.passed (x :: todo) own) (hown : own → a = .nothing)
    (ha : a.Legal (Function.update q.lists s.listHead ((x :: todo).reverse ++ q.passed))) :
    ∃ t, a.run .backwards s = some t ∧ t.listHead = s.listHead ∧
      (a ≠ .move s.listHead → BackwardAt (traverseNext t .backwards)
        (a.step .backwards s.listHead q x).lists (a.step .backwards s.listHead q x).passed todo
        (a.leavesOwn !q.passed.isEmpty)) ∧
      (a = .move s.listHead → todo = [] →
        BackwardAt (traverseNext t .backwards) q.lists (x :: q.passed) [] false) ∧
      (a = .move s.listHead → todo ≠ [] →
        BackwardAt (traverseNext t .backwards) q.lists q.passed (todo ++ [x])
          !q.passed.isEmpty) := by
  cases own with
  | false => exact hs.round ha
  | true =>
    obtain rfl := hown rfl
    exact ⟨s, rfl, rfl, fun _ => hs.pause, by simp, by simp⟩

/-- **A backward traversal** makes the edits asked for exactly where it is
safe and no entry that it has met lies ahead. -/
theorem traverse_backwards_iff {actions : List (Action H A)} {q : Place H A} {todo : List A}
    {own : Bool} (hs : BackwardAt s q.lists q.passed (todo ++ q.ahead) own)
    (hlegal : LegalActions .backwards s.listHead q todo actions)
    (hlen : actions.length = todo.length) :
    (∃ t, traverse .backwards actions s = some (todo, t) ∧
        Represents t (edits .backwards s.listHead q todo actions)) ↔
      q.ahead = [] ∧ SafeFrom s.listHead (!q.passed.isEmpty) own actions := by
  induction todo generalizing s q actions own with
  | nil =>
    obtain rfl := List.length_eq_zero_iff.1 hlen
    have hvar : s.var = q.ahead.head? := hs.var
    cases hq : q.ahead with
    | nil =>
      rw [hq] at hvar
      refine ⟨fun _ => ⟨rfl, trivial⟩, fun _ => ⟨s.lists, ?_, ?_⟩⟩
      · unfold traverse
        rw [hvar]
        rfl
      · rw [edits_nil]
        exact hs.lists
    | cons y R =>
      rw [hq] at hvar
      constructor
      · rintro ⟨t, ht, -⟩
        unfold traverse at ht
        rw [hvar] at ht
        cases ht
      · rintro ⟨h, -⟩
        cases h
  | cons x todo ih =>
    obtain _ | ⟨a, actions⟩ := actions
    · cases hlen
    · obtain ⟨ha, hrest⟩ := hlegal
      have hlen' : actions.length = todo.length := by simpa using hlen
      have hs' : BackwardAt s q.lists q.passed (x :: (todo ++ q.ahead)) own := hs
      by_cases hown : own → a = .nothing
      · obtain ⟨t, hrun, hhead, hother, hlast, hself⟩ := hs'.goes hown ha
        have hhead' : (traverseNext t .backwards).listHead = s.listHead := hhead
        have hvisit : ∀ u, traverse .backwards (a :: actions) s = some (x :: todo, u) ↔
            traverse .backwards actions (traverseNext t .backwards) = some (todo, u) := by
          intro u
          rw [traverse_cons hs.var hrun]
          simp
        simp only [hvisit, edits]
        by_cases hmove : a = .move s.listHead
        · have hstep : a.step .backwards s.listHead q x = { q with ahead := q.ahead ++ [x] } := by
            rw [hmove, Action.step, if_pos rfl]
          by_cases htodo : todo ++ q.ahead = []
          · obtain ⟨rfl, hq⟩ := List.append_eq_nil_iff.1 htodo
            obtain rfl := List.length_eq_zero_iff.1 hlen'
            have hAt := hlast hmove htodo
            have hvar : (traverseNext t .backwards).var = none := hAt.var
            refine ⟨fun _ => ⟨hq, hown, fun _ => rfl, trivial⟩, fun _ => ⟨t.lists, ?_, ?_⟩⟩
            · unfold traverse
              rw [hvar]
              rfl
            · have hL := hAt.lists
              rw [hhead'] at hL
              rw [hstep, edits_nil, Place.all, hq]
              exact hL
          · have hAt : BackwardAt (traverseNext t .backwards) q.lists q.passed
                (todo ++ (q.ahead ++ [x])) !q.passed.isEmpty := by
              rw [← List.append_assoc]
              exact hself hmove htodo
            rw [hstep, ← hhead'] at hrest
            have hih := ih (q := { q with ahead := q.ahead ++ [x] }) hAt hrest hlen'
            rw [hhead'] at hih
            rw [hstep, hih]
            constructor
            · rintro ⟨h, -⟩
              simp at h
            · rintro ⟨hq, -, hsafe, -⟩
              rw [hsafe hmove] at hlen'
              rw [hq, List.append_nil] at htodo
              exact absurd (List.length_eq_zero_iff.1 hlen'.symm) htodo
        · have hahead := Action.step_ahead (d := .backwards) (q := q) (x := x) hmove
          have hAt := hother hmove
          rw [← hahead] at hAt
          rw [← hhead'] at hrest hAt
          have hih := ih hAt hrest hlen'
          rw [hhead'] at hih
          rw [hih, hahead, Action.isEmpty_step hmove]
          refine and_congr_right fun _ => ⟨fun h => ⟨hown, fun heq => absurd heq hmove, h⟩, ?_⟩
          exact fun h => h.2.2
      · constructor
        · rintro ⟨t, ht, hR⟩
          have howned : own = true := by
            by_contra h
            exact hown fun h' => absurd h' h
          have hne : a ≠ .nothing := fun h => hown fun _ => h
          subst howned
          unfold traverse at ht
          rw [hs.var] at ht
          obtain ⟨u, hu, ht⟩ := Option.bind_eq_some_iff.1 ht
          obtain ⟨r, hr, hres⟩ := Option.bind_eq_some_iff.1 ht
          obtain rfl : r.2 = t := congrArg Prod.snd (Option.some.inj hres)
          obtain ⟨n, hn, W, hApart, hhead, hnext⟩ := hs'.breaks ha hne hu
          have hhead' : (traverseNext u .backwards).listHead = s.listHead := hhead
          have hmem : n ∈ (a.step .backwards s.listHead q x).passed := Action.mem_step hn
          have hin : n ∈ edits .backwards s.listHead (a.step .backwards s.listHead q x) todo
              actions s.listHead := mem_edits hmem
          rw [← hhead'] at hrest
          have hmem' : n ∈ (a.step .backwards (traverseNext u .backwards).listHead q x).passed :=
            Action.mem_step hn
          obtain ⟨hprev, hnext'⟩ := hApart.traverse hnext hmem' hrest hlen' hr
          exact absurd ((hR.doubly s.listHead).next_of_prev hin hprev) hnext'
        · exact fun h => absurd h.2.1 hown

end Dlinkedlists

end Trismedia
