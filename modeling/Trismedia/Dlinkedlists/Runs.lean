import Trismedia.Dlinkedlists.Forwards
/-!
# Programs of list operations

A program asks for the same operations on sequences of entries, and its links
are to be those of the sequences after each of its statements. That is so
exactly for the programs whose statements are `Safe`: no empty list is
appended to one that is not, no entry is moved within its own list by a
traversal that then meets it again, and no backward traversal does anything
to the entry after one that it took from before another.
-/


namespace Trismedia

namespace Dlinkedlists

variable {H A : Type} [DecidableEq H] [DecidableEq A] {s : Lists H A} {m : H → List A}

/-- The entries of a list as a traversal meets them. -/
def Direction.order (d : Direction) (l : List A) : List A :=
  match d with
  | .forwards => l
  | .backwards => l.reverse

/-- **A statement on sequences**: what it is to visit or to return, and what it
is to leave. -/
def Statement.asks (m : H → List A) : Statement H A → List A × (H → List A)
  | .insertHead head elm => ([], Function.update m head (elm :: m head))
  | .insertTail head elm => ([], Function.update m head (m head ++ [elm]))
  | .insertAfter head listelm elm => ([], Function.update m head
      ((m head).takeWhile (· ≠ listelm) ++ listelm :: elm ::
        ((m head).dropWhile (· ≠ listelm)).tail))
  | .insertBefore head listelm elm => ([], Function.update m head
      ((m head).takeWhile (· ≠ listelm) ++ elm :: (m head).dropWhile (· ≠ listelm)))
  | .appendDllist head list => ([], appended m head list)
  | .remove head elm => ([elm], Function.update m head ((m head).erase elm))
  | .removeHead head => ((m head).head?.toList, Function.update m head (m head).tail)
  | .traverse d head actions =>
    (d.order (m head), edits d head ⟨m, [], []⟩ (d.order (m head)) actions)

/-- The uses the macros are for: what is put in is new, what is named stands
in its list, and a list is appended to another one. A traversal has an action
for each entry. -/
def Statement.Legal (m : H → List A) : Statement H A → Prop
  | .insertHead _ elm | .insertTail _ elm => ∀ k, elm ∉ m k
  | .insertAfter head listelm elm | .insertBefore head listelm elm =>
    listelm ∈ m head ∧ ∀ k, elm ∉ m k
  | .appendDllist head list => head ≠ list
  | .remove head elm => elm ∈ m head
  | .removeHead _ => True
  | .traverse d head actions =>
    actions.length = (m head).length ∧ LegalActions d head ⟨m, [], []⟩ (d.order (m head)) actions

/-- **Where a statement is safe.** -/
def Statement.Safe (m : H → List A) : Statement H A → Prop
  | .appendDllist head list => m list = [] → m head = []
  | .traverse .forwards head actions => SafeForwards head actions
  | .traverse .backwards head actions => SafeFrom head false false actions
  | _ => True

omit [DecidableEq H] in
/-- A list cut at an entry of it. -/
theorem cut_at {l : List A} {x : A} (hx : x ∈ l) :
    ∃ P S, l = P ++ x :: S ∧ x ∉ P ∧ l.takeWhile (· ≠ x) = P ∧ l.dropWhile (· ≠ x) = x :: S := by
  induction l with
  | nil => cases hx
  | cons y l ih =>
    rcases eq_or_ne y x with rfl | hyx
    · exact ⟨[], l, rfl, List.not_mem_nil, by simp, by simp⟩
    · have hxl : x ∈ l := by
        rcases List.mem_cons.1 hx with rfl | h
        · exact absurd rfl hyx
        · exact h
      obtain ⟨P, S, rfl, hP, htake, hdrop⟩ := ih hxl
      refine ⟨y :: P, S, rfl, ?_, ?_, ?_⟩
      · rw [List.mem_cons, not_or]
        exact ⟨hyx.symm, hP⟩
      · rw [List.takeWhile_cons_of_pos (by simpa using hyx), htake]
      · rw [List.dropWhile_cons_of_pos (by simpa using hyx), hdrop]

/-- **One statement.** -/
theorem Statement.run_iff (c : Statement H A) (hs : Represents s m) (hc : c.Legal m) :
    (∃ t, c.run s = some ((c.asks m).1, t) ∧ Represents t (c.asks m).2) ↔ c.Safe m := by
  cases c with
  | insertHead head elm => exact ⟨fun _ => trivial, fun _ => ⟨_, rfl, insertHead_spec hs hc⟩⟩
  | insertTail head elm =>
    obtain ⟨t, ht, hR⟩ := insertTail_spec (h := head) hs hc
    refine ⟨fun _ => trivial, fun _ => ⟨t, ?_, hR⟩⟩
    rw [Statement.run, ht]
    rfl
  | insertAfter head listelm elm =>
    obtain ⟨P, S, hm, -, htake, hdrop⟩ := cut_at hc.1
    refine ⟨fun _ => trivial, fun _ => ⟨_, rfl, ?_⟩⟩
    simp only [Statement.asks, htake, hdrop, List.tail_cons]
    exact insertAfter_spec hs hm hc.2
  | insertBefore head listelm elm =>
    obtain ⟨P, S, hm, -, htake, hdrop⟩ := cut_at hc.1
    refine ⟨fun _ => trivial, fun _ => ⟨_, rfl, ?_⟩⟩
    simp only [Statement.asks, htake, hdrop]
    exact insertBefore_spec hs hm hc.2
  | appendDllist head list =>
    have happ := appendDllist_iff hs hc
    simp only [Statement.Safe, Statement.asks, Statement.run, ← happ, Option.map_eq_some_iff]
    constructor
    · rintro ⟨t, ⟨u, hu, heq⟩, hR⟩
      obtain rfl : u = t := congrArg Prod.snd heq
      exact ⟨u, hu, hR⟩
    · rintro ⟨t, ht, hR⟩
      exact ⟨t, ⟨t, ht, rfl⟩, hR⟩
  | remove head elm =>
    obtain ⟨P, S, hm, hP, -, -⟩ := cut_at hc
    obtain ⟨t, ht, hR⟩ := remove_spec hs hm
    refine ⟨fun _ => trivial, fun _ => ⟨t, ?_, ?_⟩⟩
    · rw [Statement.run, ht]
      rfl
    · simp only [Statement.asks]
      rw [hm, List.erase_append_right _ hP, List.erase_cons_head]
      exact hR
  | removeHead head =>
    obtain ⟨hcur, hR⟩ := removeHead_spec (h := head) hs
    refine ⟨fun _ => trivial, fun _ => ⟨_, ?_, hR⟩⟩
    simp only [Statement.run, Statement.asks, hcur]
  | traverse d head actions =>
    obtain ⟨hlen, hlegal⟩ := hc
    cases d with
    | forwards => exact traverse_forwards_iff (ForwardAt.begin hs) rfl hlegal hlen
    | backwards =>
      have hlen' : actions.length = (m head).reverse.length := by rw [hlen, List.length_reverse]
      have hAt := BackwardAt.begin (h := head) hs
      rw [← List.append_nil (m head).reverse] at hAt
      have hiff := traverse_backwards_iff (q := ⟨m, [], []⟩) hAt hlegal hlen'
      exact hiff.trans (and_iff_right rfl)

/-! ## Whole programs -/

/-- What a program is to visit or to return, and what it is to leave. -/
def asked : (H → List A) → List (Statement H A) → List (List A) × (H → List A)
  | m, [] => ([], m)
  | m, c :: cs => ((c.asks m).1 :: (asked (c.asks m).2 cs).1, (asked (c.asks m).2 cs).2)

def LegalProgram : (H → List A) → List (Statement H A) → Prop
  | _, [] => True
  | m, c :: cs => c.Legal m ∧ LegalProgram (c.asks m).2 cs

def SafeProgram : (H → List A) → List (Statement H A) → Prop
  | _, [] => True
  | m, c :: cs => c.Safe m ∧ SafeProgram (c.asks m).2 cs

/-- **What a program is to do**: after each of its statements no null has been
dereferenced, the traversals have visited what they were to visit, and the
links and heads are those of the sequences asked for. -/
def Correct (s : Lists H A) (m : H → List A) (prog : List (Statement H A)) : Prop :=
  ∀ pre, pre <+: prog →
    ∃ t, run pre s = some ((asked m pre).1, t) ∧ Represents t (asked m pre).2

theorem run_cons {c : Statement H A} {cs : List (Statement H A)} {o : List A} {t : Lists H A}
    (h : c.run s = some (o, t)) : run (c :: cs) s = (run cs t).map fun r => (o :: r.1, r.2) := by
  rw [run, h]
  cases hr : run cs t <;> simp [hr]

theorem run_single {c : Statement H A} {o : List A} {t : Lists H A} :
    run [c] s = some ([o], t) ↔ c.run s = some (o, t) := by
  constructor
  · intro h
    cases hc : c.run s with
    | none => simp [run, hc] at h
    | some r =>
      obtain ⟨o', t'⟩ := r
      rw [run_cons hc] at h
      simpa [run] using h
  · intro h
    rw [run_cons h]
    rfl

/-- **A program of list operations is correct exactly where it is safe**: no
empty list is appended to one that is not, no traversal moves an entry within
its own list where it meets it again, and in a backward traversal each round
after one that took out an entry with another behind it does nothing. -/
theorem correct_iff {prog : List (Statement H A)} (hs : Represents s m)
    (hlegal : LegalProgram m prog) : Correct s m prog ↔ SafeProgram m prog := by
  induction prog generalizing s m with
  | nil =>
    refine ⟨fun _ => trivial, fun _ pre hpre => ?_⟩
    obtain rfl := List.prefix_nil.1 hpre
    exact ⟨s, rfl, hs⟩
  | cons c cs ih =>
    obtain ⟨hc, hrest⟩ := hlegal
    constructor
    · intro h
      obtain ⟨t, ht, hR⟩ := h [c] ⟨cs, rfl⟩
      have hrun : c.run s = some ((c.asks m).1, t) := run_single.1 ht
      have htail : Correct t (c.asks m).2 cs := by
        intro pre hpre
        obtain ⟨u, hu, hRu⟩ := h (c :: pre) (List.cons_prefix_cons.2 ⟨rfl, hpre⟩)
        rw [run_cons hrun] at hu
        obtain ⟨r, hr, heq⟩ := Option.map_eq_some_iff.1 hu
        injection heq with hos hsu
        injection hos with _ hos
        refine ⟨u, ?_, hRu⟩
        rw [hr, ← hos, ← hsu]
      exact ⟨(c.run_iff hs hc).1 ⟨t, hrun, hR⟩, (ih hR hrest).1 htail⟩
    · rintro ⟨hsafe, hsafes⟩ pre hpre
      obtain ⟨t, ht, hR⟩ := (c.run_iff hs hc).2 hsafe
      cases pre with
      | nil => exact ⟨s, rfl, hs⟩
      | cons c' pre =>
        obtain ⟨rfl, htail⟩ := List.cons_prefix_cons.1 hpre
        obtain ⟨u, hu, hRu⟩ := (ih hR hrest).2 hsafes pre htail
        refine ⟨u, ?_, hRu⟩
        rw [run_cons ht, hu]
        rfl

/-! ## Three entries -/

/-- Two lists without an entry. -/
def noEntries : Lists Bool ℕ := ⟨fun _ => none, fun _ => none, fun _ => ⟨none, none⟩⟩

theorem noEntries_represents : Represents noEntries fun _ => [] := by
  refine ⟨fun _ => ⟨rfl, rfl⟩, fun _ => List.nodup_nil, fun _ _ a ha => ?_⟩
  cases ha

/-- Three entries put in a list and a backward traversal of them. -/
def threeEntries (actions : List (Action Bool ℕ)) : List (Statement Bool ℕ) :=
  [.insertTail false 1, .insertTail false 2, .insertTail false 3,
    .traverse .backwards false actions]

theorem threeEntries_legal {actions : List (Action Bool ℕ)} (hlen : actions.length = 3)
    (hactions : LegalActions .backwards false
      ⟨Function.update (Function.update (Function.update (fun _ => []) false [1]) false [1, 2])
        false [1, 2, 3], [], []⟩ [3, 2, 1] actions) :
    LegalProgram (fun _ => []) (threeEntries actions) := by
  refine ⟨fun k => List.not_mem_nil, ?_, ?_, ⟨hlen, hactions⟩, trivial⟩
  · rintro (_ | _) <;> decide
  · rintro (_ | _) <;> decide

/-- The entry in the middle is moved, and the round after does nothing. -/
theorem correct_move_backwards :
    Correct noEntries (fun _ => []) (threeEntries [.nothing, .move true, .nothing]) := by
  refine (correct_iff noEntries_represents (threeEntries_legal rfl ?_)).2 ?_
  · exact ⟨trivial, trivial, trivial, trivial⟩
  · simp [threeEntries, SafeProgram, Statement.Safe, SafeFrom, Action.leavesOwn]

/-- Two entries removed in rounds that follow one another: the second stays. -/
theorem not_correct_remove_backwards :
    ¬ Correct noEntries (fun _ => []) (threeEntries [.nothing, .remove, .remove]) := by
  intro h
  obtain ⟨t, ht, hR⟩ := h _ (List.prefix_refl _)
  have hfirst := congrArg (Option.map fun r => (r.2.heads false).first) ht
  have hrun : (run (threeEntries [.nothing, .remove, .remove]) noEntries).map
      (fun r => (r.2.heads false).first) = some (some 1) := by decide
  rw [hrun, Option.map_some, Option.some.injEq, (hR.doubly false).first_eq] at hfirst
  exact absurd hfirst (by decide)

end Dlinkedlists

end Trismedia
