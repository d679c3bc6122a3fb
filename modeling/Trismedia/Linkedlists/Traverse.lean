import Trismedia.Linkedlists.Model
/-!
# What a safe traversal leaves of a list

`Passed` is the account of a traversal without memory: what the macros keep
in either list, round by round, and `traverse_eq` says that they do just
that. `Edited` is what the blocks ask for. The two agree to the end exactly
where they agree after each round, since nothing that a round has lost or
put in the wrong place is mended later, and `SafeFrom` says which rounds
keep them together.
-/


namespace Trismedia

namespace Linkedlists

open Links

variable {A : Type} {s : Loop A} {R : List A} {x : A}

/-! ## The account of the macros -/

/-- What a traversal has made of the two lists: the entries closed, those
behind them, and the other list. -/
structure Passed (A : Type) where
  front : List A
  behind : List A
  other : List A

/-- One round. The last entry inserted stands first and is the one that
`__new_prev` names. -/
def Passed.round (p : Passed A) (x : A) (b : Body A) : Passed A :=
  match b.inserted.reverse, b.fate with
  | [], .keep => ⟨p.front ++ p.behind ++ [x], [], p.other⟩
  | e :: es, .keep => ⟨p.front ++ [e], es ++ p.behind ++ [x], p.other⟩
  | _, .remove => ⟨p.front, [], p.other⟩
  | [], .move => ⟨p.front, [], p.other ++ [x]⟩
  | e :: _, .move => ⟨p.front, [], p.other ++ [e]⟩

variable [DecidableEq A]

/-- **The macros do one round of the account.** -/
theorem At.round {p : Passed A} {b : Body A} (h : At s p.front p.behind (x :: R) p.other)
    (hnew : s.newPrev = some x) (hnd : b.inserted.Nodup)
    (hes : ∀ e ∈ b.inserted, e ∉ p.front ++ p.behind ++ x :: R ++ p.other) :
    ∃ t, b.run s = some t ∧ At (traverseSafeNext t) (p.round x b).front (p.round x b).behind R
      (p.round x b).other := by
  obtain ⟨es, fate⟩ := b
  obtain ⟨hAt, hnew'⟩ := h.insertAll hnd hes hnew
  simp only [Passed.round, Body.run]
  rw [← List.head?_reverse] at hnew'
  cases hrev : es.reverse with
  | nil =>
    rw [hrev] at hAt hnew'
    cases fate with
    | keep => exact ⟨_, rfl, hAt.kept (by rw [List.getLast?_concat]; exact hnew') (by simp)⟩
    | remove => exact (hAt.removed hnew' (by simp)).1
    | move => exact (hAt.removed hnew' (by simp)).2
  | cons e rs =>
    rw [hrev] at hAt hnew'
    cases fate with
    | keep => exact ⟨_, rfl, hAt.kept (by rw [List.getLast?_concat]; exact hnew') (by simp)⟩
    | remove => exact (hAt.removed hnew' (by simp)).1
    | move => exact (hAt.removed hnew' (by simp)).2

/-! ## The edits asked for -/

/-- The two lists as the blocks ask for them: the entries kept and inserted so
far, and the other list. -/
structure Edited (A : Type) where
  kept : List A
  moved : List A

/-- A round inserts before its entry, and keeps it, removes it or moves it. -/
def Edited.round (q : Edited A) (x : A) (b : Body A) : Edited A :=
  ⟨q.kept ++ b.inserted ++ (if b.fate = .keep then [x] else []),
    q.moved ++ if b.fate = .move then [x] else []⟩

def Edited.run (q : Edited A) : List A → List (Body A) → Edited A
  | x :: l, b :: bs => (q.round x b).run l bs
  | _, _ => q

def Passed.run (p : Passed A) : List A → List (Body A) → Passed A
  | x :: l, b :: bs => (p.round x b).run l bs
  | _, _ => p

/-- Each entry inserted is new: it stands in neither list. -/
def NewEntries (q : Edited A) : List A → List (Body A) → Prop
  | x :: l, b :: bs => b.inserted.Nodup ∧
      (∀ e ∈ b.inserted, e ∉ q.kept ++ (x :: l) ++ q.moved) ∧ NewEntries (q.round x b) l bs
  | _, _ => True

instance (q : Edited A) : ∀ l bs, Decidable (NewEntries q l bs)
  | [], _ => inferInstanceAs (Decidable True)
  | _ :: _, [] => inferInstanceAs (Decidable True)
  | x :: l, b :: bs =>
    have := instDecidableNewEntries (q.round x b) l bs
    inferInstanceAs (Decidable (_ ∧ _ ∧ _))

/-- What the macros keep is kept by the blocks too, in one list or the
other. -/
def Passed.Within (p : Passed A) (q : Edited A) : Prop :=
  ∀ a ∈ p.front ++ p.behind ++ p.other, a ∈ q.kept ++ q.moved

omit [DecidableEq A] in
theorem Passed.Within.round {p : Passed A} {q : Edited A} (h : p.Within q) (x : A) (b : Body A) :
    (p.round x b).Within (q.round x b) := by
  obtain ⟨es, fate⟩ := b
  have hes : ∀ a, a ∈ es ↔ a ∈ es.reverse := fun a => List.mem_reverse.symm
  intro a ha
  have hq := h a
  simp only [Passed.round, Edited.round, List.mem_append] at ha hq ⊢
  rw [hes]
  cases hrev : es.reverse <;> cases fate <;> simp_all <;> tauto

/-- **The macros do what the account says**, whatever the blocks: the
traversal visits each entry once, dereferences no null and leaves the two
lists of `Passed.run`. -/
theorem traverse_eq {p : Passed A} {q : Edited A} {l : List A} {bodies : List (Body A)}
    (h : At s p.front p.behind l p.other) (hnew : s.newPrev = s.var) (hwithin : p.Within q)
    (hfresh : NewEntries q l bodies) (hlen : bodies.length = l.length) :
    ∃ t, traverse bodies s = some (l, t) ∧
      Holds t.next t.head ((p.run l bodies).front ++ (p.run l bodies).behind) ∧
      Holds t.next t.newhead (p.run l bodies).other := by
  induction l generalizing s p q bodies with
  | nil =>
    obtain rfl := List.length_eq_zero_iff.1 hlen
    have hvar : s.var = none := h.var
    have hmain := h.main
    rw [List.append_nil] at hmain
    refine ⟨s, ?_, hmain, h.other⟩
    unfold traverse
    rw [hvar]
  | cons x l ih =>
    obtain _ | ⟨b, bs⟩ := bodies
    · cases hlen
    · obtain ⟨hnd, hes, hrest⟩ := hfresh
      have hvar : s.var = some x := h.var
      have hes' : ∀ e ∈ b.inserted, e ∉ p.front ++ p.behind ++ x :: l ++ p.other := by
        intro e he hmem
        have hold := hes e he
        have hq := hwithin e
        simp only [List.mem_append] at hmem hold hq
        tauto
      obtain ⟨u, hrun, hAt⟩ := h.round (hnew.trans hvar) hnd hes'
      obtain ⟨t, ht, hmain, hother⟩ := ih hAt rfl (hwithin.round x b) hrest (by simpa using hlen)
      refine ⟨t, ?_, hmain, hother⟩
      unfold traverse
      simp only [hvar, hrun, ht, Option.bind_eq_bind, Option.bind_some]
      rfl

/-! ## Where the edits are made -/

/-- **Where a traversal is safe.** A round inserts at most one entry, and if
it does it keeps its own; `fresh` says that the round before inserted
nothing, and only then may the round insert, remove or move. -/
def SafeFrom (fresh : Prop) : List (Body A) → Prop
  | [] => True
  | b :: bs => (b.inserted = [] ∧ b.fate = .keep ∨
      fresh ∧ (b.inserted = [] ∨ b.inserted.length = 1 ∧ b.fate = .keep)) ∧
        SafeFrom (b.inserted = []) bs

/-- The account is that of the edits so far. -/
def Passed.Agrees (p : Passed A) (q : Edited A) : Prop :=
  p.front ++ p.behind = q.kept ∧ p.other = q.moved

omit [DecidableEq A] in
/-- New entries put in front one by one stand where they belong only if there
is one of them and nothing before it. -/
theorem reverse_append_eq_iff {es Q : List A} (hnd : es.Nodup) (hQ : ∀ e ∈ es, e ∉ Q) :
    es.reverse ++ Q = Q ++ es ↔ es = [] ∨ Q = [] ∧ es.length = 1 := by
  constructor
  · intro h
    rcases es with _ | ⟨a, es⟩
    · exact .inl rfl
    · refine .inr ?_
      rcases Q with _ | ⟨y, Q⟩
      · refine ⟨rfl, ?_⟩
        rcases List.eq_nil_or_concat' es with rfl | ⟨es, z, rfl⟩
        · rfl
        · have hlast := congrArg List.getLast? h
          rw [List.append_nil, List.reverse_cons, List.getLast?_concat, List.nil_append,
            ← List.cons_append, List.getLast?_concat, Option.some.injEq] at hlast
          subst hlast
          simp at hnd
      · have hhead := congrArg List.head? h
        rw [List.reverse_cons, List.cons_append, List.head?_cons, List.head?_append] at hhead
        obtain ⟨z, hz⟩ : ∃ z, (es.reverse ++ [a]).head? = some z := by cases es.reverse <;> simp
        have hzmem : z ∈ a :: es := by
          have hm := List.mem_of_mem_head? hz
          simpa [or_comm] using hm
        rw [hz] at hhead
        obtain rfl := Option.some.inj hhead
        exact absurd List.mem_cons_self (hQ z hzmem)
  · rintro (rfl | ⟨rfl, hlen⟩)
    · rw [List.reverse_nil, List.nil_append, List.append_nil]
    · obtain ⟨a, rfl⟩ := List.length_eq_one_iff.1 hlen
      rfl

omit [DecidableEq A] in
/-- **One round**: the entries kept are those asked for under the condition
of `SafeFrom` only. -/
theorem Passed.Agrees.round_iff {p : Passed A} {q : Edited A} {b : Body A} (h : p.Agrees q)
    (hnd : b.inserted.Nodup) (hes : ∀ e ∈ b.inserted, e ∉ p.behind) :
    (p.round x b).front ++ (p.round x b).behind = (q.round x b).kept ↔
      b.inserted = [] ∧ b.fate = .keep ∨
        p.behind = [] ∧ (b.inserted = [] ∨ b.inserted.length = 1 ∧ b.fate = .keep) := by
  obtain ⟨es, fate⟩ := b
  have hrev := reverse_append_eq_iff hnd hes
  simp only [Edited.round, Passed.round, ← h.1] at hnd hes hrev ⊢
  cases hr : es.reverse with
  | nil =>
    obtain rfl : es = [] := List.reverse_eq_nil_iff.1 hr
    cases fate <;> simp
  | cons e rs =>
    have hne : es ≠ [] := by
      rintro rfl
      cases hr
    rw [hr] at hrev
    cases fate with
    | keep =>
      have hkeep : e :: (rs ++ p.behind) ++ [x] = p.behind ++ es ++ [x] ↔
          e :: (rs ++ p.behind) = p.behind ++ es := List.append_left_inj [x]
      have hone : e :: (rs ++ p.behind) = p.behind ++ es ↔ p.behind = [] ∧ es.length = 1 := by
        simpa [hne] using hrev
      rw [hone] at hkeep
      simp only [List.cons_append, List.append_assoc] at hkeep
      simp [hkeep, hne]
    | remove => simp [hne]
    | move => simp [hne]

omit [DecidableEq A] in
/-- The macros keep no more than the blocks. -/
theorem Passed.length_round (p : Passed A) (x : A) (b : Body A) :
    ((p.round x b).front ++ (p.round x b).behind).length ≤
      (p.front ++ p.behind).length + b.inserted.length +
        (if b.fate = .keep then [x] else []).length := by
  obtain ⟨es, fate⟩ := b
  have hlen : es.reverse.length = es.length := List.length_reverse
  simp only [Passed.round, ← hlen]
  cases es.reverse <;> cases fate <;> simp <;> omega

omit [DecidableEq A] in
theorem Passed.Agrees.round_other {p : Passed A} {q : Edited A} {b : Body A} (h : p.Agrees q)
    (hb : b.inserted = [] ∨ b.fate = .keep) : (p.round x b).other = (q.round x b).moved := by
  obtain ⟨es, fate⟩ := b
  simp only [Edited.round, Passed.round, ← h.2] at hb ⊢
  cases hr : es.reverse with
  | nil => cases fate <;> simp
  | cons e rs =>
    have hne : es ≠ [] := by
      rintro rfl
      cases hr
    obtain rfl := hb.resolve_left hne
    simp

omit [DecidableEq A] in
theorem Passed.behind_round {p : Passed A} {b : Body A}
    (hb : b.inserted = [] ∨ b.fate = .keep) : (p.round x b).behind = [] ↔ b.inserted = [] := by
  obtain ⟨es, fate⟩ := b
  simp only [Passed.round] at hb ⊢
  cases hr : es.reverse with
  | nil =>
    obtain rfl : es = [] := List.reverse_eq_nil_iff.1 hr
    cases fate <;> simp
  | cons e rs =>
    have hne : es ≠ [] := by
      rintro rfl
      cases hr
    obtain rfl := hb.resolve_left hne
    simp [hne]

variable {S : A → Bool}

omit [DecidableEq A] in
/-- Of the old entries nothing comes back and nothing changes places. -/
theorem Passed.filter_round (p : Passed A) {b : Body A} (hx : S x = false)
    (hb : ∀ e ∈ b.inserted, S e = false) :
    (((p.round x b).front ++ (p.round x b).behind).filter S).Sublist
      ((p.front ++ p.behind).filter S) := by
  obtain ⟨es, fate⟩ := b
  have hrev : ∀ e ∈ es.reverse, S e = false := fun e he => hb e (List.mem_reverse.1 he)
  simp only [Passed.round]
  cases hr : es.reverse with
  | nil => cases fate <;> simp [hx]
  | cons e rs =>
    rw [hr] at hrev
    have hrs : rs.filter S = [] :=
      List.filter_eq_nil_iff.2 fun a ha => by simp [hrev a (List.mem_cons_of_mem _ ha)]
    cases fate <;> simp [hx, hrs, hrev e]

omit [DecidableEq A] in
theorem Edited.filter_round (q : Edited A) {b : Body A} (hx : S x = false)
    (hb : ∀ e ∈ b.inserted, S e = false) : (q.round x b).kept.filter S = q.kept.filter S := by
  have hes : b.inserted.filter S = [] :=
    List.filter_eq_nil_iff.2 fun a ha => by simp [hb a ha]
  simp only [Edited.round]
  split <;> simp [hes, hx]

omit [DecidableEq A] in
theorem filter_run {p : Passed A} {q : Edited A} {l : List A} {bodies : List (Body A)}
    (hfresh : NewEntries q l bodies) (hold : ∀ a, S a → a ∈ q.kept) (hl : ∀ a ∈ l, S a = false) :
    (((p.run l bodies).front ++ (p.run l bodies).behind).filter S).Sublist
        ((p.front ++ p.behind).filter S) ∧
      (q.run l bodies).kept.filter S = q.kept.filter S := by
  induction l generalizing p q bodies with
  | nil => exact ⟨List.Sublist.refl _, rfl⟩
  | cons x l ih =>
    cases bodies with
    | nil => exact ⟨List.Sublist.refl _, rfl⟩
    | cons b bs =>
      obtain ⟨-, hes, hrest⟩ := hfresh
      have hx := hl x List.mem_cons_self
      have hb : ∀ e ∈ b.inserted, S e = false := by
        intro e he
        by_contra hS
        exact hes e he (by simp [hold e (by simpa using hS)])
      have hold' : ∀ a, S a → a ∈ (q.round x b).kept := by
        intro a ha
        simp [Edited.round, hold a ha]
      obtain ⟨hp, hq⟩ := ih (p := p.round x b) hrest hold'
        fun a ha => hl a (List.mem_cons_of_mem _ ha)
      exact ⟨hp.trans (p.filter_round hx hb), hq.trans (q.filter_round hx hb)⟩

omit [DecidableEq A] in
/-- What differs after a round differs at the end. -/
theorem agrees_of_run [DecidableEq A] {p : Passed A} {q : Edited A} {l : List A}
    {bodies : List (Body A)} (hfresh : NewEntries q l bodies) (hl : ∀ a ∈ l, a ∉ q.kept)
    (hlen : (p.front ++ p.behind).length ≤ q.kept.length)
    (h : (p.run l bodies).front ++ (p.run l bodies).behind = (q.run l bodies).kept) :
    p.front ++ p.behind = q.kept := by
  obtain ⟨hp, hq⟩ := filter_run (S := fun a => decide (a ∈ q.kept)) (p := p) hfresh
    (fun a ha => of_decide_eq_true ha) (fun a ha => decide_eq_false (hl a ha))
  rw [h, hq] at hp
  have hall : q.kept.filter (fun a => decide (a ∈ q.kept)) = q.kept :=
    List.filter_eq_self.2 fun a ha => decide_eq_true ha
  rw [hall] at hp
  have hsub : q.kept.Sublist (p.front ++ p.behind) := hp.trans List.filter_sublist
  exact (hsub.eq_of_length_le hlen).symm

/-- **A whole traversal** makes the edits asked for exactly where each of its
rounds does. -/
theorem run_agrees_iff {p : Passed A} {q : Edited A} {l : List A} {bodies : List (Body A)}
    (h : p.Agrees q) (hfresh : NewEntries q l bodies) (hnd : l.Nodup)
    (hl : ∀ a ∈ l, a ∉ q.kept) (hlen : bodies.length = l.length) :
    (p.run l bodies).Agrees (q.run l bodies) ↔ SafeFrom (p.behind = []) bodies := by
  induction l generalizing p q bodies with
  | nil =>
    obtain rfl := List.length_eq_zero_iff.1 hlen
    exact ⟨fun _ => trivial, fun _ => h⟩
  | cons x l ih =>
    obtain _ | ⟨b, bs⟩ := bodies
    · cases hlen
    · obtain ⟨hins, hes, hrest⟩ := hfresh
      rw [List.nodup_cons] at hnd
      have hbehind : ∀ e ∈ b.inserted, e ∉ p.behind := by
        intro e he hmem
        refine hes e he ?_
        rw [← h.1]
        simp [hmem]
      have hl' : ∀ a ∈ l, a ∉ (q.round x b).kept := by
        intro a ha hmem
        simp only [Edited.round, List.mem_append] at hmem
        rcases hmem with (hk | he) | hx
        · exact hl a (List.mem_cons_of_mem _ ha) hk
        · exact hes a he (by simp [ha])
        · have hax : a = x := by
            split at hx
            · simpa using hx
            · cases hx
          exact hnd.1 (hax ▸ ha)
      have hround := h.round_iff (x := x) hins hbehind
      constructor
      · intro hrun
        have hlength : ((p.round x b).front ++ (p.round x b).behind).length ≤
            (q.round x b).kept.length := by
          have hp := p.length_round x b
          rw [h.1] at hp
          simpa only [Edited.round, List.length_append] using hp
        have hcond := hround.1 (agrees_of_run hrest hl' hlength hrun.1)
        have hsafe : b.inserted = [] ∨ b.fate = .keep := by tauto
        have hagree : (p.round x b).Agrees (q.round x b) :=
          ⟨hround.2 hcond, h.round_other hsafe⟩
        have hih := (ih hagree hrest hnd.2 hl' (by simpa using hlen)).1 hrun
        rw [Passed.behind_round hsafe] at hih
        exact ⟨hcond, hih⟩
      · rintro ⟨hcond, hsafe⟩
        have hb : b.inserted = [] ∨ b.fate = .keep := by tauto
        have hagree : (p.round x b).Agrees (q.round x b) := ⟨hround.2 hcond, h.round_other hb⟩
        rw [← Passed.behind_round (p := p) (x := x) hb] at hsafe
        exact (ih hagree hrest hnd.2 hl' (by simpa using hlen)).2 hsafe

/-! ## The traversal -/

/-- **What a traversal is to do** with the lists `l` and `o`: each entry of `l`
is visited once, and the lists left are those the blocks ask for. -/
def TraversedAs (next : A → Option A) (head newhead : ListHead A) (l o : List A)
    (bodies : List (Body A)) : Prop :=
  ∃ t, traverse bodies (traverseSafeBegin next head newhead) = some (l, t) ∧
    Holds t.next t.head (Edited.run ⟨[], o⟩ l bodies).kept ∧
    Holds t.next t.newhead (Edited.run ⟨[], o⟩ l bodies).moved

/-- **A safe traversal makes the edits asked for exactly where** each round
inserts one entry at most, none if it removes or moves its own, and does
nothing if the round before inserted one. -/
theorem traversedAs_iff {next : A → Option A} {head newhead : ListHead A} {l o : List A}
    {bodies : List (Body A)} (hl : Holds next head l) (ho : Holds next newhead o)
    (hnd : (l ++ o).Nodup) (hnew : NewEntries ⟨[], o⟩ l bodies)
    (hlen : bodies.length = l.length) :
    TraversedAs next head newhead l o bodies ↔ SafeFrom True bodies := by
  have hwithin : (Passed.mk [] [] o).Within ⟨[], o⟩ := fun a ha => ha
  obtain ⟨t, ht, hmain, hother⟩ := traverse_eq (p := ⟨[], [], o⟩) (At.begin hl ho hnd) rfl
    hwithin hnew hlen
  have hagree : (Passed.mk [] [] o).Agrees ⟨[], o⟩ := ⟨rfl, rfl⟩
  have hrun := run_agrees_iff hagree hnew (List.nodup_append.1 hnd).1 (by simp) hlen
  rw [show ((Passed.mk [] [] o).behind = []) = True from eq_true rfl] at hrun
  rw [← hrun]
  constructor
  · rintro ⟨t', ht', hmain', hother'⟩
    obtain rfl : t = t' := by
      rw [ht] at ht'
      injection ht' with h
      injection h
    exact ⟨hmain.1.unique hmain'.1, hother.1.unique hother'.1⟩
  · intro h
    exact ⟨t, ht, h.1 ▸ hmain, h.2 ▸ hother⟩

/-- The links of the list `[1, 2]`, the entries that begin at `10` being
free. -/
def twoEntries : ℕ → Option ℕ := fun a => if a = 1 then some 2 else none

/-- An entry is inserted before the first of two. -/
theorem traversedAs_insert :
    TraversedAs twoEntries ⟨some 1, some 2⟩ ⟨none, none⟩ [1, 2] []
      [⟨[10], .keep⟩, ⟨[], .keep⟩] := by
  refine (traversedAs_iff ?_ ?_ (by decide) (by decide) rfl).2 (by simp [SafeFrom])
  · exact ⟨⟨rfl, rfl, rfl⟩, rfl⟩
  · exact ⟨rfl, rfl⟩

/-- The entry inserted before one that is then removed is lost. -/
theorem not_traversedAs_insert_remove :
    ¬ TraversedAs twoEntries ⟨some 1, some 2⟩ ⟨none, none⟩ [1, 2] []
      [⟨[10], .remove⟩, ⟨[], .keep⟩] := by
  rintro ⟨t, ht, hmain, -⟩
  have hfirst := congrArg (Option.map fun r => r.2.head.first) ht
  have hrun : (traverse [⟨[10], .remove⟩, ⟨[], .keep⟩]
      (traverseSafeBegin twoEntries ⟨some 1, some 2⟩ ⟨none, none⟩)).map (fun r => r.2.head.first) =
      some (some 2) := by decide
  rw [hrun] at hfirst
  have hten := hmain.1.1
  rw [Option.map_some, Option.some.injEq] at hfirst
  exact absurd (hfirst.trans hten) (by decide)

end Linkedlists

end Trismedia
