import Mathlib.Data.List.Basic
import Mathlib.Data.List.Nodup
import Mathlib.Logic.Function.Basic
/-!
# Links from one cell to the next

A memory gives each cell a link. `Leads next p l q` says that who follows
the links from `p` passes exactly the cells of `l` and is then at `q`. A list
is edited by writing the links of the cells around the edit, so the file
says what two lists joined are, what a write elsewhere leaves alone, and
what a new link of the last cell does. `Doubly` is a list with links both
ways; it is two such lists, one of them read from its end. `Tailed` is a list
with a pointer to its last cell.
-/


namespace Links

variable {A : Type*}

/-- **From `p` the links lead through `l` to `q`.** -/
def Leads (next : A → Option A) : Option A → List A → Option A → Prop
  | p, [], q => p = q
  | p, a :: l, q => p = some a ∧ Leads next (next a) l q

variable {next next' : A → Option A} {p q m : Option A} {a b : A} {l l₁ l₂ : List A}

@[simp] theorem leads_nil : Leads next p [] q ↔ p = q := Iff.rfl

@[simp] theorem leads_cons : Leads next p (a :: l) q ↔ p = some a ∧ Leads next (next a) l q :=
  Iff.rfl

/-- **A list joined of two** passes the place where they meet. -/
theorem leads_append :
    Leads next p (l₁ ++ l₂) q ↔ ∃ m, Leads next p l₁ m ∧ Leads next m l₂ q := by
  induction l₁ generalizing p with
  | nil => simp
  | cons a l ih => simp only [List.cons_append, leads_cons, ih, and_assoc, exists_and_left]

/-- Only the links of its own cells are read. -/
theorem Leads.frame (h : Leads next p l q) (hag : ∀ a ∈ l, next' a = next a) :
    Leads next' p l q := by
  induction l generalizing p with
  | nil => exact h
  | cons a l ih =>
    refine ⟨h.1, ?_⟩
    rw [hag a List.mem_cons_self]
    exact ih h.2 fun b hb => hag b (List.mem_cons_of_mem _ hb)

theorem leads_snoc : Leads next p (l ++ [a]) q ↔ Leads next p l (some a) ∧ next a = q := by
  rw [leads_append]
  constructor
  · rintro ⟨m, hl, rfl, hq⟩
    exact ⟨hl, hq⟩
  · rintro ⟨hl, hq⟩
    exact ⟨_, hl, rfl, hq⟩

/-- There is one list to the end. -/
theorem Leads.unique (h : Leads next p l₁ none) (h' : Leads next p l₂ none) : l₁ = l₂ := by
  induction l₁ generalizing p l₂ with
  | nil =>
    cases l₂ with
    | nil => rfl
    | cons b l => exact absurd (h.symm.trans h'.1) (by simp)
  | cons a l ih =>
    cases l₂ with
    | nil => exact absurd (h.1.symm.trans h') (by simp)
    | cons b l' =>
      obtain rfl := Option.some.inj (h.1.symm.trans h'.1)
      rw [ih h.2 h'.2]

/-- The list starts where it is entered. -/
theorem Leads.head (h : Leads next p l q) : p = l.head?.or q := by
  cases l with
  | nil => exact h
  | cons a l => exact h.1

/-- The links of a list to the end do not lead out of it. -/
theorem Leads.closed (h : Leads next p l none) (ha : a ∈ l) (hb : next a = some b) : b ∈ l := by
  induction l generalizing p with
  | nil => cases ha
  | cons c l ih =>
    rcases List.mem_cons.1 ha with rfl | ha
    · have hhead := h.2.head
      rw [Option.or_none, hb] at hhead
      exact List.mem_cons_of_mem _ (List.mem_of_mem_head? hhead.symm)
    · exact List.mem_cons_of_mem _ (ih h.2 ha)

section Update

variable [DecidableEq A] {v : Option A}

theorem Leads.update (h : Leads next p l q) (ha : a ∉ l) :
    Leads (Function.update next a v) p l q := by
  refine h.frame fun b hb => Function.update_of_ne ?_ ..
  rintro rfl
  exact ha hb

/-- **The last cell is made to lead elsewhere.** -/
theorem Leads.relink (h : Leads next p (l ++ [a]) q) (ha : a ∉ l) :
    Leads (Function.update next a v) p (l ++ [a]) v := by
  rw [leads_snoc] at h ⊢
  exact ⟨h.1.update ha, Function.update_self ..⟩

/-- **Two lists are joined** by one link, whatever stood between them. -/
theorem Leads.join (h : Leads next p (l₁ ++ [a]) q) (h' : Leads next m l₂ v) (ha : a ∉ l₁ ++ l₂) :
    Leads (Function.update next a m) p (l₁ ++ [a] ++ l₂) v := by
  rw [List.mem_append, not_or] at ha
  exact leads_append.2 ⟨m, h.relink ha.1, h'.update ha.2⟩

end Update

/-- **A part of a list is exchanged** by one link into what takes its place. -/
theorem Leads.splice {P M N S : List A} {v : Option A} (h : Leads next p (P ++ (M ++ S)) q)
    (hP : ∀ a ∈ P, P.getLast? ≠ some a → next' a = next a)
    (hlast : ∀ a, P.getLast? = some a → next' a = v) (hS : ∀ a ∈ S, next' a = next a)
    (hN : Leads next' v N (S.head?.or q)) (hnd : P.Nodup) :
    Leads next' (if P.isEmpty then v else p) (P ++ (N ++ S)) q := by
  obtain ⟨m, hPm, hMS⟩ := leads_append.1 h
  obtain ⟨m', -, hS'⟩ := leads_append.1 hMS
  have hrest : Leads next' v (N ++ S) q := by
    refine leads_append.2 ⟨_, hN, ?_⟩
    rw [← hS'.head]
    exact hS'.frame hS
  rcases List.eq_nil_or_concat' P with rfl | ⟨P, z, rfl⟩
  · exact hrest
  · have hz : z ∉ P := fun hz => (List.nodup_append.1 hnd).2.2 z hz z (by simp) rfl
    have hhead : (if (P ++ [z]).isEmpty then v else p) = p := by simp
    rw [hhead]
    refine leads_append.2 ⟨v, leads_snoc.2 ⟨?_, hlast z (by simp)⟩, hrest⟩
    refine (leads_snoc.1 hPm).1.frame fun a ha => hP a (by simp [ha]) ?_
    rw [List.getLast?_concat]
    rintro hza
    exact hz (Option.some.inj hza ▸ ha)

/-! ## Lists with links both ways -/

/-- **A list with links both ways.** -/
def Doubly (next prev : A → Option A) (first last : Option A) (l : List A) : Prop :=
  Leads next first l none ∧ Leads prev last l.reverse none

variable {prev prev' : A → Option A} {first last : Option A} {P S : List A} {e x : A}

/-- Only the links of its own cells are read. -/
theorem Doubly.frame (h : Doubly next prev first last l)
    (hag : ∀ a ∈ l, next' a = next a ∧ prev' a = prev a) : Doubly next' prev' first last l :=
  ⟨h.1.frame fun a ha => (hag a ha).1, h.2.frame fun a ha => (hag a (List.mem_reverse.1 ha)).2⟩

theorem Doubly.first_eq (h : Doubly next prev first last l) : first = l.head? := by
  have hf := h.1.head
  rwa [Option.or_none] at hf

theorem Doubly.last_eq (h : Doubly next prev first last l) : last = l.getLast? := by
  have hl := h.2.head
  rwa [Option.or_none, List.head?_reverse] at hl

/-- The links of a cell lead to its neighbours. -/
theorem Doubly.links (h : Doubly next prev first last (P ++ x :: S)) :
    next x = S.head? ∧ prev x = P.getLast? := by
  constructor
  · obtain ⟨m, -, -, hS⟩ := leads_append.1 h.1
    have hn := hS.head
    rwa [Option.or_none] at hn
  · have hrev := h.2
    rw [List.reverse_append, List.reverse_cons, List.append_assoc, List.singleton_append] at hrev
    obtain ⟨m, -, -, hP⟩ := leads_append.1 hrev
    have hp := hP.head
    rwa [Option.or_none, List.head?_reverse] at hp

/-- **The links are mutually inverse.** -/
theorem Doubly.next_of_prev (h : Doubly next prev first last l) (ha : a ∈ l)
    (hprev : prev a = some b) : next b = some a := by
  obtain ⟨P, S, rfl⟩ := List.append_of_mem ha
  rcases List.eq_nil_or_concat' P with rfl | ⟨P, z, rfl⟩
  · cases h.links.2.symm.trans hprev
  · rw [h.links.2, List.getLast?_concat] at hprev
    obtain rfl := Option.some.inj hprev
    rw [List.append_assoc] at h
    exact h.links.1

section Edits

variable [DecidableEq A]

omit [DecidableEq A] in
theorem notMem_right_of_getLast? (hnd : (P ++ S).Nodup) (ha : a ∈ S) : P.getLast? ≠ some a :=
  fun hlast => (List.nodup_append.1 hnd).2.2 a (List.mem_of_getLast? hlast) a ha rfl

theorem Leads.insert (h : Leads next p (P ++ S) none) (hnd : (P ++ S).Nodup) (he : e ∉ P ++ S)
    (hnext : ∀ a ∈ P ++ e :: S, next' a =
      if a = e then S.head? else if P.getLast? = some a then some e else next a) :
    Leads next' (if P.isEmpty then some e else p) (P ++ e :: S) none := by
  have hne : ∀ a ∈ P ++ S, a ≠ e := by
    rintro a ha rfl
    exact he ha
  have hold : ∀ a ∈ P ++ S, next' a = if P.getLast? = some a then some e else next a := by
    intro a ha
    rw [hnext a (by simp only [List.mem_append, List.mem_cons] at ha ⊢; tauto), if_neg (hne a ha)]
  refine Leads.splice (M := []) (N := [e]) h ?_ ?_ ?_ ⟨rfl, ?_⟩ (List.nodup_append.1 hnd).1
  · intro a ha hlast
    rw [hold a (List.mem_append_left _ ha), if_neg hlast]
  · intro a hlast
    rw [hold a (List.mem_append_left _ (List.mem_of_getLast? hlast)), if_pos hlast]
  · intro a ha
    rw [hold a (List.mem_append_right _ ha), if_neg (notMem_right_of_getLast? hnd ha)]
  · rw [hnext e (by simp), if_pos rfl, Option.or_none]
    rfl

theorem Leads.erase (h : Leads next p (P ++ x :: S) none) (hnd : (P ++ S).Nodup)
    (hnext : ∀ a ∈ P ++ S, next' a = if P.getLast? = some a then S.head? else next a) :
    Leads next' (if P.isEmpty then S.head? else p) (P ++ S) none := by
  refine Leads.splice (M := [x]) (N := []) h ?_ ?_ ?_ ?_ (List.nodup_append.1 hnd).1
  · intro a ha hlast
    rw [hnext a (List.mem_append_left _ ha), if_neg hlast]
  · intro a hlast
    rw [hnext a (List.mem_append_left _ (List.mem_of_getLast? hlast)), if_pos hlast]
  · intro a ha
    rw [hnext a (List.mem_append_right _ ha), if_neg (notMem_right_of_getLast? hnd ha)]
  · rw [Option.or_none]
    rfl

/-- **A cell put in.** -/
theorem Doubly.insert (h : Doubly next prev first last (P ++ S)) (hnd : (P ++ S).Nodup)
    (he : e ∉ P ++ S)
    (hnext : ∀ a ∈ P ++ e :: S, next' a =
      if a = e then S.head? else if P.getLast? = some a then some e else next a)
    (hprev : ∀ a ∈ P ++ e :: S, prev' a =
      if a = e then P.getLast? else if S.head? = some a then some e else prev a) :
    Doubly next' prev' (if P.isEmpty then some e else first) (if S.isEmpty then some e else last)
      (P ++ e :: S) := by
  refine ⟨h.1.insert hnd he hnext, ?_⟩
  have hrev := h.2
  rw [List.reverse_append] at hrev
  have hins : Leads prev' (if S.reverse.isEmpty then some e else last)
      (S.reverse ++ e :: P.reverse) none :=
    Leads.insert hrev (by rwa [← List.reverse_append, List.nodup_reverse])
      (by rwa [← List.reverse_append, List.mem_reverse]) ?_
  · rw [List.isEmpty_reverse] at hins
    simpa using hins
  · intro a ha
    rw [List.head?_reverse, List.getLast?_reverse]
    refine hprev a ?_
    simp only [List.mem_append, List.mem_cons, List.mem_reverse] at ha ⊢
    tauto

/-- **A cell taken out.** -/
theorem Doubly.erase (h : Doubly next prev first last (P ++ x :: S)) (hnd : (P ++ S).Nodup)
    (hnext : ∀ a ∈ P ++ S, next' a = if P.getLast? = some a then S.head? else next a)
    (hprev : ∀ a ∈ P ++ S, prev' a = if S.head? = some a then P.getLast? else prev a) :
    Doubly next' prev' (if P.isEmpty then S.head? else first)
      (if S.isEmpty then P.getLast? else last) (P ++ S) := by
  refine ⟨h.1.erase hnd hnext, ?_⟩
  have hrev := h.2
  rw [List.reverse_append, List.reverse_cons, List.append_assoc, List.singleton_append] at hrev
  have hers : Leads prev' (if S.reverse.isEmpty then P.reverse.head? else last)
      (S.reverse ++ P.reverse) none :=
    Leads.erase hrev (by rwa [← List.reverse_append, List.nodup_reverse]) ?_
  · rw [List.isEmpty_reverse, List.head?_reverse] at hers
    rwa [List.reverse_append]
  · intro a ha
    rw [List.head?_reverse, List.getLast?_reverse]
    refine hprev a ?_
    simp only [List.mem_append, List.mem_reverse] at ha ⊢
    tauto

end Edits

end Links
