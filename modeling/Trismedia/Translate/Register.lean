import Trismedia.Linkedlists.Model
import Trismedia.Translate.Model
/-!
# The registration of a translator

`__tris_register_translator` of `main/translate.c`, from where it has the
lock: the new translator goes before the first one of the same formats that
costs more, and to the head of the list where there is none. The traversal
goes on after the insertion and reads the formats of the new translator,
whose pointer is null by then, so the insertion is to be at the last entry.
`rebuild_matrix`, which comes next, leaves the list as it is.
-/


namespace Trismedia

namespace Translate

open Linkedlists Links

variable {A : Type} [DecidableEq A]

/-- `TRIS_LIST_INSERT_HEAD` -/
def insertHead (next : A → Option A) (head : ListHead A) (elm : A) : (A → Option A) × ListHead A :=
  (Function.update next elm head.first,
    ⟨some elm, if head.last.isNone then some elm else head.last⟩)

/-- `u` translates between the formats of `t`, and costs more. -/
def Dearer (t u : Translator) : Prop :=
  u.srcfmt = t.srcfmt ∧ u.dstfmt = t.dstfmt ∧ u.cost > t.cost

instance (t u : Translator) : Decidable (Dearer t u) := inferInstanceAs (Decidable (_ ∧ _ ∧ _))

/-- The traversal, with the pointer `t`; there is no result where it is null
when it is read, or in fewer than `fuel` rounds. -/
def registerLoop (trans : A → Translator) : ℕ → Loop A → Option A → Option (Loop A × Option A)
  | 0, _, _ => none
  | fuel + 1, s, t =>
    match s.var with
    | none => some (s, t)
    | some u => do
      let e ← t
      if Dearer (trans e) (trans u) then
        registerLoop trans fuel (traverseSafeNext (insertBeforeCurrent s e)) none
      else registerLoop trans fuel (traverseSafeNext s) t

/-- `__tris_register_translator`, what it does with the list. -/
def trisRegisterTranslator (trans : A → Translator) (fuel : ℕ) (next : A → Option A)
    (head : ListHead A) (t : A) : Option ((A → Option A) × ListHead A) := do
  let (s, t) ← registerLoop trans fuel (traverseSafeBegin next head ⟨none, none⟩) (some t)
  match t with
  | some t => some (insertHead s.next s.head t)
  | none => some (s.next, s.head)

/-! ## The traversal -/

variable {trans : A → Translator} {s : Loop A} {P R : List A} {e x u : A} {fuel n : ℕ}

/-- A round at an entry that does not cost more passes it by. -/
theorem registerLoop_pass (h : At s P [] (x :: R) []) (hnew : s.newPrev = s.var)
    (hx : ¬Dearer (trans e) (trans x)) :
    registerLoop trans (n + 1) s (some e) =
        registerLoop trans n (traverseSafeNext s) (some e) ∧
      At (traverseSafeNext s) (P ++ [x]) [] R [] := by
  have hvar : s.var = some x := h.var
  have hlast : s.newPrev = (P ++ [x]).getLast? := by
    rw [hnew, hvar, List.getLast?_concat]
  refine ⟨?_, h.kept hlast (by simp)⟩
  rw [registerLoop, hvar]
  exact if_neg hx

/-- A round at one that costs more puts the new one before it. -/
theorem registerLoop_insert (h : At s P [] (x :: R) []) (he : e ∉ P ++ x :: R)
    (hx : Dearer (trans e) (trans x)) :
    ∃ s', registerLoop trans (n + 1) s (some e) = registerLoop trans n s' none ∧
      At s' (P ++ [e]) [x] R [] := by
  have hvar : s.var = some x := h.var
  obtain ⟨hat, hnew⟩ := h.insertBeforeCurrent (by simpa using he)
  have hlast : (insertBeforeCurrent s e).newPrev = (P ++ [e]).getLast? := by
    rw [hnew, List.getLast?_concat]
  refine ⟨_, ?_, hat.kept hlast (by simp)⟩
  rw [registerLoop, hvar]
  exact if_pos hx

/-- **With nothing that costs more** the list is left as it is. -/
theorem registerLoop_none (h : At s P [] R []) (hnew : s.newPrev = s.var)
    (hR : ∀ x ∈ R, ¬Dearer (trans e) (trans x)) (hfuel : R.length < fuel) :
    ∃ s', registerLoop trans fuel s (some e) = some (s', some e) ∧
      Holds s'.next s'.head (P ++ R) := by
  induction R generalizing s P fuel with
  | nil =>
    obtain ⟨k, rfl⟩ : ∃ k, fuel = k + 1 := ⟨fuel - 1, by omega⟩
    have hvar : s.var = none := h.var
    have hmain := h.main
    rw [List.append_nil] at hmain
    refine ⟨s, ?_, hmain⟩
    rw [registerLoop, hvar]
  | cons x R ih =>
    obtain ⟨k, rfl⟩ : ∃ k, fuel = k + 1 := ⟨fuel - 1, by omega⟩
    obtain ⟨hstep, hat⟩ := registerLoop_pass (n := k) h hnew (hR x List.mem_cons_self)
    have hk : R.length < k := by
      rw [List.length_cons] at hfuel
      omega
    obtain ⟨s', hs', hholds⟩ := ih hat rfl (fun y hy => hR y (List.mem_cons_of_mem x hy)) hk
    refine ⟨s', hstep.trans hs', ?_⟩
    rwa [List.append_assoc] at hholds

/-- **With a last one that costs more** the new one goes before it. -/
theorem registerLoop_last (h : At s P [] (R ++ [u]) []) (hnew : s.newPrev = s.var)
    (he : e ∉ P ++ (R ++ [u])) (hR : ∀ x ∈ R, ¬Dearer (trans e) (trans x))
    (hu : Dearer (trans e) (trans u)) (hfuel : R.length + 1 < fuel) :
    ∃ s', registerLoop trans fuel s (some e) = some (s', none) ∧
      Holds s'.next s'.head (P ++ R ++ [e, u]) := by
  induction R generalizing s P fuel with
  | nil =>
    obtain ⟨k, rfl⟩ : ∃ k, fuel = k + 2 := ⟨fuel - 2, by omega⟩
    obtain ⟨s', hs', hat⟩ := registerLoop_insert (n := k + 1) h he hu
    have hvar : s'.var = none := hat.var
    have hmain := hat.main
    refine ⟨s', hs'.trans ?_, ?_⟩
    · rw [registerLoop, hvar]
    · simpa using hmain
  | cons x R ih =>
    obtain ⟨k, rfl⟩ : ∃ k, fuel = k + 1 := ⟨fuel - 1, by omega⟩
    obtain ⟨hstep, hat⟩ := registerLoop_pass (n := k) h hnew (hR x List.mem_cons_self)
    have hk : R.length + 1 < k := by
      rw [List.length_cons] at hfuel
      omega
    obtain ⟨s', hs', hholds⟩ := ih hat rfl (by simpa using he)
      (fun y hy => hR y (List.mem_cons_of_mem x hy)) hk
    refine ⟨s', hstep.trans hs', ?_⟩
    rwa [List.append_assoc P [x] R] at hholds

/-- **With one before the last that costs more** the null pointer is read. -/
theorem registerLoop_null (h : At s P [] R []) (hnew : s.newPrev = s.var) (he : e ∉ P ++ R)
    (hu : ∃ u ∈ R.dropLast, Dearer (trans e) (trans u)) :
    registerLoop trans fuel s (some e) = none := by
  induction R generalizing s P fuel with
  | nil =>
    obtain ⟨u, hmem, -⟩ := hu
    exact absurd hmem List.not_mem_nil
  | cons x R ih =>
    obtain ⟨u, hmem, hu⟩ := hu
    cases R with
    | nil => exact absurd hmem List.not_mem_nil
    | cons y R =>
      rcases fuel with _ | k
      · rfl
      · by_cases hx : Dearer (trans e) (trans x)
        · obtain ⟨s', hs', hat⟩ := registerLoop_insert (n := k) h he hx
          rw [hs']
          have hvar : s'.var = some y := hat.var
          rcases k with _ | k
          · rfl
          · rw [registerLoop, hvar]
            rfl
        · obtain ⟨hstep, hat⟩ := registerLoop_pass (n := k) h hnew hx
          rw [hstep]
          refine ih hat rfl (by simpa using he) ⟨u, ?_, hu⟩
          rcases List.mem_cons.1 hmem with rfl | hmem
          · exact absurd hu hx
          · exact hmem

/-! ## The list -/

theorem Holds.insertHead {next : A → Option A} {head : ListHead A} {l : List A}
    (h : Holds next head l) (he : e ∉ l) :
    Holds (insertHead next head e).1 (insertHead next head e).2 (e :: l) := by
  refine ⟨⟨rfl, ?_⟩, ?_⟩
  · show Leads _ (Function.update next e head.first e) l none
    rw [Function.update_self]
    exact h.1.update he
  · show (if head.last.isNone then some e else head.last) = (e :: l).getLast?
    rw [h.2]
    cases l with
    | nil => rfl
    | cons x l =>
      rw [if_neg (by simp), List.getLast?_cons_cons]

/-- **What the registration is to do**: the new translator stands in the list
once, and before those of its formats that cost more, and the others stand as
they stood. -/
structure Registered (trans : A → Translator) (e : A) (l l' : List A) : Prop where
  once : l'.count e = 1
  others : l'.erase e = l
  before : ∀ u ∈ l, Dearer (trans e) (trans u) → [e, u].Sublist l'

theorem Registered.head {l : List A} (he : e ∉ l) (hl : ∀ u ∈ l, ¬Dearer (trans e) (trans u)) :
    Registered trans e l (e :: l) where
  once := by rw [List.count_cons_self, List.count_eq_zero_of_not_mem he]
  others := List.erase_cons_head e l
  before u hu hd := absurd hd (hl u hu)

theorem Registered.last (he : e ∉ R ++ [u]) (hR : ∀ x ∈ R, ¬Dearer (trans e) (trans x)) :
    Registered trans e (R ++ [u]) (R ++ [e, u]) where
  once := by
    have heR : e ∉ R := fun h => he (List.mem_append_left _ h)
    have heu : e ∉ [u] := fun h => he (List.mem_append_right _ h)
    rw [List.count_append, List.count_cons_self, List.count_eq_zero_of_not_mem heR,
      List.count_eq_zero_of_not_mem heu]
  others := by
    have heR : e ∉ R := fun h => he (List.mem_append_left _ h)
    rw [List.erase_append_right _ heR, List.erase_cons_head]
  before v hv hd := by
    rcases List.mem_append.1 hv with hv | hv
    · exact absurd hd (hR v hv)
    · rw [List.mem_singleton.1 hv]
      exact List.sublist_append_right R [e, u]

omit [DecidableEq A] in
/-- The entries in front of the last one do not cost more, and then the last
one does, or none does. -/
theorem dearer_cases {l : List A} (h : ∀ u ∈ l.dropLast, ¬Dearer (trans e) (trans u)) :
    (∀ u ∈ l, ¬Dearer (trans e) (trans u)) ∨
      ∃ R u, l = R ++ [u] ∧ (∀ x ∈ R, ¬Dearer (trans e) (trans x)) ∧ Dearer (trans e) (trans u) := by
  rcases List.eq_nil_or_concat' l with rfl | ⟨R, u, rfl⟩
  · exact Or.inl fun u hu => absurd hu List.not_mem_nil
  · rw [List.dropLast_concat] at h
    by_cases hu : Dearer (trans e) (trans u)
    · exact Or.inr ⟨R, u, rfl, h, hu⟩
    · refine Or.inl fun x hx => ?_
      rcases List.mem_append.1 hx with hx | hx
      · exact h x hx
      · rw [List.mem_singleton.1 hx]
        exact hu

/-- **A translator is registered as it is to be** exactly where no entry but
the last is of its formats and costs more. -/
theorem register_right_iff (trans : A → Translator) {next : A → Option A} {head : ListHead A}
    {l : List A} {t : A} (h : Holds next head l) (hnd : l.Nodup) (ht : t ∉ l) :
    (∃ fuel next' head' l', trisRegisterTranslator trans fuel next head t = some (next', head') ∧
        Holds next' head' l' ∧ Registered trans t l l') ↔
      ∀ u ∈ l.dropLast, ¬Dearer (trans t) (trans u) := by
  have hat : At (traverseSafeBegin next head ⟨none, none⟩) [] [] l [] :=
    At.begin h ⟨rfl, rfl⟩ (by rw [List.append_nil]; exact hnd)
  constructor
  · rintro ⟨fuel, next', head', l', hrun, -⟩ u hu hd
    have hnull : registerLoop trans fuel (traverseSafeBegin next head ⟨none, none⟩) (some t) =
        none := registerLoop_null hat rfl ht ⟨u, hu, hd⟩
    rw [trisRegisterTranslator, hnull] at hrun
    exact absurd hrun (Option.some_ne_none _).symm
  · intro hcond
    rcases dearer_cases hcond with hall | ⟨R, u, rfl, hR, hu⟩
    · obtain ⟨s', hs', hholds⟩ := registerLoop_none hat rfl hall (Nat.lt_succ_self l.length)
      refine ⟨l.length + 1, _, _, t :: l, ?_, Holds.insertHead hholds ht, Registered.head ht hall⟩
      rw [trisRegisterTranslator, hs']
      rfl
    · obtain ⟨s', hs', hholds⟩ := registerLoop_last hat rfl ht hR hu (Nat.lt_succ_self _)
      refine ⟨R.length + 2, s'.next, s'.head, R ++ [t, u], ?_, hholds, Registered.last ht hR⟩
      rw [trisRegisterTranslator, hs']
      rfl

/-- Translators from format 2 to 6: at address 0 the new one, at 1 and 2 one
that costs more. -/
def threeTranslators (a : ℕ) : Translator := ⟨2, 6, true, if a = 0 then 1 else 5⟩

/-- The list of the addresses 1 and 2. -/
def twoLinks (a : ℕ) : Option ℕ := if a = 1 then some 2 else none

/-- A translator that goes before the only one. -/
theorem register_right_iff_one :
    ∃ fuel next' head' l', trisRegisterTranslator threeTranslators fuel (fun _ => none)
      ⟨some 1, some 1⟩ 0 = some (next', head') ∧ Holds next' head' l' ∧
        Registered threeTranslators 0 [1] l' := by
  have hholds : Holds (fun _ : ℕ => none) ⟨some 1, some 1⟩ [1] := ⟨⟨rfl, rfl⟩, rfl⟩
  exact (register_right_iff threeTranslators hholds (by decide) (by decide)).2 (by decide)

/-- **Before the first of two it dereferences null.** -/
theorem not_register_right :
    ¬∀ (trans : ℕ → Translator) (next : ℕ → Option ℕ) (head : ListHead ℕ) (l : List ℕ) (t : ℕ),
      Holds next head l → l.Nodup → t ∉ l →
        ∃ fuel next' head' l', trisRegisterTranslator trans fuel next head t =
          some (next', head') ∧ Holds next' head' l' ∧ Registered trans t l l' := by
  intro h
  have hholds : Holds twoLinks ⟨some 1, some 2⟩ [1, 2] := ⟨⟨rfl, rfl, rfl⟩, rfl⟩
  have hat : At (traverseSafeBegin twoLinks ⟨some 1, some 2⟩ ⟨none, none⟩) [] [] [1, 2] [] :=
    At.begin hholds ⟨rfl, rfl⟩ (by decide)
  obtain ⟨fuel, next', head', l', hrun, -⟩ :=
    h threeTranslators twoLinks ⟨some 1, some 2⟩ [1, 2] 0 hholds (by decide) (by decide)
  have hnull : registerLoop threeTranslators fuel
      (traverseSafeBegin twoLinks ⟨some 1, some 2⟩ ⟨none, none⟩) (some 0) = none :=
    registerLoop_null hat rfl (by decide) ⟨1, by decide, by decide⟩
  rw [trisRegisterTranslator, hnull] at hrun
  exact absurd hrun (Option.some_ne_none _).symm

end Translate

end Trismedia
