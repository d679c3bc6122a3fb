import Trismedia.Common.Leads
import Trismedia.Dlinkedlists.Model
/-!
# What the operations make of the lists

`Represents` ties the links and the heads to one sequence of entries for each
list. An entry is put in or taken out by writing the links of its two
neighbours, or a head where there is none; `Represents.insert` and
`Represents.erase` say so for links given entry by entry, and each macro is
an instance of them.
-/


namespace Trismedia

namespace Dlinkedlists

open Dll Links

variable {H A : Type} {s t : Lists H A} {m : H → List A} {h k : H} {P S : List A} {a e x : A}

/-- **The lists are the sequences `m`**: of each the links are inverse to one
another and the heads are its ends, and no entry stands twice. -/
structure Represents (s : Lists H A) (m : H → List A) : Prop where
  doubly : ∀ h, Doubly s.next s.prev (s.heads h).first (s.heads h).last (m h)
  nodup : ∀ h, (m h).Nodup
  apart : ∀ h k, ∀ a ∈ m h, a ∈ m k → h = k

variable [DecidableEq H] [DecidableEq A]

/-- **An entry put in** between `P` and `S`. -/
theorem Represents.insert (hs : Represents s m) (hm : m h = P ++ S) (he : ∀ k, e ∉ m k)
    (hnext : ∀ a, t.next a =
      if a = e then S.head? else if P.getLast? = some a then some e else s.next a)
    (hprev : ∀ a, t.prev a =
      if a = e then P.getLast? else if S.head? = some a then some e else s.prev a)
    (hheads : t.heads = Function.update s.heads h
      ⟨if P.isEmpty then some e else (s.heads h).first,
        if S.isEmpty then some e else (s.heads h).last⟩) :
    Represents t (Function.update m h (P ++ e :: S)) := by
  have hd := hs.doubly h
  have hnd := hs.nodup h
  have heh := he h
  rw [hm] at hd hnd heh
  refine ⟨fun k => ?_, fun k => ?_, fun k k' a ha ha' => ?_⟩
  · rcases eq_or_ne k h with rfl | hk
    · rw [Function.update_self, hheads, Function.update_self]
      exact hd.insert hnd heh (fun a _ => hnext a) fun a _ => hprev a
    · rw [Function.update_of_ne hk, hheads, Function.update_of_ne hk]
      refine (hs.doubly k).frame fun a ha => ?_
      have hae : a ≠ e := by
        rintro rfl
        exact he k ha
      have hah : a ∉ m h := fun hah => hk (hs.apart k h a ha hah)
      rw [hm, List.mem_append, not_or] at hah
      have hP : P.getLast? ≠ some a := fun hl => hah.1 (List.mem_of_getLast? hl)
      have hS : S.head? ≠ some a := fun hl => hah.2 (List.mem_of_mem_head? hl)
      rw [hnext, hprev, if_neg hae, if_neg hae, if_neg hP, if_neg hS]
      exact ⟨rfl, rfl⟩
  · rcases eq_or_ne k h with rfl | hk
    · rw [Function.update_self, List.nodup_middle, List.nodup_cons]
      exact ⟨heh, hnd⟩
    · rw [Function.update_of_ne hk]
      exact hs.nodup k
  · have hback : ∀ j, a ∈ Function.update m h (P ++ e :: S) j → a ∈ m j ∨ a = e ∧ j = h := by
      intro j hj
      rcases eq_or_ne j h with rfl | hjh
      · rw [Function.update_self] at hj
        rw [hm]
        simp only [List.mem_append, List.mem_cons] at hj ⊢
        tauto
      · rw [Function.update_of_ne hjh] at hj
        exact .inl hj
    rcases hback k ha with hk | ⟨rfl, rfl⟩
    · rcases hback k' ha' with hk' | ⟨rfl, rfl⟩
      · exact hs.apart k k' a hk hk'
      · exact absurd hk (he k)
    · rcases hback k' ha' with hk' | ⟨-, rfl⟩
      · exact absurd hk' (he k')
      · rfl

/-- **An entry taken out** from between `P` and `S`; its own links may be
anything. -/
theorem Represents.erase (hs : Represents s m) (hm : m h = P ++ x :: S)
    (hnext : ∀ a, a ≠ x → t.next a = if P.getLast? = some a then S.head? else s.next a)
    (hprev : ∀ a, a ≠ x → t.prev a = if S.head? = some a then P.getLast? else s.prev a)
    (hheads : t.heads = Function.update s.heads h
      ⟨if P.isEmpty then S.head? else (s.heads h).first,
        if S.isEmpty then P.getLast? else (s.heads h).last⟩) :
    Represents t (Function.update m h (P ++ S)) := by
  have hd := hs.doubly h
  have hnd := hs.nodup h
  rw [hm] at hd hnd
  rw [List.nodup_middle, List.nodup_cons] at hnd
  have hne : ∀ a ∈ P ++ S, a ≠ x := by
    rintro a ha rfl
    exact hnd.1 ha
  have hsub : ∀ j, ∀ a ∈ Function.update m h (P ++ S) j, a ∈ m j := by
    intro j a ha
    rcases eq_or_ne j h with rfl | hj
    · rw [Function.update_self] at ha
      rw [hm]
      simp only [List.mem_append, List.mem_cons] at ha ⊢
      tauto
    · rwa [Function.update_of_ne hj] at ha
  refine ⟨fun k => ?_, fun k => ?_, fun k k' a ha ha' => hs.apart k k' a (hsub k a ha) (hsub k' a ha')⟩
  · rcases eq_or_ne k h with rfl | hk
    · rw [Function.update_self, hheads, Function.update_self]
      exact hd.erase hnd.2 (fun a ha => hnext a (hne a ha)) fun a ha => hprev a (hne a ha)
    · rw [Function.update_of_ne hk, hheads, Function.update_of_ne hk]
      refine (hs.doubly k).frame fun a ha => ?_
      have hah : a ∉ m h := fun hah => hk (hs.apart k h a ha hah)
      rw [hm, List.mem_append, List.mem_cons, not_or, not_or] at hah
      have hP : P.getLast? ≠ some a := fun hl => hah.1 (List.mem_of_getLast? hl)
      have hS : S.head? ≠ some a := fun hl => hah.2.2 (List.mem_of_mem_head? hl)
      rw [hnext a hah.2.1, hprev a hah.2.1, if_neg hP, if_neg hS]
      exact ⟨rfl, rfl⟩
  · rcases eq_or_ne k h with rfl | hk
    · rw [Function.update_self]
      exact hnd.2
    · rw [Function.update_of_ne hk]
      exact hs.nodup k

/-! ## The operations -/

omit [DecidableEq H] [DecidableEq A] in
theorem getLast?_eq_iff (hnd : (P ++ x :: S).Nodup) :
    (P ++ x :: S).getLast? = some x ↔ S = [] := by
  rw [List.nodup_middle, List.nodup_cons, List.mem_append, not_or] at hnd
  cases S with
  | nil => simp
  | cons y S =>
    rw [List.getLast?_append, List.getLast?_cons_cons, List.getLast?_cons, Option.some_or]
    constructor
    · intro h
      refine absurd (List.mem_of_getLast? (l := y :: S) ?_) hnd.1.2
      rw [List.getLast?_cons, h]
    · intro h
      cases h

omit [DecidableEq H] [DecidableEq A] in
theorem head?_eq_iff (hnd : (P ++ x :: S).Nodup) : (P ++ x :: S).head? = some x ↔ P = [] := by
  rw [List.nodup_middle, List.nodup_cons, List.mem_append, not_or] at hnd
  cases P with
  | nil => simp
  | cons y P =>
    have hyx : y ≠ x := by
      rintro rfl
      exact hnd.1.1 List.mem_cons_self
    simp [hyx]

omit [DecidableEq H] in
theorem setAt_apply {B : Type} (f : A → B) (p : Option A) (v : B) (a : A) :
    setAt f p v a = if p = some a then v else f a := by
  cases p with
  | none => rfl
  | some b =>
    rw [setAt, Function.update_apply]
    rcases eq_or_ne a b with rfl | hab
    · rw [if_pos rfl, if_pos rfl]
    · rw [if_neg hab, if_neg fun h => hab (Option.some.inj h).symm]

theorem insertHead_spec (hs : Represents s m) (he : ∀ k, e ∉ m k) :
    Represents (insertHead s h e) (Function.update m h (e :: m h)) := by
  have hfirst := (hs.doubly h).first_eq
  have hlast := (hs.doubly h).last_eq
  refine hs.insert (P := []) (S := m h) rfl he (fun a => ?_) (fun a => ?_) ?_
  · simp [insertHead, Function.update_apply, hfirst]
  · simp [insertHead, Function.update_apply, setAt_apply, hfirst]
  · rw [insertHead, hlast]
    cases m h <;> simp

theorem insertTail_spec (hs : Represents s m) (he : ∀ k, e ∉ m k) :
    ∃ t, insertTail s h e = some t ∧ Represents t (Function.update m h (m h ++ [e])) := by
  have hfirst := (hs.doubly h).first_eq
  have hlast := (hs.doubly h).last_eq
  rcases List.eq_nil_or_concat' (m h) with hm | ⟨l, z, hm⟩
  · rw [hm] at hfirst hlast
    refine ⟨_, by rw [insertTail, hfirst]; rfl, ?_⟩
    refine hs.insert (P := m h) (S := []) (List.append_nil _).symm he (fun a => ?_)
      (fun a => ?_) ?_
    · simp [Function.update_apply, hm]
    · simp [Function.update_apply, hm]
    · simp [hm]
  · have hze : z ≠ e := by
      rintro rfl
      exact he h (by simp [hm])
    rw [hm, List.getLast?_concat] at hlast
    obtain ⟨y, hy⟩ : ∃ y, (s.heads h).first = some y := by
      rw [hfirst, hm]
      cases l <;> exact ⟨_, rfl⟩
    refine ⟨_, by rw [insertTail, hy, hlast]; rfl, ?_⟩
    refine hs.insert (P := m h) (S := []) (List.append_nil _).symm he (fun a => ?_)
      (fun a => ?_) ?_
    · rcases eq_or_ne a e with rfl | hae
      · simp
      · simp [Function.update_apply, hm, hae, eq_comm]
    · simp [Function.update_apply, hm]
    · simp [hm, hy]

theorem insertAfter_spec (hs : Represents s m) (hm : m h = P ++ x :: S) (he : ∀ k, e ∉ m k) :
    Represents (insertAfter s h x e) (Function.update m h (P ++ x :: e :: S)) := by
  have hd := hs.doubly h
  have hnd := hs.nodup h
  have heh := he h
  rw [hm] at hd hnd heh
  have hx : x ≠ e := by
    rintro rfl
    exact heh (by simp)
  have hSe : S.head? ≠ some e := fun hS => heh (by simp [List.mem_of_mem_head? hS])
  have hlast : (s.heads h).last = some x ↔ S = [] := by
    rw [hd.last_eq]
    exact getLast?_eq_iff hnd
  have hins := hs.insert (t := insertAfter s h x e) (P := P ++ [x]) (S := S) (by simpa using hm)
    he (fun a => ?_) (fun a => ?_) ?_
  · simpa using hins
  · rcases eq_or_ne a e with rfl | hae
    · simp [insertAfter, Function.update_apply, hx.symm, hd.links.1]
    · simp [insertAfter, Function.update_apply, hae, eq_comm]
  · rcases eq_or_ne a e with rfl | hae
    · simp [insertAfter, setAt_apply, hx, hd.links.1, hSe]
    · simp [insertAfter, setAt_apply, hae, hx, hd.links.1]
  · cases S with
    | nil => simp [insertAfter, hlast.2]
    | cons y S =>
      have hne : (s.heads h).last ≠ some x := fun heq => by cases hlast.1 heq
      simp [insertAfter, hne]

theorem insertBefore_spec (hs : Represents s m) (hm : m h = P ++ x :: S) (he : ∀ k, e ∉ m k) :
    Represents (insertBefore s h x e) (Function.update m h (P ++ e :: x :: S)) := by
  have hd := hs.doubly h
  have hnd := hs.nodup h
  have heh := he h
  rw [hm] at hd hnd heh
  have hx : x ≠ e := by
    rintro rfl
    exact heh (by simp)
  have hPe : P.getLast? ≠ some e := fun hP => heh (by simp [List.mem_of_getLast? hP])
  have hfirst : (s.heads h).first = some x ↔ P = [] := by
    rw [hd.first_eq]
    exact head?_eq_iff hnd
  refine hs.insert hm he (fun a => ?_) (fun a => ?_) ?_
  · rcases eq_or_ne a e with rfl | hae
    · simp [insertBefore, setAt_apply, hx, hd.links.2, hPe]
    · simp [insertBefore, setAt_apply, hae, hx, hd.links.2]
  · rcases eq_or_ne a e with rfl | hae
    · simp [insertBefore, Function.update_apply, hx.symm, hd.links.2]
    · simp [insertBefore, Function.update_apply, hae, eq_comm]
  · cases P with
    | nil => simp [insertBefore, hfirst.2]
    | cons y P =>
      have hne : (s.heads h).first ≠ some x := fun heq => by cases hfirst.1 heq
      simp [insertBefore, hne]

theorem remove_spec (hs : Represents s m) (hm : m h = P ++ x :: S) :
    ∃ t, remove s h x = some t ∧ Represents t (Function.update m h (P ++ S)) := by
  have hd := hs.doubly h
  have hnd := hs.nodup h
  rw [hm] at hd hnd
  obtain ⟨hnext, hprev⟩ := hd.links
  have hlast : (s.heads h).last = some x ↔ S = [] := by
    rw [hd.last_eq]
    exact getLast?_eq_iff hnd
  have hfirst : (s.heads h).first = some x ↔ P = [] := by
    rw [hd.first_eq]
    exact head?_eq_iff hnd
  rcases List.eq_nil_or_concat' P with rfl | ⟨P, p, rfl⟩
  · refine ⟨_, by rw [remove, if_pos (hfirst.2 rfl)]; rfl, ?_⟩
    refine hs.erase hm (fun a ha => ?_) (fun a ha => ?_) ?_
    · simp [ha]
    · simp [ha, setAt_apply, hnext]
    · cases S with
      | nil => simp [hlast.2, hnext]
      | cons y S =>
        have hne : (s.heads h).last ≠ some x := fun heq => by cases hlast.1 heq
        simp [hne, hnext]
  · have hmid := List.nodup_cons.1 (List.nodup_middle.1 hnd)
    have hpx : p ≠ x := by
      rintro rfl
      exact hmid.1 (by simp)
    have hSx : S.head? ≠ some x := fun hS => hmid.1 (by simp [List.mem_of_mem_head? hS])
    have hne : (s.heads h).first ≠ some x := fun heq => by simpa using hfirst.1 heq
    rw [List.getLast?_concat] at hprev
    refine ⟨_, by rw [remove, if_neg hne, hprev]; rfl, ?_⟩
    refine hs.erase hm (fun a ha => ?_) (fun a ha => ?_) ?_
    · simp [Function.update_apply, ha, hnext, eq_comm]
    · simp [setAt_apply, ha, hnext, hpx.symm]
    · cases S with
      | nil => simp [hlast.2, hnext, hprev, Function.update_of_ne hpx.symm]
      | cons y S =>
        have hne : (s.heads h).last ≠ some x := fun heq => by cases hlast.1 heq
        simp [hne]

theorem removeHead_spec (hs : Represents s m) :
    (removeHead s h).1 = (m h).head? ∧
      Represents (removeHead s h).2 (Function.update m h (m h).tail) := by
  have hd := hs.doubly h
  have hnd := hs.nodup h
  cases hm : m h with
  | nil =>
    have hfirst : (s.heads h).first = none := by rw [hd.first_eq, hm]; rfl
    have hsame : Function.update m h [].tail = m := by
      rw [List.tail_nil, ← hm, Function.update_eq_self]
    rw [removeHead, hfirst, hsame]
    exact ⟨rfl, hs⟩
  | cons x S =>
    rw [hm] at hd hnd
    have hnext : s.next x = S.head? := (Doubly.links (P := []) hd).1
    have hfirst : (s.heads h).first = some x := hd.first_eq
    have hlast : (s.heads h).last = some x ↔ S = [] := by
      rw [hd.last_eq]
      exact getLast?_eq_iff (P := []) hnd
    rw [removeHead, hfirst]
    refine ⟨rfl, hs.erase (P := []) hm (fun a ha => ?_) (fun a ha => ?_) ?_⟩
    · simp [ha]
    · simp [setAt_apply, hnext]
    · cases S with
      | nil => simp [hlast.2, hnext]
      | cons y S =>
        have hne : (s.heads h).last ≠ some x := fun heq => by cases hlast.1 heq
        simp [hne, hnext]

/-- The lists as sequences, the second appended to the first. -/
def appended (m : H → List A) (h k : H) : H → List A :=
  Function.update (Function.update m h (m h ++ m k)) k []

omit [DecidableEq A] in
/-- The sequences of an appended list have the entries of the two. -/
theorem mem_appended (hhk : h ≠ k) (j : H) :
    a ∈ appended m h k j ↔ j ≠ k ∧ (a ∈ m j ∨ j = h ∧ a ∈ m k) := by
  unfold appended
  rcases eq_or_ne j k with rfl | hjk
  · simp
  · rw [Function.update_of_ne hjk]
    rcases eq_or_ne j h with rfl | hjh
    · simp [hjk]
    · simp [hjk, hjh]

omit [DecidableEq A] in
/-- **What an append makes of the lists**, whatever it writes. -/
theorem Represents.append (hs : Represents s m) (hhk : h ≠ k)
    (hd : Doubly t.next t.prev (t.heads h).first (t.heads h).last (m h ++ m k))
    (hk : t.heads k = ⟨none, none⟩) (hheads : ∀ j, j ≠ h → j ≠ k → t.heads j = s.heads j)
    (hlinks : ∀ a, a ∉ m h → a ∉ m k → t.next a = s.next a ∧ t.prev a = s.prev a) :
    Represents t (appended m h k) := by
  refine ⟨fun j => ?_, fun j => ?_, fun i j a hi hj => ?_⟩
  · unfold appended
    rcases eq_or_ne j k with rfl | hjk
    · rw [Function.update_self, hk]
      exact ⟨rfl, rfl⟩
    · rw [Function.update_of_ne hjk]
      rcases eq_or_ne j h with rfl | hjh
      · rwa [Function.update_self]
      · rw [Function.update_of_ne hjh, hheads j hjh hjk]
        refine (hs.doubly j).frame fun a ha => hlinks a ?_ ?_
        · exact fun hah => hjh (hs.apart j h a ha hah)
        · exact fun hak => hjk (hs.apart j k a ha hak)
  · unfold appended
    rcases eq_or_ne j k with rfl | hjk
    · rw [Function.update_self]
      exact List.nodup_nil
    · rw [Function.update_of_ne hjk]
      rcases eq_or_ne j h with rfl | hjh
      · rw [Function.update_self, List.nodup_append]
        refine ⟨hs.nodup j, hs.nodup k, ?_⟩
        rintro a ha b hb rfl
        exact hhk (hs.apart j k a ha hb)
      · rw [Function.update_of_ne hjh]
        exact hs.nodup j
  · rw [mem_appended hhk] at hi hj
    obtain ⟨hik, hi⟩ := hi
    obtain ⟨hjk, hj⟩ := hj
    rcases hi with hi | ⟨rfl, hi⟩
    · rcases hj with hj | ⟨rfl, hj⟩
      · exact hs.apart i j a hi hj
      · exact absurd (hs.apart i k a hi hj) hik
    · rcases hj with hj | ⟨rfl, hj⟩
      · exact absurd (hs.apart j k a hj hi) hjk
      · rfl

/-- **An append** dereferences null where an empty list is to be appended to
one that is not. -/
theorem appendDllist_iff (hs : Represents s m) (hhk : h ≠ k) :
    (∃ t, appendDllist s h k = some t ∧ Represents t (appended m h k)) ↔
      (m k = [] → m h = []) := by
  have hdh := hs.doubly h
  have hdk := hs.doubly k
  cases hm : m h with
  | nil =>
    refine ⟨fun _ _ => rfl, fun _ => ?_⟩
    have hfirst : (s.heads h).first = none := by rw [hdh.first_eq, hm]; rfl
    have heq : appendDllist s h k = some ⟨s.next, s.prev, Function.update
        (Function.update s.heads h ⟨(s.heads k).first, (s.heads k).last⟩) k ⟨none, none⟩⟩ := by
      rw [appendDllist, hfirst]
      rfl
    refine ⟨_, heq, hs.append hhk ?_ ?_ ?_ ?_⟩ <;> dsimp only
    · rw [Function.update_of_ne hhk, Function.update_self, hm]
      exact hdk
    · rw [Function.update_self]
    · intro j hjh hjk
      rw [Function.update_of_ne hjk, Function.update_of_ne hjh]
    · exact fun a _ _ => ⟨rfl, rfl⟩
  | cons x l =>
    have hfirst : (s.heads h).first = some x := by rw [hdh.first_eq, hm]; rfl
    obtain ⟨l', z, hlz⟩ := (List.eq_nil_or_concat' (m h)).resolve_left (by simp [hm])
    have hlast : (s.heads h).last = some z := by rw [hdh.last_eq, hlz, List.getLast?_concat]
    cases hmk : m k with
    | nil =>
      have hkfirst : (s.heads k).first = none := by rw [hdk.first_eq, hmk]; rfl
      have hnull : appendDllist s h k = none := by
        rw [appendDllist, hfirst, hlast, hkfirst]
        rfl
      simp [hnull]
    | cons y S =>
      refine ⟨fun _ hk => absurd hk (List.cons_ne_nil y S), fun _ => ?_⟩
      have hkfirst : (s.heads k).first = some y := by rw [hdk.first_eq, hmk]; rfl
      have heq : appendDllist s h k = some ⟨Function.update s.next z (some y),
          Function.update s.prev y (some z), Function.update (Function.update s.heads h
            ⟨some x, (s.heads k).last⟩) k ⟨none, none⟩⟩ := by
        rw [appendDllist, hfirst, hlast, hkfirst]
        rfl
      have hzh : z ∈ m h := by simp [hlz]
      have hyk : y ∈ m k := by simp [hmk]
      have hzk : z ∉ m k := fun hz => hhk (hs.apart h k z hzh hz)
      have hyh : y ∉ m h := fun hy => hhk (hs.apart h k y hy hyk)
      have hzl : z ∉ l' := by
        have hnd := hs.nodup h
        rw [hlz, List.nodup_append] at hnd
        exact fun hz => hnd.2.2 z hz z (by simp) rfl
      have hyS : y ∉ S := by
        have hnd := hs.nodup k
        rw [hmk, List.nodup_cons] at hnd
        exact hnd.1
      refine ⟨_, heq, hs.append hhk ?_ ?_ ?_ ?_⟩ <;> dsimp only
      · rw [Function.update_of_ne hhk, Function.update_self]
        constructor
        · have hjoin : Leads (Function.update s.next z (some y)) (s.heads h).first
              (l' ++ [z] ++ m k) none := by
            refine Leads.join (hlz ▸ hdh.1) (hkfirst ▸ hdk.1) ?_
            simp [hzl, hzk]
          rwa [hfirst, ← hlz] at hjoin
        · have hrev := hdk.2
          rw [hmk, List.reverse_cons] at hrev
          have hjoin : Leads (Function.update s.prev y (some z)) (s.heads k).last
              (S.reverse ++ [y] ++ (m h).reverse) none := by
            refine Leads.join hrev (hlast ▸ hdh.2) ?_
            simp [hyS, hyh]
          rwa [List.reverse_append, hmk, List.reverse_cons]
      · rw [Function.update_self]
      · intro j hjh hjk
        rw [Function.update_of_ne hjk, Function.update_of_ne hjh]
      · intro a hah hak
        have haz : a ≠ z := fun h => hah (h ▸ hzh)
        have hay : a ≠ y := fun h => hak (h ▸ hyk)
        rw [Function.update_of_ne haz, Function.update_of_ne hay]
        exact ⟨rfl, rfl⟩

end Dlinkedlists

end Trismedia
