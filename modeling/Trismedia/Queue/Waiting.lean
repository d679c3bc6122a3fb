import Trismedia.Common.Leads
import Trismedia.Common.Trace
import Trismedia.Queue.Callers
/-!
# The order of callers

A caller who joins a queue is put behind those with his priority or a higher
one, and the positions of all are counted again; who leaves is taken out, and
they are counted again. So whatever callers do, the list of a queue is sorted
by priority and then by arrival, and it is a caller's turn only as far as
members are available to him.
-/


namespace Trismedia

namespace Queue

open CString Links

variable {C : Type} [DecidableEq C]

/-! ## Counted callers -/

/-- The positions of the callers go on from `k`. -/
def Numbered (ents : C → QueueEnt C) : List C → ℤ → Prop
  | [], _ => True
  | c :: l, k => (ents c).pos = k + 1 ∧ Numbered ents l (k + 1)

variable {ents ents' : C → QueueEnt C} {l P S : List C} {k : ℤ} {c qe : C} {addr fuel : ℕ}

omit [DecidableEq C] in
theorem numbered_append : Numbered ents (P ++ S) k ↔
    Numbered ents P k ∧ Numbered ents S (k + P.length) := by
  induction P generalizing k with
  | nil => simp [Numbered]
  | cons c P ih =>
    have hk : k + 1 + (P.length : ℤ) = k + (P.length + 1 : ℕ) := by omega
    simp only [List.cons_append, Numbered, ih, and_assoc, List.length_cons, hk]

omit [DecidableEq C] in
theorem Numbered.frame (h : Numbered ents l k) (hpos : ∀ c ∈ l, (ents' c).pos = (ents c).pos) :
    Numbered ents' l k := by
  induction l generalizing k with
  | nil => trivial
  | cons c l ih =>
    refine ⟨(hpos c List.mem_cons_self).trans h.1, ih h.2 fun d hd => ?_⟩
    exact hpos d (List.mem_cons_of_mem _ hd)

omit [DecidableEq C] in
/-- The caller at a place has it as his position. -/
theorem Numbered.pos (h : Numbered ents l k) {j : ℕ} (hj : l[j]? = some c) :
    (ents c).pos = k + j + 1 := by
  induction l generalizing k j with
  | nil => cases hj
  | cons d l ih =>
    cases j with
    | zero =>
      obtain rfl := Option.some.inj hj
      have hd := h.1
      omega
    | succ j =>
      have hrest := ih h.2 hj
      omega

/-! ## Joining -/

/-- The caller `qe` stands in the list `l`, and the callers of the list are
counted. -/
structure Placed (addr : ℕ) (qe : C) (st st' : Joining C) (l : List C) : Prop where
  lined : Leads (fun c => (st'.ents c).next) st'.q.head l none
  numbered : Numbered st'.ents l 0
  queue : st'.q = { st.q with head := st'.q.head }
  frame : ∀ c, c ∉ l → st'.ents c = st.ents c
  prio : ∀ c, (st'.ents c).prio = (st.ents c).prio
  parent : ∀ c, c ≠ qe → (st'.ents c).parent = (st.ents c).parent
  own : (st'.ents qe).parent = some addr

/-- The caller `qe` has been put between the callers of `P` and of `S`. -/
structure Inserted (addr : ℕ) (qe : C) (P S : List C) (st st' : Joining C) : Prop where
  lined : Leads (fun c => (st'.ents c).next) st'.q.head (P ++ qe :: S) none
  pos : st'.pos = st.pos + 1
  queue : st'.q = { st.q with head := st'.q.head }
  own : (st'.ents qe).pos = st.pos + 1 ∧ (st'.ents qe).parent = some addr ∧
    (st'.ents qe).prio = (st.ents qe).prio
  others : ∀ c, c ≠ qe → st'.ents c = { st.ents c with next := (st'.ents c).next }
  frame : ∀ c, c ∉ P → c ≠ qe → st'.ents c = st.ents c

/-- `insert_entry` behind the callers of `P`. -/
theorem insertEntry_spec {st : Joining C}
    (hline : Leads (fun c => (st.ents c).next) st.q.head (P ++ S) none) (hnd : (P ++ S).Nodup)
    (hqe : qe ∉ P ++ S) (hprev : st.prev = P.getLast?) :
    Inserted addr qe P S st (insertEntry addr qe st) := by
  have hneq : ∀ c ∈ P ++ S, c ≠ qe := by
    rintro c hc rfl
    exact hqe hc
  cases hlast : P.getLast? with
  | none =>
    obtain rfl : P = [] := List.getLast?_eq_none_iff.1 hlast
    have hins : insertEntry addr qe st =
        { st with
          q := { st.q with head := some qe }
          ents := Function.update st.ents qe
            { st.ents qe with
              next := st.q.head, parent := some addr, pos := st.pos + 1, opos := st.pos + 1 }
          pos := st.pos + 1 } := by
      unfold insertEntry
      rw [hprev, hlast]
    rw [hins]
    refine ⟨⟨rfl, ?_⟩, rfl, rfl, ⟨by simp, by simp, by simp⟩, fun c hc => by simp [hc],
      fun c _ hc => by simp [hc]⟩
    simp only [Function.update_self]
    refine hline.frame fun c hc => ?_
    rw [Function.update_of_ne (hneq c hc)]
  | some p =>
    have hp : p ∈ P := List.mem_of_getLast? hlast
    have hpqe : p ≠ qe := hneq p (List.mem_append_left _ hp)
    have hnext : (st.ents p).next = S.head? := by
      obtain ⟨P', rfl⟩ := List.getLast?_eq_some_iff.1 hlast
      obtain ⟨m, hP, hS⟩ := leads_append.1 hline
      rw [(leads_snoc.1 hP).2, hS.head, Option.or_none]
    have hins : insertEntry addr qe st =
        { st with
          ents := Function.update (Function.update st.ents p { st.ents p with next := some qe }) qe
            { st.ents qe with
              next := S.head?, parent := some addr, pos := st.pos + 1, opos := st.pos + 1 }
          pos := st.pos + 1 } := by
      unfold insertEntry
      rw [hprev, hlast]
      simp only [hnext, Function.update_of_ne hpqe.symm]
    have hhead : st.q.head = if P.isEmpty then some qe else st.q.head := by
      rw [if_neg]
      rw [List.isEmpty_iff]
      rintro rfl
      cases hlast
    rw [hins]
    refine ⟨?_, rfl, rfl, ⟨by simp, by simp, by simp⟩, fun c hc => ?_, fun c hc hc' => ?_⟩
    · simp only
      rw [hhead]
      refine hline.insert hnd hqe fun c hc => ?_
      by_cases hcqe : c = qe
      · rw [if_pos hcqe, hcqe, Function.update_self]
      · rw [if_neg hcqe, hlast, Function.update_of_ne hcqe]
        by_cases hcp : c = p
        · rw [if_pos (by rw [hcp]), hcp, Function.update_self]
        · rw [if_neg fun h => hcp (Option.some.inj h).symm, Function.update_of_ne hcp]
    · simp only
      rw [Function.update_of_ne hc]
      by_cases hcp : c = p
      · rw [hcp, Function.update_self]
      · rw [Function.update_of_ne hcp]
    · simp only
      rw [Function.update_of_ne hc', Function.update_of_ne]
      rintro rfl
      exact hc hp

/-- **The rest of the list is only counted** once the caller stands in it. -/
theorem joinLoop_inserted {st st' : Joining C} {cur : Option C} (hin : st.inserted = true)
    (hline : Leads (fun c => (st.ents c).next) cur S none) (hnd : S.Nodup)
    (h : joinLoop addr qe fuel st cur = some st') :
    st'.q = st.q ∧ st'.inserted = true ∧ (∀ c, c ∉ S → st'.ents c = st.ents c) ∧
      (∀ c, st'.ents c = { st.ents c with pos := (st'.ents c).pos }) ∧
      Numbered st'.ents S st.pos := by
  induction S generalizing fuel st cur with
  | nil =>
    obtain rfl : cur = none := hline
    rw [joinLoop] at h
    obtain rfl := Option.some.inj h
    exact ⟨rfl, hin, fun _ _ => rfl, fun _ => rfl, trivial⟩
  | cons c S ih =>
    obtain ⟨rfl, hrest⟩ := hline
    obtain ⟨hc, hnd'⟩ := List.nodup_cons.1 hnd
    cases fuel with
    | zero => cases h
    | succ fuel =>
      rw [joinLoop, hin] at h
      simp only [Bool.not_true, Bool.false_eq_true, false_and, if_false, Function.update_self] at h
      have hne : ∀ d ∈ S, d ≠ c := by
        rintro d hd rfl
        exact hc hd
      have hline' : Leads (fun d => ((Function.update st.ents c
          { st.ents c with pos := st.pos + 1 }) d).next) (st.ents c).next S none :=
        hrest.frame fun d hd => by rw [Function.update_of_ne (hne d hd)]
      obtain ⟨hq, hins, hframe, hpos, hnum⟩ := ih (by exact hin) (by exact hline') hnd' h
      refine ⟨hq, hins, fun d hd => ?_, fun d => ?_, ?_, hnum⟩
      · rw [List.mem_cons, not_or] at hd
        rw [hframe d hd.2]
        exact Function.update_of_ne hd.1 ..
      · rw [hpos d]
        simp only
        by_cases hdc : d = c
        · rw [hdc, Function.update_self]
        · rw [Function.update_of_ne hdc]
      · rw [hframe c hc]
        simp

/-- Where a caller goes: behind those with his priority or a higher one. -/
def place (prio : C → ℤ) (qe : C) (l : List C) : List C :=
  l.takeWhile (fun c => decide (prio qe ≤ prio c)) ++
    qe :: l.dropWhile (fun c => decide (prio qe ≤ prio c))

/-- The queue once the loop has ended. -/
def finish (addr : ℕ) (qe : C) (st : Joining C) : Joining C :=
  if st.inserted then st else insertEntry addr qe st

/-- Only the position of a caller is written. -/
theorem update_pos_field {β : Type} (f : QueueEnt C → β) (hf : ∀ e k, f { e with pos := k } = f e)
    (ents : C → QueueEnt C) (c d : C) (k : ℤ) :
    f (Function.update ents c { ents c with pos := k } d) = f (ents d) := by
  by_cases hdc : d = c
  · rw [hdc, Function.update_self, hf]
  · rw [Function.update_of_ne hdc]

/-- The caller is put before the first with a lower priority, and the rest of the
list is counted. -/
theorem joinLoop_here {st st' : Joining C}
    (hline : Leads (fun c => (st.ents c).next) st.q.head (P ++ c :: S) none)
    (hprev : st.prev = P.getLast?) (hpos : st.pos = P.length) (hnum : Numbered st.ents P 0)
    (hnd : (P ++ c :: S).Nodup) (hqe : qe ∉ P ++ c :: S)
    (h : joinLoop addr qe (fuel + 1) { insertEntry addr qe st with inserted := true } (some c) =
      some st') : Placed addr qe st (finish addr qe st') (P ++ qe :: c :: S) := by
  have hins : Inserted addr qe P (c :: S) st (insertEntry addr qe st) :=
    insertEntry_spec hline hnd hqe hprev
  generalize insertEntry addr qe st = mid at h hins
  have hndS := (List.nodup_append.1 hnd).2.1
  obtain ⟨m, -, -, hrest⟩ := leads_append.1 hins.lined
  obtain ⟨hq, hst, hframe, hsame, hcount⟩ := joinLoop_inserted (by rfl) (by exact ⟨rfl, hrest.2⟩) hndS h
  simp only at hq hframe hsame hcount
  have hfin : finish addr qe st' = st' := by simp [finish, hst]
  have hqeS : qe ∉ c :: S := fun hmem => hqe (List.mem_append_right _ hmem)
  rw [hfin]
  refine ⟨?_, ?_, ?_, fun d hd => ?_, fun d => ?_, fun d hd => ?_, ?_⟩
  · rw [hq]
    exact hins.lined.frame fun d _ => by rw [hsame d]
  · rw [numbered_append, Int.zero_add]
    refine ⟨hnum.frame fun d hd => ?_, ?_, ?_⟩
    · have hdqe : d ≠ qe := by
        rintro rfl
        exact hqe (List.mem_append_left _ hd)
      have hdS : d ∉ c :: S := fun hmem => (List.nodup_append.1 hnd).2.2 d hd d hmem rfl
      rw [hframe d hdS, hins.others d hdqe]
    · rw [hframe qe hqeS, hins.own.1, hpos]
    · rw [hins.pos, hpos] at hcount
      exact hcount
  · rw [hq, hins.queue]
  · simp only [List.mem_append, List.mem_cons, not_or] at hd
    rw [hframe d (by simp [hd.2.2]), hins.frame d hd.1 hd.2.1]
  · rw [hsame d]
    by_cases hd : d = qe
    · rw [hd]
      exact hins.own.2.2
    · rw [hins.others d hd]
  · rw [hsame d, hins.others d hd]
  · rw [hsame qe]
    exact hins.own.2.1

/-- **The loop and what follows it** put the caller into his place. -/
theorem joinLoop_spec {st st' : Joining C} {cur : Option C} (hin : st.inserted = false)
    (hline : Leads (fun c => (st.ents c).next) st.q.head (P ++ S) none) (hcur : cur = S.head?)
    (hprev : st.prev = P.getLast?) (hpos : st.pos = P.length) (hnum : Numbered st.ents P 0)
    (hnd : (P ++ S).Nodup) (hqe : qe ∉ P ++ S)
    (h : joinLoop addr qe fuel st cur = some st') :
    Placed addr qe st (finish addr qe st') (P ++ place (fun c => (st.ents c).prio) qe S) := by
  induction S generalizing P fuel st cur with
  | nil =>
    obtain rfl : cur = none := hcur
    rw [joinLoop] at h
    obtain rfl := Option.some.inj h
    have hins : Inserted addr qe P [] st (insertEntry addr qe st) :=
      insertEntry_spec hline hnd hqe hprev
    have hfin : finish addr qe st = insertEntry addr qe st := by simp [finish, hin]
    have hne : ∀ c ∈ P, c ≠ qe := by
      rintro c hc rfl
      exact hqe (by simp [hc])
    rw [hfin]
    refine ⟨hins.lined, ?_, hins.queue, fun c hc => ?_, fun c => ?_, fun c hc => ?_, hins.own.2.1⟩
    · rw [place, List.takeWhile_nil, List.dropWhile_nil, List.nil_append, numbered_append,
        Int.zero_add]
      refine ⟨hnum.frame fun c hc => by rw [hins.others c (hne c hc)], ?_, trivial⟩
      rw [hins.own.1, hpos]
    · simp only [place, List.takeWhile_nil, List.dropWhile_nil, List.nil_append, List.mem_append,
        List.mem_singleton, not_or] at hc
      exact hins.frame c hc.1 hc.2
    · by_cases hc : c = qe
      · rw [hc, hins.own.2.2]
      · rw [hins.others c hc]
    · rw [hins.others c hc]
  | cons c S ih =>
    obtain rfl : cur = some c := hcur
    have hcP : c ∉ P := fun hc => (List.nodup_append.1 hnd).2.2 c hc c List.mem_cons_self rfl
    have hcqe : c ≠ qe := by
      rintro rfl
      exact hqe (by simp)
    cases fuel with
    | zero => cases h
    | succ fuel =>
      by_cases hprio : (st.ents qe).prio > (st.ents c).prio
      · have hplace : place (fun c => (st.ents c).prio) qe (c :: S) = qe :: c :: S := by
          have hno : ¬ (st.ents qe).prio ≤ (st.ents c).prio := by omega
          simp [place, hno]
        rw [hplace]
        have hhere : joinLoop addr qe (fuel + 1) { insertEntry addr qe st with inserted := true }
            (some c) = some st' := by
          rw [joinLoop, hin] at h
          rw [joinLoop]
          simpa [hprio] using h
        exact joinLoop_here hline hprev hpos hnum hnd hqe hhere
      · -- he goes behind this caller, who is counted
        have hplace : P ++ place (fun c => (st.ents c).prio) qe (c :: S) =
            P ++ [c] ++ place (fun c => (st.ents c).prio) qe S := by
          have hle : (st.ents qe).prio ≤ (st.ents c).prio := by omega
          simp [place, hle]
        have happ : P ++ c :: S = P ++ [c] ++ S := by simp
        rw [joinLoop, hin] at h
        have hno : ¬ (True ∧ (st.ents qe).prio > (st.ents c).prio) := by simp [hprio]
        simp only [Bool.not_false, if_neg hno, Function.update_self] at h
        rw [happ] at hline hnd hqe
        have hnext : (st.ents c).next = S.head? := by
          obtain ⟨m, hc, hS⟩ := leads_append.1 hline
          rw [(leads_snoc.1 hc).2, hS.head, Option.or_none]
        have hplaced := ih (P := P ++ [c]) (by exact hin)
          (by
            refine hline.frame fun d _ => ?_
            exact update_pos_field QueueEnt.next (fun _ _ => rfl) _ _ _ _)
          hnext (by simp) (by simp [hpos])
          (by
            rw [numbered_append, Int.zero_add]
            refine ⟨hnum.frame fun d hd => ?_, ?_, trivial⟩
            · have hdc : d ≠ c := by
                rintro rfl
                exact hcP hd
              simp [hdc]
            · simp [hpos]) hnd hqe h
        simp only [update_pos_field QueueEnt.prio (fun _ _ => rfl)] at hplaced
        rw [hplace]
        refine ⟨hplaced.lined, hplaced.numbered, hplaced.queue, fun d hd => ?_, fun d => ?_,
          fun d hd => ?_, hplaced.own⟩
        · have hdc : d ≠ c := by
            rintro rfl
            simp at hd
          rw [hplaced.frame d hd]
          simp [hdc]
        · rw [hplaced.prio d]
          exact update_pos_field QueueEnt.prio (fun _ _ => rfl) _ _ _ _
        · rw [hplaced.parent d hd]
          exact update_pos_field QueueEnt.parent (fun _ _ => rfl) _ _ _ _

/-! ## Leaving -/

/-- The caller `qe` is out of the list, and the others are counted. -/
structure Left (qe : C) (l l' : List C) (q q' : CallQueue C) (ents ents' : C → QueueEnt C) :
    Prop where
  lined : Leads (fun c => (ents' c).next) q'.head l' none
  numbered : Numbered ents' l' 0
  queue : q' = { q with head := q'.head, count := q'.count }
  frame : ∀ c, c ∉ l → ents' c = ents c
  same : ∀ c, (ents' c).prio = (ents c).prio ∧ (ents' c).parent = (ents c).parent

theorem leaveLoop_spec {q q' : CallQueue C} {current prev : Option C} {pos : ℤ}
    (hline : Leads (fun c => (ents c).next) q.head (P ++ S) none) (hcur : current = S.head?)
    (hprev : prev = P.getLast?) (hpos : pos = P.length) (hnum : Numbered ents P 0)
    (hnd : (P ++ S).Nodup) (h : leaveLoop qe fuel q ents current prev pos = some (q', ents')) :
    Left qe (P ++ S) (P ++ S.filter (· ≠ qe)) q q' ents ents' ∧
      q'.count = q.count - S.count qe := by
  induction S generalizing P fuel q ents current prev pos with
  | nil =>
    obtain rfl : current = none := hcur
    rw [leaveLoop] at h
    obtain ⟨rfl, rfl⟩ := Prod.mk.inj (Option.some.inj h)
    rw [List.append_nil] at hline
    rw [List.filter_nil, List.append_nil]
    exact ⟨⟨hline, hnum, rfl, fun _ _ => rfl, fun _ => ⟨rfl, rfl⟩⟩, by simp⟩
  | cons c S ih =>
    obtain rfl : current = some c := hcur
    have hcP : c ∉ P := fun hc => (List.nodup_append.1 hnd).2.2 c hc c List.mem_cons_self rfl
    have hcS : c ∉ S := (List.nodup_cons.1 (List.nodup_append.1 hnd).2.1).1
    have hnext : (ents c).next = S.head? := by
      obtain ⟨m, -, -, hS⟩ := leads_append.1 hline
      exact hS.head.trans (Option.or_none ..)
    have hndPS : (P ++ S).Nodup :=
      hnd.sublist (List.Sublist.append_left (List.sublist_cons_self c S) P)
    cases fuel with
    | zero => cases h
    | succ fuel =>
      by_cases hc : c = qe
      · subst hc
        rw [leaveLoop, if_pos rfl] at h
        have hcount : ∀ n : ℤ, n - 1 - (S.count c : ℤ) = n - ((c :: S).count c : ℕ) := by
          intro n
          rw [List.count_cons_self]
          omega
        have hfilter : (c :: S).filter (· ≠ c) = S.filter (· ≠ c) := by simp
        rw [hfilter, ← hcount]
        cases hlast : P.getLast? with
        | none =>
          obtain rfl : P = [] := List.getLast?_eq_none_iff.1 hlast
          rw [hprev, hlast] at h
          simp only at h
          obtain ⟨hleft, hq'⟩ := ih (P := []) (by exact hline.2) hnext rfl hpos trivial hndPS h
          refine ⟨⟨hleft.lined, hleft.numbered, hleft.queue, fun d hd => ?_, hleft.same⟩, hq'⟩
          exact hleft.frame d fun hd' => hd (List.mem_cons_of_mem _ hd')
        | some p =>
          have hp : p ∈ P := List.mem_of_getLast? hlast
          have hpc : p ≠ c := by
            rintro rfl
            exact hcP hp
          rw [hprev, hlast] at h
          simp only [Function.update_of_ne hpc.symm] at h
          have hhead : q.head = if P.isEmpty then S.head? else q.head := by
            rw [if_neg]
            rw [List.isEmpty_iff]
            rintro rfl
            cases hlast
          have hupd : ∀ d, (Function.update ents p { ents p with next := (ents c).next } d).next =
              if P.getLast? = some d then S.head? else (ents d).next := by
            intro d
            rw [hlast]
            by_cases hdp : d = p
            · rw [hdp, Function.update_self, if_pos rfl]
              exact hnext
            · rw [Function.update_of_ne hdp, if_neg fun h => hdp (Option.some.inj h).symm]
          have hline' : Leads (fun d =>
              (Function.update ents p { ents p with next := (ents c).next } d).next) q.head
              (P ++ S) none := by
            rw [hhead]
            exact hline.erase hndPS fun d _ => hupd d
          have hpost : ∀ d, (Function.update ents p { ents p with next := (ents c).next } d).pos =
              (ents d).pos := by
            intro d
            by_cases hdp : d = p
            · rw [hdp, Function.update_self]
            · rw [Function.update_of_ne hdp]
          obtain ⟨hleft, hq'⟩ := ih (P := P) (by exact hline') hnext hlast.symm hpos
            (hnum.frame fun d _ => hpost d) hndPS h
          refine ⟨⟨hleft.lined, hleft.numbered, hleft.queue, fun d hd => ?_, fun d => ?_⟩, hq'⟩
          · rw [hleft.frame d fun hd' => hd ?_, Function.update_of_ne]
            · rintro rfl
              exact hd (List.mem_append_left _ hp)
            · rcases List.mem_append.1 hd' with hd' | hd'
              · exact List.mem_append_left _ hd'
              · exact List.mem_append_right _ (List.mem_cons_of_mem _ hd')
          · obtain ⟨h1, h2⟩ := hleft.same d
            rw [h1, h2]
            by_cases hdp : d = p
            · rw [hdp, Function.update_self]
              exact ⟨rfl, rfl⟩
            · rw [Function.update_of_ne hdp]
              exact ⟨rfl, rfl⟩
      · rw [leaveLoop, if_neg hc] at h
        simp only [Function.update_self] at h
        have happ : P ++ c :: S = P ++ [c] ++ S := by simp
        have hfilter : P ++ (c :: S).filter (· ≠ qe) = P ++ [c] ++ S.filter (· ≠ qe) := by
          simp [hc]
        rw [happ] at hline hnd
        obtain ⟨hleft, hq'⟩ := ih (P := P ++ [c])
          (hline.frame fun d _ => update_pos_field QueueEnt.next (fun _ _ => rfl) _ _ _ _)
          hnext (by simp) (by simp [hpos])
          (by
            rw [numbered_append, Int.zero_add]
            refine ⟨hnum.frame fun d hd => ?_, ?_, trivial⟩
            · have hdc : d ≠ c := by
                rintro rfl
                exact hcP hd
              rw [Function.update_of_ne hdc]
            · simp [hpos]) hnd h
        rw [happ, hfilter]
        refine ⟨⟨hleft.lined, hleft.numbered, hleft.queue, fun d hd => ?_, fun d => ?_⟩, ?_⟩
        · rw [hleft.frame d hd, Function.update_of_ne]
          rintro rfl
          simp at hd
        · obtain ⟨h1, h2⟩ := hleft.same d
          rw [h1, h2]
          exact ⟨update_pos_field QueueEnt.prio (fun _ _ => rfl) _ _ _ _,
            update_pos_field QueueEnt.parent (fun _ _ => rfl) _ _ _ _⟩
        · rw [hq', List.count_cons_of_ne hc]

/-! ## Turns -/

/-- The callers before `qe` who are not being connected. -/
def aheadOf (ents : C → QueueEnt C) (qe : C) (l : List C) : ℕ :=
  (l.takeWhile (· ≠ qe)).countP fun c => !(ents c).pending

/-- **The loop finds the caller** where fewer than `avl` are to be served before
him. -/
theorem turnLoop_spec {avl idx idx' : ℕ} {ch ch' : Option C}
    (hline : Leads (fun c => (ents c).next) ch l none)
    (h : turnLoop ents avl qe fuel idx ch = some (idx', ch')) :
    ch'.isSome ∧ idx' < avl ↔ qe ∈ l ∧ idx + aheadOf ents qe l < avl := by
  induction l generalizing fuel idx ch with
  | nil =>
    obtain rfl : ch = none := hline
    rw [turnLoop] at h
    obtain ⟨rfl, rfl⟩ := Prod.mk.inj (Option.some.inj h)
    simp
  | cons c l ih =>
    obtain ⟨rfl, hrest⟩ := hline
    rw [turnLoop.eq_def] at h
    simp only at h
    by_cases hc : c = qe
    · subst hc
      rw [if_neg (by simp)] at h
      obtain ⟨rfl, rfl⟩ := Prod.mk.inj (Option.some.inj h)
      simp [aheadOf]
    by_cases hidx : idx < avl
    · rw [if_pos ⟨hidx, hc⟩] at h
      cases fuel with
      | zero => cases h
      | succ fuel =>
        rw [ih hrest h]
        have hmem : qe ∈ c :: l ↔ qe ∈ l := by simp [Ne.symm hc]
        have hahead : aheadOf ents qe (c :: l) =
            (if (ents c).pending then 0 else 1) + aheadOf ents qe l := by
          unfold aheadOf
          rw [List.takeWhile_cons_of_pos (by simpa using hc), List.countP_cons]
          cases (ents c).pending <;> simp [Nat.add_comm]
        rw [hmem, hahead]
        refine and_congr_right fun _ => ?_
        split <;> omega
    · rw [if_neg fun hno => hidx hno.1] at h
      obtain ⟨rfl, rfl⟩ := Prod.mk.inj (Option.some.inj h)
      refine iff_of_false (fun hno => hidx hno.2) fun hno => hidx ?_
      omega

theorem turnLoop_ends {avl idx : ℕ} {ch : Option C}
    (hline : Leads (fun c => (ents c).next) ch l none) (hf : l.length ≤ fuel) :
    ∃ r, turnLoop ents avl qe fuel idx ch = some r := by
  induction l generalizing fuel idx ch with
  | nil =>
    obtain rfl : ch = none := hline
    exact ⟨(idx, none), by rw [turnLoop]⟩
  | cons c l ih =>
    obtain ⟨rfl, hrest⟩ := hline
    obtain ⟨k, rfl⟩ := Nat.exists_eq_add_of_le hf
    rw [List.length_cons, Nat.add_right_comm, turnLoop.eq_def]
    simp only
    split
    · exact ih hrest (Nat.le_add_right _ _)
    · exact ⟨_, rfl⟩

/-- A caller with fewer than `n` before him is one of the first `n`. -/
theorem mem_take_of_ahead {n : ℕ} (hc : c ∈ l) (hp : (ents c).pending = false)
    (h : aheadOf ents c l < n) : c ∈ (l.filter fun d => !(ents d).pending).take n := by
  induction l generalizing n with
  | nil => cases hc
  | cons d l ih =>
    by_cases hdc : d = c
    · subst hdc
      rw [List.filter_cons_of_pos (by simp [hp])]
      obtain ⟨m, rfl⟩ := Nat.exists_eq_add_of_lt h
      rw [show aheadOf ents d (d :: l) + m + 1 = (aheadOf ents d (d :: l) + m) + 1 from rfl,
        List.take_succ_cons]
      exact List.mem_cons_self
    · have hcl : c ∈ l := (List.mem_cons.1 hc).resolve_left fun h => hdc h.symm
      have hahead : aheadOf ents c (d :: l) =
          (if (ents d).pending then 0 else 1) + aheadOf ents c l := by
        unfold aheadOf
        rw [List.takeWhile_cons_of_pos (by simpa using hdc), List.countP_cons]
        cases (ents d).pending <;> simp [Nat.add_comm]
      rw [hahead] at h
      by_cases hd : (ents d).pending = true
      · rw [List.filter_cons_of_neg (by simp [hd])]
        exact ih hcl (by simpa [hd] using h)
      · rw [List.filter_cons_of_pos (by simpa using hd)]
        rw [if_neg hd] at h
        obtain ⟨m, rfl⟩ : ∃ m, n = m + 1 := ⟨n - 1, by omega⟩
        rw [List.take_succ_cons]
        exact List.mem_cons_of_mem _ (ih hcl (by omega))

end Queue

end Trismedia
