import Trismedia.Queue.Members
import Trismedia.Queue.Waiting
/-!
# Runs of a queue

Callers join and leave queues by name, in any order, while the members and the
settings of the queues change. The callers who have joined and not left stand
each in the list of one queue, sorted by priority and then by when they joined,
and no more of them have their turn than members are available.
-/


namespace Trismedia

namespace Queue

open CString Links

variable {C : Type} {autofillDefault : Bool}

/-! ## The system -/

/-- The queues and the callers, who has joined and not left, and when. -/
structure Sys (C : Type) where
  world : World C
  joined : C → Bool
  arrival : C → ℕ
  clock : ℕ

/-- What is kept of the list of waiting callers. -/
def CallQueue.waits (q : CallQueue C) : Option C × ℤ := (q.head, q.count)

/-- The lists of the queues are left alone, and a new queue has none. -/
def SameLists (queues queues' : Queues C) : Prop :=
  ∃ k, queues'.map CallQueue.waits = queues.map CallQueue.waits ++ List.replicate k (none, 0)

/-- **What others may do**: anything to the members and settings of a queue, to
a caller who has not joined, and to whether a caller is being connected. -/
structure Untouched (s : Sys C) (w : World C) : Prop where
  lists : SameLists s.world.queues w.queues
  ents : ∀ c, s.joined c = true → (w.ents c).next = (s.world.ents c).next ∧
    (w.ents c).pos = (s.world.ents c).pos ∧ (w.ents c).prio = (s.world.ents c).prio ∧
    (w.ents c).parent = (s.world.ents c).parent

/-- The calls of callers, and what else happens. -/
inductive Event (C : Type)
  | join (queuename : CString) (qe : C) (prio maxPenalty minPenalty now : ℤ) (reason : QueueResult)
      (rt : Realtime)
  | leave (qe : C) (defined : Bool)
  | other

/-- What a caller sets before he joins. -/
def World.enter [DecidableEq C] (w : World C) (qe : C) (prio maxPenalty minPenalty : ℤ) : World C :=
  let e := { w.ents qe with prio := prio, maxPenalty := maxPenalty, minPenalty := minPenalty }
  { w with ents := Function.update w.ents qe e }

/-- **A step.** A caller sets his priority and joins, which he does again only
after leaving; where `join_queue` returns 0 he has joined. -/
def Sys.Step [DecidableEq C] (autofillDefault : Bool) (s : Sys C) : Event C → Sys C → Prop
  | .join queuename qe prio maxPenalty minPenalty now reason rt, t =>
    s.joined qe = false ∧ ∃ fuel w res reason',
      joinQueue autofillDefault fuel (s.world.enter qe prio maxPenalty minPenalty) queuename qe now
        reason rt = some (w, res, reason') ∧
      t = if res = 0 then
          { world := w, joined := Function.update s.joined qe true
            arrival := Function.update s.arrival qe s.clock, clock := s.clock + 1 }
        else { s with world := w }
  | .leave qe defined, t => ∃ fuel w, leaveQueue fuel s.world qe defined = some w ∧
      t = { s with world := w, joined := Function.update s.joined qe false }
  | .other, t => ∃ w, Untouched s w ∧ t = { s with world := w }

/-- Queues without callers. -/
def Sys.Start (s : Sys C) : Prop :=
  (∀ q ∈ s.world.queues, q.waits = (none, 0)) ∧ ∀ c, s.joined c = false

/-- One caller stands before another: he has the higher priority, or the same
and joined first. -/
def Sys.Before (s : Sys C) (c d : C) : Prop :=
  (s.world.ents d).prio < (s.world.ents c).prio ∨
    (s.world.ents d).prio = (s.world.ents c).prio ∧ s.arrival c < s.arrival d

/-- **The list of a queue**: the callers who have joined it, sorted and counted. -/
structure Waits (s : Sys C) (addr : ℕ) (q : CallQueue C) (l : List C) : Prop where
  lined : Leads (fun c => (s.world.ents c).next) q.head l none
  nodup : l.Nodup
  mem : ∀ c, c ∈ l ↔ s.joined c = true ∧ (s.world.ents c).parent = some addr
  sorted : l.Pairwise s.Before
  numbered : Numbered s.world.ents l 0
  count : q.count = l.length

/-- **The invariant.** -/
structure Sys.Inv (s : Sys C) : Prop where
  lists : ∀ addr q, s.world.queues[addr]? = some q → ∃ l, Waits s addr q l
  arrival : ∀ c, s.joined c = true → s.arrival c < s.clock
  parent : ∀ c, s.joined c = true →
    ∃ addr q, (s.world.ents c).parent = some addr ∧ s.world.queues[addr]? = some q

variable {s t : Sys C} {w : World C} {queues queues' : Queues C} {q q' : CallQueue C} {l : List C}
variable {addr fuel : ℕ} {qe c : C} {name : CString} {rt : Realtime}

theorem Sys.Start.inv (h : s.Start) : s.Inv := by
  have hno : ∀ c, s.joined c ≠ true := fun c hc => by simp [h.2 c] at hc
  refine ⟨fun addr q hq => ⟨[], ?_⟩, fun c hc => absurd hc (hno c), fun c hc => absurd hc (hno c)⟩
  have hw := h.1 q (List.mem_iff_getElem?.2 ⟨addr, hq⟩)
  obtain ⟨hhead, hcount⟩ := Prod.mk.inj hw
  refine ⟨hhead, List.nodup_nil, fun c => ?_, List.Pairwise.nil, trivial, hcount⟩
  exact iff_of_false List.not_mem_nil fun hc => hno c hc.1

/-! ## What loading a queue leaves alone -/

theorem SameLists.refl (queues : Queues C) : SameLists queues queues := ⟨0, by simp⟩

theorem SameLists.set (h : queues[addr]? = some q) (hq : q'.waits = q.waits) :
    SameLists queues (queues.set addr q') := by
  refine ⟨0, ?_⟩
  rw [List.map_set, hq, List.replicate_zero, List.append_nil]
  refine List.ext_getElem? fun i => ?_
  by_cases hi : addr = i
  · subst hi
    have hlt := (List.getElem?_eq_some_iff.1 h).1
    rw [List.getElem?_set_self (by simpa using hlt), List.getElem?_map, h]
    rfl
  · rw [List.getElem?_set_ne hi]

/-- A queue is an old one, or it is new and empty. -/
theorem SameLists.get (h : SameLists queues queues') (hq : queues'[addr]? = some q') :
    (∃ q, queues[addr]? = some q ∧ q'.waits = q.waits) ∨
      queues[addr]? = none ∧ q'.waits = (none, 0) := by
  obtain ⟨k, hk⟩ := h
  have hget : (queues'.map CallQueue.waits)[addr]? = some q'.waits := by
    rw [List.getElem?_map, hq]
    rfl
  rw [hk, List.getElem?_append] at hget
  by_cases hlt : addr < (queues.map CallQueue.waits).length
  · rw [if_pos hlt, List.getElem?_map, Option.map_eq_some_iff] at hget
    obtain ⟨q, hold, hw⟩ := hget
    exact Or.inl ⟨q, hold, hw.symm⟩
  · rw [if_neg hlt] at hget
    rw [List.length_map] at hlt
    refine Or.inr ⟨List.getElem?_eq_none (by omega), ?_⟩
    have hmem := List.mem_of_getElem? hget
    exact List.eq_of_mem_replicate hmem

theorem SameLists.old (h : SameLists queues queues') (hq : queues[addr]? = some q) :
    ∃ q', queues'[addr]? = some q' := by
  obtain ⟨k, hk⟩ := h
  have hlen := congrArg List.length hk
  simp only [List.length_map, List.length_append, List.length_replicate] at hlen
  have hlt := (List.getElem?_eq_some_iff.1 hq).1
  exact ⟨_, List.getElem?_eq_getElem (by omega)⟩

theorem rtHandleMemberRecord_waits (q : CallQueue C) (r : MemberRecord) :
    (rtHandleMemberRecord q r).waits = q.waits := by
  unfold rtHandleMemberRecord
  simp only
  repeat' split
  all_goals rfl

theorem foldl_record_waits (q : CallQueue C) (memberConfig : List MemberRecord) :
    (memberConfig.foldl rtHandleMemberRecord q).waits = q.waits := by
  induction memberConfig generalizing q with
  | nil => rfl
  | cons r memberConfig ih => rw [List.foldl_cons, ih, rtHandleMemberRecord_waits]

theorem updateRealtimeMembers_waits (q : CallQueue C) (memberConfig : Option (List MemberRecord)) :
    (updateRealtimeMembers q memberConfig).waits = q.waits := by
  cases memberConfig with
  | none => rfl
  | some memberConfig => exact foldl_record_waits (markDead q) memberConfig

theorem queueSetParam_waits (q : CallQueue C) (param val : CString) :
    (queueSetParam q param val).waits = q.waits := by
  unfold queueSetParam
  simp only
  repeat' split
  all_goals rfl

theorem foldl_param_waits (q : CallQueue C) (queueVars : List (CString × CString)) :
    (queueVars.foldl (fun q v => if trisStrlenZero (some v.2) then q
      else queueSetParam q (paramName v.1) v.2) q).waits = q.waits := by
  induction queueVars generalizing q with
  | nil => rfl
  | cons v queueVars ih =>
    rw [List.foldl_cons, ih]
    split
    · rfl
    · exact queueSetParam_waits q _ _

theorem loadDefinition_waits (q : CallQueue C) (queueVars : List (CString × CString))
    (memberConfig : List MemberRecord) :
    (loadDefinition autofillDefault q queueVars memberConfig).waits = q.waits := by
  have hparams := foldl_param_waits (initQueue autofillDefault q) queueVars
  refine (foldl_record_waits _ memberConfig).trans ?_
  exact hparams

theorem findQueueByNameRt_lists {r : Option ℕ}
    (h : findQueueByNameRt autofillDefault queues name rt = some (queues', r)) :
    SameLists queues queues' := by
  unfold findQueueByNameRt at h
  cases hfind : queueFind queues name with
  | none =>
    rw [hfind] at h
    simp only at h
    split at h
    · obtain ⟨rfl, -⟩ := Prod.mk.inj (Option.some.inj h)
      exact SameLists.refl _
    · obtain ⟨rfl, -⟩ := Prod.mk.inj (Option.some.inj h)
      exact SameLists.refl _
    · split at h
      · obtain ⟨rfl, -⟩ := Prod.mk.inj (Option.some.inj h)
        refine ⟨1, ?_⟩
        rw [List.map_append, List.map_singleton, loadDefinition_waits]
        rfl
      · obtain ⟨rfl, -⟩ := Prod.mk.inj (Option.some.inj h)
        exact SameLists.refl _
  | some found =>
    obtain ⟨i, q⟩ := found
    have hget := queueFind_some hfind
    rw [hfind] at h
    simp only at h
    split at h
    · obtain ⟨rfl, -⟩ := Prod.mk.inj (Option.some.inj h)
      exact SameLists.refl _
    split at h
    · obtain ⟨rfl, -⟩ := Prod.mk.inj (Option.some.inj h)
      exact SameLists.set hget rfl
    · obtain ⟨memberConfig, -, hres⟩ := Option.map_eq_some_iff.1 h
      obtain ⟨rfl, -⟩ := Prod.mk.inj hres
      exact SameLists.set hget (loadDefinition_waits q _ _)

theorem loadFromRealtime_lists {r : Option ℕ}
    (h : loadFromRealtime autofillDefault queues name rt = some (queues', r)) :
    SameLists queues queues' := by
  unfold loadFromRealtime at h
  split at h
  · exact findQueueByNameRt_lists h
  split at h
  · obtain ⟨rfl, -⟩ := Prod.mk.inj (Option.some.inj h)
    exact SameLists.refl _
  · exact findQueueByNameRt_lists h

/-- **Loading a queue** leaves all waiting callers where they are. -/
theorem loadRealtimeQueue_lists {r : Option ℕ}
    (h : loadRealtimeQueue autofillDefault queues name rt = some (queues', r)) :
    SameLists queues queues' := by
  unfold loadRealtimeQueue at h
  cases hfind : queueFind queues name with
  | none =>
    rw [hfind] at h
    exact loadFromRealtime_lists h
  | some found =>
    obtain ⟨i, q⟩ := found
    rw [hfind] at h
    simp only at h
    split at h
    · exact loadFromRealtime_lists h
    · obtain ⟨rfl, -⟩ := Prod.mk.inj (Option.some.inj h)
      exact SameLists.set (queueFind_some hfind) (updateRealtimeMembers_waits q _)

/-! ## The steps -/

theorem Waits.callers (h : Waits s addr q l) (hc : c ∈ l) : s.joined c = true :=
  ((h.mem c).1 hc).1

/-- **What others do** keeps the invariant. -/
theorem Sys.Inv.other (h : s.Inv) (hw : Untouched s w) : Sys.Inv { s with world := w } := by
  refine ⟨fun addr q' hq' => ?_, h.arrival, fun c hc => ?_⟩
  · rcases hw.lists.get hq' with ⟨q, hq, hwaits⟩ | ⟨hnone, hwaits⟩
    · obtain ⟨hhead, hcount⟩ := Prod.mk.inj hwaits
      obtain ⟨l, hl⟩ := h.lists addr q hq
      refine ⟨l, ?_, hl.nodup, fun c => ?_, ?_, ?_, hcount.trans hl.count⟩
      · show Leads (fun c => (w.ents c).next) q'.head l none
        rw [hhead]
        exact hl.lined.frame fun c hc => (hw.ents c (hl.callers hc)).1
      · rw [hl.mem c]
        refine and_congr_right fun hc => ?_
        rw [(hw.ents c hc).2.2.2]
      · refine hl.sorted.imp_of_mem fun {c d} hc hd hbefore => ?_
        unfold Sys.Before at hbefore ⊢
        rw [(hw.ents c (hl.callers hc)).2.2.1, (hw.ents d (hl.callers hd)).2.2.1]
        exact hbefore
      · exact hl.numbered.frame fun c hc => (hw.ents c (hl.callers hc)).2.1
    · obtain ⟨hhead, hcount⟩ := Prod.mk.inj hwaits
      refine ⟨[], hhead, List.nodup_nil, fun c => ?_, List.Pairwise.nil, trivial, hcount⟩
      refine iff_of_false List.not_mem_nil ?_
      rintro ⟨hc, hparent⟩
      obtain ⟨addr', q, hparent', hq⟩ := h.parent c hc
      rw [(hw.ents c hc).2.2.2, hparent'] at hparent
      obtain rfl := Option.some.inj hparent
      rw [hnone] at hq
      cases hq
  · obtain ⟨addr, q, hparent, hq⟩ := h.parent c hc
    obtain ⟨q', hq'⟩ := hw.lists.old hq
    exact ⟨addr, q', ((hw.ents c hc).2.2.2).trans hparent, hq'⟩

theorem mem_place {prio : C → ℤ} : c ∈ place prio qe l ↔ c = qe ∨ c ∈ l := by
  unfold place
  rw [List.mem_append, List.mem_cons]
  conv_rhs => rw [← List.takeWhile_append_dropWhile (p := fun c => decide (prio qe ≤ prio c)) (l := l)]
  rw [List.mem_append]
  tauto

theorem nodup_place {prio : C → ℤ} (hnd : l.Nodup) (hqe : qe ∉ l) : (place prio qe l).Nodup := by
  unfold place
  have hall := List.takeWhile_append_dropWhile (p := fun c => decide (prio qe ≤ prio c)) (l := l)
  rw [List.nodup_middle, List.nodup_cons, hall]
  exact ⟨hqe, hnd⟩

/-- **A sorted list stays sorted** with a caller in his place who comes after all
others. -/
theorem sorted_place {before : C → C → Prop} {prio : C → ℤ}
    (hprio : ∀ c ∈ l, ∀ d ∈ l, before c d → prio d ≤ prio c) (hs : l.Pairwise before)
    (hfirst : ∀ c ∈ l, prio qe ≤ prio c → before c qe)
    (hlast : ∀ c ∈ l, prio c < prio qe → before qe c) : (place prio qe l).Pairwise before := by
  induction l with
  | nil => simp [place]
  | cons c l ih =>
    rw [List.pairwise_cons] at hs
    by_cases hc : prio qe ≤ prio c
    · have hplace : place prio qe (c :: l) = c :: place prio qe l := by simp [place, hc]
      rw [hplace, List.pairwise_cons]
      refine ⟨fun d hd => ?_, ih (fun a ha b hb => ?_) hs.2 (fun a ha => ?_) fun a ha => ?_⟩
      · rcases mem_place.1 hd with rfl | hd
        · exact hfirst c List.mem_cons_self hc
        · exact hs.1 d hd
      · exact hprio a (List.mem_cons_of_mem _ ha) b (List.mem_cons_of_mem _ hb)
      · exact hfirst a (List.mem_cons_of_mem _ ha)
      · exact hlast a (List.mem_cons_of_mem _ ha)
    · have hplace : place prio qe (c :: l) = qe :: c :: l := by simp [place, hc]
      rw [hplace, List.pairwise_cons, List.pairwise_cons]
      refine ⟨fun d hd => hlast d hd ?_, hs⟩
      rcases List.mem_cons.1 hd with rfl | hd'
      · omega
      · have hle := hprio c List.mem_cons_self d hd (hs.1 d hd')
        omega

variable [DecidableEq C]

/-- The system once a caller has joined a queue. -/
def Sys.enrolled (s : Sys C) (addr : ℕ) (qe : C) (st : Joining C) : Sys C where
  world :=
    { queues := s.world.queues.set addr { st.q with count := st.q.count + 1 }, ents := st.ents }
  joined := Function.update s.joined qe true
  arrival := Function.update s.arrival qe s.clock
  clock := s.clock + 1

/-- **Joining** keeps the invariant. -/
theorem Sys.Inv.join {st : Joining C} (h : s.Inv) (hfree : s.joined qe = false)
    (hq : s.world.queues[addr]? = some q)
    (hloop : joinLoop addr qe fuel
      { q, ents := s.world.ents, prev := none, pos := 0, inserted := false } q.head = some st) :
    (s.enrolled addr qe (finish addr qe st)).Inv := by
  obtain ⟨l, hl⟩ := h.lists addr q hq
  have hlt := (List.getElem?_eq_some_iff.1 hq).1
  have hne : ∀ c, s.joined c = true → c ≠ qe := by
    rintro c hc rfl
    rw [hfree] at hc
    cases hc
  have hqe : qe ∉ l := fun hmem => hne qe (hl.callers hmem) rfl
  have hplaced := joinLoop_spec (P := []) (S := l) rfl hl.lined (by simpa using hl.lined.head) rfl rfl
    trivial hl.nodup hqe hloop
  rw [List.nil_append] at hplaced
  change Placed addr qe _ _ (place (fun c => (s.world.ents c).prio) qe l) at hplaced
  generalize finish addr qe st = f at hplaced
  have hprio : ∀ c, (f.ents c).prio = (s.world.ents c).prio := hplaced.prio
  have harr : ∀ c, c ≠ qe → (s.enrolled addr qe f).arrival c = s.arrival c := fun c hc =>
    Function.update_of_ne hc ..
  have hjoin : ∀ c, c ≠ qe → (s.enrolled addr qe f).joined c = s.joined c := fun c hc =>
    Function.update_of_ne hc ..
  have hjoinqe : (s.enrolled addr qe f).joined qe = true := Function.update_self ..
  have harrqe : (s.enrolled addr qe f).arrival qe = s.clock := Function.update_self ..
  have hparent : ∀ c, (s.enrolled addr qe f).joined c = true ∧
      (f.ents c).parent = some addr ↔ c = qe ∨ s.joined c = true ∧
        (s.world.ents c).parent = some addr := by
    intro c
    by_cases hc : c = qe
    · subst hc
      simp [hjoinqe, hplaced.own]
    · rw [hjoin c hc, hplaced.parent c hc]
      simp [hc]
  refine ⟨fun addr' q' hq' => ?_, fun c hc => ?_, fun c hc => ?_⟩
  · by_cases haddr : addr = addr'
    · subst haddr
      have hq'' : q' = { f.q with count := f.q.count + 1 } := by
        rw [Sys.enrolled, List.getElem?_set_self hlt] at hq'
        exact (Option.some.inj hq').symm
      subst hq''
      refine ⟨_, hplaced.lined, nodup_place hl.nodup hqe, fun c => ?_, ?_, hplaced.numbered, ?_⟩
      · rw [mem_place, hl.mem c]
        exact (hparent c).symm
      · have hkeep : l.Pairwise (s.enrolled addr qe f).Before := by
          refine hl.sorted.imp_of_mem fun {c d} hc hd hbefore => ?_
          unfold Sys.Before at hbefore ⊢
          rw [harr c (hne c (hl.callers hc)), harr d (hne d (hl.callers hd))]
          simpa only [Sys.enrolled, hprio] using hbefore
        refine sorted_place (fun c _ d _ hbefore => ?_) hkeep (fun c hc hle => ?_) fun c hc hgt => ?_
        · unfold Sys.Before at hbefore
          simp only [Sys.enrolled, hprio] at hbefore
          omega
        · unfold Sys.Before
          rw [harr c (hne c (hl.callers hc)), harrqe]
          simp only [Sys.enrolled, hprio]
          have hearlier := h.arrival c (hl.callers hc)
          omega
        · unfold Sys.Before
          simp only [Sys.enrolled, hprio]
          exact Or.inl hgt
      · have hlen : (place (fun c => (s.world.ents c).prio) qe l).length = l.length + 1 := by
          have hall := congrArg List.length (List.takeWhile_append_dropWhile
            (p := fun c => decide ((s.world.ents qe).prio ≤ (s.world.ents c).prio)) (l := l))
          rw [List.length_append] at hall
          rw [place, List.length_append, List.length_cons]
          omega
        have hcount : f.q.count = q.count := by rw [hplaced.queue]
        show f.q.count + 1 = _
        rw [hcount, hl.count, hlen]
        omega
    · have hold : s.world.queues[addr']? = some q' := by
        rwa [Sys.enrolled, List.getElem?_set_ne haddr] at hq'
      obtain ⟨l', hl'⟩ := h.lists addr' q' hold
      have hsame : ∀ c ∈ l', f.ents c = s.world.ents c := by
        intro c hc
        refine hplaced.frame c fun hmem => ?_
        rcases mem_place.1 hmem with rfl | hmem
        · exact hne c (hl'.callers hc) rfl
        · have hpc := ((hl.mem c).1 hmem).2
          rw [((hl'.mem c).1 hc).2] at hpc
          exact haddr (Option.some.inj hpc).symm
      refine ⟨l', ?_, hl'.nodup, fun c => ?_, ?_, ?_, hl'.count⟩
      · show Leads (fun c => (f.ents c).next) q'.head l' none
        exact hl'.lined.frame fun c hc => by rw [hsame c hc]
      · rw [hl'.mem c]
        by_cases hc : c = qe
        · subst hc
          refine iff_of_false (fun hno => hne c hno.1 rfl) fun hno => haddr ?_
          exact Option.some.inj (hplaced.own.symm.trans hno.2)
        · rw [hjoin c hc]
          simp only [Sys.enrolled, hplaced.parent c hc]
      · refine hl'.sorted.imp_of_mem fun {c d} hc hd hbefore => ?_
        unfold Sys.Before at hbefore ⊢
        rw [harr c (hne c (hl'.callers hc)), harr d (hne d (hl'.callers hd))]
        simpa only [Sys.enrolled, hprio] using hbefore
      · show Numbered f.ents l' 0
        exact hl'.numbered.frame fun c hc => by rw [hsame c hc]
  · by_cases hcqe : c = qe
    · subst hcqe
      rw [harrqe]
      exact Nat.lt_succ_self _
    · rw [hjoin c hcqe] at hc
      rw [harr c hcqe]
      exact Nat.lt_succ_of_lt (h.arrival c hc)
  · by_cases hcqe : c = qe
    · subst hcqe
      exact ⟨addr, _, hplaced.own, List.getElem?_set_self hlt⟩
    · rw [hjoin c hcqe] at hc
      obtain ⟨addr', q', hpc, hq'⟩ := h.parent c hc
      have hex : ∃ q'', (s.enrolled addr qe f).world.queues[addr']? = some q'' := by
        have hlt' := (List.getElem?_eq_some_iff.1 hq').1
        exact ⟨_, List.getElem?_eq_getElem (by simpa [Sys.enrolled] using hlt')⟩
      obtain ⟨q'', hq''⟩ := hex
      exact ⟨addr', q'', (hplaced.parent c hcqe).trans hpc, hq''⟩

/-- The system once a caller has left a queue, which is then as `q`. -/
def Sys.released (s : Sys C) (addr : ℕ) (qe : C) (q : CallQueue C) (ents : C → QueueEnt C) :
    Sys C :=
  { s with
    world := { queues := s.world.queues.set addr q, ents := ents }
    joined := Function.update s.joined qe false }

theorem length_filter_ne (l : List C) (qe : C) :
    (l.length : ℤ) - l.count qe = (l.filter (· ≠ qe)).length := by
  have hlen := List.length_eq_countP_add_countP (fun c => c == qe) (l := l)
  have hcount : l.countP (fun c => c == qe) = l.count qe := rfl
  have hfilter : l.countP (fun c => decide ¬ (c == qe) = true) = (l.filter (· ≠ qe)).length := by
    rw [List.countP_eq_length_filter]
    congr 1
    refine List.filter_congr fun c _ => ?_
    simp
  rw [hcount, hfilter] at hlen
  omega

/-- **Leaving** keeps the invariant. -/
theorem Sys.Inv.left {q' q'' : CallQueue C} {ents' : C → QueueEnt C} (h : s.Inv)
    (hparent : (s.world.ents qe).parent = some addr) (hq : s.world.queues[addr]? = some q)
    (hloop : leaveLoop qe fuel q s.world.ents q.head none 0 = some (q', ents'))
    (hwaits : q''.waits = q'.waits) : (s.released addr qe q'' ents').Inv := by
  obtain ⟨l, hl⟩ := h.lists addr q hq
  have hlt := (List.getElem?_eq_some_iff.1 hq).1
  obtain ⟨hhead, hcount⟩ := Prod.mk.inj hwaits
  obtain ⟨hleft, hnum⟩ := leaveLoop_spec (P := []) (S := l) hl.lined (by simpa using hl.lined.head)
    rfl rfl trivial hl.nodup hloop
  rw [List.nil_append, List.nil_append] at hleft
  have hjoin : ∀ c, (s.released addr qe q'' ents').joined c = true ↔ c ≠ qe ∧ s.joined c = true := by
    intro c
    by_cases hc : c = qe
    · subst hc
      simp [Sys.released]
    · simp [Sys.released, hc]
  have hbefore : ∀ c d, s.Before c d → (s.released addr qe q'' ents').Before c d := by
    intro c d hcd
    unfold Sys.Before at hcd ⊢
    simpa only [Sys.released, (hleft.same c).1, (hleft.same d).1] using hcd
  refine ⟨fun addr' x hx => ?_, fun c hc => ?_, fun c hc => ?_⟩
  · by_cases haddr : addr = addr'
    · subst haddr
      obtain rfl : q'' = x := by
        rw [Sys.released, List.getElem?_set_self hlt] at hx
        exact Option.some.inj hx
      refine ⟨l.filter (· ≠ qe), ?_, hl.nodup.filter _, fun c => ?_, ?_, hleft.numbered, ?_⟩
      · show Leads (fun c => (ents' c).next) q''.head _ none
        rw [hhead]
        exact hleft.lined
      · rw [List.mem_filter, hl.mem c, hjoin c]
        show _ ↔ _ ∧ (ents' c).parent = some addr
        rw [(hleft.same c).2, decide_eq_true_iff]
        tauto
      · exact (hl.sorted.imp fun {c d} => hbefore c d).filter _
      · rw [hcount, hnum, hl.count, length_filter_ne]
    · have hold : s.world.queues[addr']? = some x := by
        rwa [Sys.released, List.getElem?_set_ne haddr] at hx
      obtain ⟨l', hl'⟩ := h.lists addr' x hold
      have hsame : ∀ c ∈ l', ents' c = s.world.ents c := by
        intro c hc
        refine hleft.frame c fun hmem => ?_
        have hpc := ((hl.mem c).1 hmem).2
        rw [((hl'.mem c).1 hc).2] at hpc
        exact haddr (Option.some.inj hpc).symm
      refine ⟨l', ?_, hl'.nodup, fun c => ?_, hl'.sorted.imp fun {c d} => hbefore c d, ?_, hl'.count⟩
      · show Leads (fun c => (ents' c).next) x.head l' none
        exact hl'.lined.frame fun c hc => by rw [hsame c hc]
      · rw [hl'.mem c, hjoin c]
        show _ ↔ _ ∧ (ents' c).parent = some addr'
        rw [(hleft.same c).2]
        refine ⟨fun ⟨hc, hpc⟩ => ⟨⟨?_, hc⟩, hpc⟩, fun ⟨⟨_, hc⟩, hpc⟩ => ⟨hc, hpc⟩⟩
        rintro rfl
        exact haddr (Option.some.inj (hparent.symm.trans hpc))
      · show Numbered ents' l' 0
        exact hl'.numbered.frame fun c hc => by rw [hsame c hc]
  · exact h.arrival c ((hjoin c).1 hc).2
  · obtain ⟨addr', x, hpc, hx⟩ := h.parent c ((hjoin c).1 hc).2
    have hex : ∃ x', (s.released addr qe q'' ents').world.queues[addr']? = some x' := by
      have hlt' := (List.getElem?_eq_some_iff.1 hx).1
      exact ⟨_, List.getElem?_eq_getElem (by simpa [Sys.released] using hlt')⟩
    obtain ⟨x', hx'⟩ := hex
    exact ⟨addr', x', ((hleft.same c).2).trans hpc, hx'⟩

/-- A caller sets what is his own and loads a queue. -/
theorem untouched_enter (prio maxPenalty minPenalty : ℤ) (hfree : s.joined qe = false)
    (hlists : SameLists s.world.queues queues) :
    Untouched s { s.world.enter qe prio maxPenalty minPenalty with queues } := by
  refine ⟨hlists, fun c hc => ?_⟩
  have hne : c ≠ qe := by
    rintro rfl
    rw [hfree] at hc
    cases hc
  simp [World.enter, hne]

/-- **A step keeps the invariant.** -/
theorem Sys.Step.inv {e : Event C} (hstep : s.Step autofillDefault e t) (h : s.Inv) : t.Inv := by
  cases e with
  | other =>
    obtain ⟨w, hw, rfl⟩ := hstep
    exact h.other hw
  | leave qe defined =>
    obtain ⟨fuel, w, hrun, rfl⟩ := hstep
    unfold leaveQueue at hrun
    cases hparent : (s.world.ents qe).parent with
    | none =>
      rw [hparent] at hrun
      obtain rfl := Option.some.inj hrun
      have hno : s.joined qe = false := by
        by_contra hyes
        obtain ⟨addr, q, hp, -⟩ := h.parent qe (by simpa using hyes)
        rw [hparent] at hp
        cases hp
      rw [show Function.update s.joined qe false = s.joined from by rw [← hno, Function.update_eq_self]]
      exact h
    | some addr =>
      rw [hparent] at hrun
      obtain ⟨q, hq, hrun⟩ := Option.bind_eq_some_iff.1 hrun
      obtain ⟨⟨q', ents'⟩, hloop, hrun⟩ := Option.bind_eq_some_iff.1 hrun
      obtain rfl := Option.some.inj hrun
      refine h.left hparent hq hloop ?_
      split <;> split <;> rfl
  | join queuename qe prio maxPenalty minPenalty now reason rt =>
    obtain ⟨hfree, fuel, w, res, reason', hrun, rfl⟩ := hstep
    unfold joinQueue at hrun
    obtain ⟨⟨queues, r⟩, hload, hrun⟩ := Option.bind_eq_some_iff.1 hrun
    have hloaded := h.other
      (untouched_enter prio maxPenalty minPenalty hfree (loadRealtimeQueue_lists hload))
    cases r with
    | none =>
      obtain ⟨rfl, hres⟩ := Prod.mk.inj (Option.some.inj hrun)
      obtain ⟨rfl, -⟩ := Prod.mk.inj hres
      exact hloaded
    | some addr =>
      unfold joinLoaded at hrun
      obtain ⟨q, hq, hrun⟩ := Option.bind_eq_some_iff.1 hrun
      split at hrun
      · obtain ⟨rfl, hres⟩ := Prod.mk.inj (Option.some.inj hrun)
        obtain ⟨rfl, -⟩ := Prod.mk.inj hres
        exact hloaded
      split at hrun
      · obtain ⟨st, hloop, hrun⟩ := Option.bind_eq_some_iff.1 hrun
        obtain ⟨rfl, hres⟩ := Prod.mk.inj (Option.some.inj hrun)
        obtain ⟨rfl, -⟩ := Prod.mk.inj hres
        exact hloaded.join hfree hq hloop
      · obtain ⟨rfl, hres⟩ := Prod.mk.inj (Option.some.inj hrun)
        obtain ⟨rfl, -⟩ := Prod.mk.inj hres
        exact hloaded

/-! ## Whose turn it is -/

/-- `is_our_turn` returns 1. -/
def Sys.HasTurn (s : Sys C) (c : C) : Prop := ∃ fuel, isOurTurn fuel s.world c = some true

/-- **`is_our_turn` returns** for a caller of a queue. -/
theorem Waits.isOurTurn_returns (h : Waits s addr q l) (hq : s.world.queues[addr]? = some q)
    (hparent : (s.world.ents c).parent = some addr) :
    ∃ fuel b, isOurTurn fuel s.world c = some b := by
  obtain ⟨r, hr⟩ : ∃ r, turnLoop s.world.ents (numAvailableMembers q) c l.length 0 q.head =
      some r := turnLoop_ends h.lined (Nat.le_refl _)
  refine ⟨l.length, ?_⟩
  unfold isOurTurn
  simp only [hparent, hq, Option.bind_eq_bind, Option.bind_some, hr]
  exact ⟨_, rfl⟩

/-- **A caller with his turn** waits in the queue, with fewer before him than
members are available, and is the first without `autofill`. -/
theorem Waits.turn (h : Waits s addr q l) (hq : s.world.queues[addr]? = some q)
    (hparent : (s.world.ents c).parent = some addr) (hturn : s.HasTurn c) :
    c ∈ l ∧ aheadOf s.world.ents c l < numAvailableMembers q ∧
      (q.autofill = true ∨ (s.world.ents c).pos = 1) := by
  obtain ⟨fuel, hrun⟩ := hturn
  unfold isOurTurn at hrun
  simp only [hparent, hq, Option.bind_eq_bind, Option.bind_some] at hrun
  obtain ⟨⟨idx, ch⟩, hloop, hrun⟩ := Option.bind_eq_some_iff.1 hrun
  have hspec := turnLoop_spec h.lined hloop
  have htrue := Option.some.inj hrun
  simp only [Bool.and_eq_true, Bool.or_eq_true, decide_eq_true_eq] at htrue
  obtain ⟨hmem, hahead⟩ := hspec.1 htrue.1
  exact ⟨hmem, by omega, htrue.2⟩

theorem Waits.turn_first (h : Waits s addr q l) (hq : s.world.queues[addr]? = some q)
    (hparent : (s.world.ents c).parent = some addr) (hturn : s.HasTurn c)
    (hauto : q.autofill = false) : q.head = some c := by
  obtain ⟨hmem, -, hor⟩ := h.turn hq hparent hturn
  have hpos := hor.resolve_left (by simp [hauto])
  obtain ⟨k, hk⟩ := List.mem_iff_getElem?.1 hmem
  have hnum := h.numbered.pos hk
  obtain rfl : k = 0 := by omega
  have hhead := h.lined.head
  rw [Option.or_none] at hhead
  rw [hhead, List.head?_eq_getElem?, hk]

theorem Waits.turn_bound (h : Waits s addr q l) (hq : s.world.queues[addr]? = some q)
    {cs : List C} (hnd : cs.Nodup) (hcs : ∀ c ∈ cs, (s.world.ents c).parent = some addr ∧
      (s.world.ents c).pending = false ∧ s.HasTurn c) : cs.length ≤ numAvailableMembers q := by
  have hsub : cs ⊆ (l.filter fun d => !(s.world.ents d).pending).take (numAvailableMembers q) := by
    intro c hc
    obtain ⟨hparent, hpending, hturn⟩ := hcs c hc
    obtain ⟨hmem, hahead, -⟩ := h.turn hq hparent hturn
    exact mem_take_of_ahead hmem hpending hahead
  have hlen := hnd.length_le_of_subset hsub
  rw [List.length_take] at hlen
  omega

/-! ## Runs -/

/-- A queue without members. -/
def salesQueue : CallQueue ℕ :=
  { initQueue false (allocQueue ℕ (str "sales")) with linked := true }

/-- Nobody has joined. -/
def salesStart : Sys ℕ where
  world := { queues := [salesQueue], ents := fun _ => ⟨none, 0, 0, 0, false, 0, 0, none⟩ }
  joined _ := false
  arrival _ := 0
  clock := 0

/-- The database knows nothing. -/
def salesRealtime : Realtime := ⟨none, none, true⟩

/-- Caller 7 has joined. -/
def salesJoined : Sys ℕ where
  world :=
    (joinQueue false 1 (salesStart.world.enter 7 0 0 0) (str "sales") 7 0 .unknown
      salesRealtime).elim salesStart.world Prod.fst
  joined := Function.update salesStart.joined 7 true
  arrival := Function.update salesStart.arrival 7 0
  clock := 1

theorem salesJoined_step : Sys.Step false salesStart
    (.join (str "sales") 7 0 0 0 0 .unknown salesRealtime) salesJoined :=
  ⟨rfl, 1, salesJoined.world, 0, .unknown, rfl, rfl⟩

end Queue

end Trismedia
