import Trismedia.Common.Trace
import Trismedia.Queue.Model
/-!
# How many members a queue has

`membercount` is kept beside the container of members. Each call moves the two
together, but for one: loading the definition of a realtime queue again counts
the members that are there once more. So the count is right in a run exactly as
long as no queue that has members is loaded again.
-/


namespace Trismedia

namespace Queue

open CString Config

variable {C : Type} {autofillDefault : Bool} {q q' : CallQueue C} {queues queues' : Queues C}
variable {name : CString} {rt : Realtime} {i : ℕ}

/-! ## One queue -/

/-- What is counted beyond the members that are linked. -/
def CallQueue.excess (q : CallQueue C) : ℤ := q.membercount - q.members.length

theorem unlinkLoop_excess (gone : Member → Bool) (members : List Member) (n : ℤ) :
    (unlinkLoop gone members n).2 - (unlinkLoop gone members n).1.length = n - members.length := by
  induction members generalizing n with
  | nil => simp [unlinkLoop]
  | cons m members ih =>
    unfold unlinkLoop
    by_cases hg : gone m = true
    · rw [if_pos hg, ih, List.length_cons]
      omega
    · rw [if_neg hg]
      have hrest := ih n
      simp only [List.length_cons]
      omega

theorem updateFirst_length {found : Member → Bool} {write : Member → Member}
    {members members' : List Member} (h : updateFirst found write members = some members') :
    members'.length = members.length := by
  induction members generalizing members' with
  | nil => cases h
  | cons m members ih =>
    unfold updateFirst at h
    by_cases hf : found m = true
    · rw [if_pos hf] at h
      obtain rfl := Option.some.inj h
      rfl
    · rw [if_neg hf, Option.map_eq_some_iff] at h
      obtain ⟨rest, hrest, rfl⟩ := h
      rw [List.length_cons, List.length_cons, ih hrest]

theorem link_length (buckets : ℕ) (m : Member) (members : List Member) :
    (link buckets m members).length = members.length + 1 := by
  unfold link
  rw [List.length_append, List.length_cons, ← Nat.add_assoc, ← List.length_append,
    List.takeWhile_append_dropWhile]

theorem freeMembers_excess (q : CallQueue C) (all : Bool) :
    (freeMembers q all).excess = q.excess :=
  unlinkLoop_excess _ q.members q.membercount

theorem deleteDead_excess (q : CallQueue C) : (deleteDead q).excess = q.excess :=
  unlinkLoop_excess _ q.members q.membercount

theorem markDead_excess (q : CallQueue C) : (markDead q).excess = q.excess := by
  simp [CallQueue.excess, markDead]

theorem rtHandleMemberRecord_excess (q : CallQueue C) (r : MemberRecord) :
    (rtHandleMemberRecord q r).excess = q.excess := by
  unfold rtHandleMemberRecord
  split
  · rfl
  simp only
  split
  · rename_i members hwrite
    simp only [CallQueue.excess, updateFirst_length hwrite]
  split
  · rfl
  · simp only [CallQueue.excess, link_length]
    omega

theorem foldl_record_excess (q : CallQueue C) (memberConfig : List MemberRecord) :
    (memberConfig.foldl rtHandleMemberRecord q).excess = q.excess := by
  induction memberConfig generalizing q with
  | nil => rfl
  | cons r memberConfig ih => rw [List.foldl_cons, ih, rtHandleMemberRecord_excess]

theorem updateRealtimeMembers_excess (q : CallQueue C) (memberConfig : Option (List MemberRecord)) :
    (updateRealtimeMembers q memberConfig).excess = q.excess := by
  cases memberConfig with
  | none => rfl
  | some memberConfig =>
    rw [updateRealtimeMembers, deleteDead_excess, foldl_record_excess, markDead_excess]

/-- A parameter is no member. -/
theorem queueSetParam_members (q : CallQueue C) (param val : CString) :
    (queueSetParam q param val).members = q.members ∧
      (queueSetParam q param val).membercount = q.membercount := by
  unfold queueSetParam
  simp only
  repeat' split
  all_goals exact ⟨rfl, rfl⟩

theorem foldl_param_members (q : CallQueue C) (queueVars : List (CString × CString)) :
    (queueVars.foldl (fun q v => if trisStrlenZero (some v.2) then q
      else queueSetParam q (paramName v.1) v.2) q).members = q.members ∧
    (queueVars.foldl (fun q v => if trisStrlenZero (some v.2) then q
      else queueSetParam q (paramName v.1) v.2) q).membercount = q.membercount := by
  induction queueVars generalizing q with
  | nil => exact ⟨rfl, rfl⟩
  | cons v queueVars ih =>
    rw [List.foldl_cons, (ih _).1, (ih _).2]
    split
    · exact ⟨rfl, rfl⟩
    · exact queueSetParam_members q _ _

/-- **A definition that is loaded** counts the members it finds once more. -/
theorem loadDefinition_excess (q : CallQueue C) (queueVars : List (CString × CString))
    (memberConfig : List MemberRecord) :
    (loadDefinition autofillDefault q queueVars memberConfig).excess =
      q.excess + q.members.length := by
  obtain ⟨hmembers, hcount⟩ := foldl_param_members (initQueue autofillDefault q) queueVars
  unfold loadDefinition
  rw [deleteDead_excess, foldl_record_excess, markDead_excess]
  simp only [CallQueue.excess, hmembers, hcount]
  simp only [initQueue]
  omega

/-! ## All queues -/

/-- **The count is right** for each queue. -/
def Counted (queues : Queues C) : Prop := ∀ q ∈ queues, q.membercount = q.members.length

theorem counted_iff : Counted queues ↔ ∀ q ∈ queues, q.excess = 0 := by
  unfold Counted CallQueue.excess
  refine forall₂_congr fun q hq => ?_
  omega

/-- A queue is written as it counts. -/
theorem counted_set (h : queues[i]? = some q) (hq : q'.excess = q.excess) :
    Counted (queues.set i q') ↔ Counted queues := by
  have hlt := (List.getElem?_eq_some_iff.1 h).1
  rw [counted_iff, counted_iff]
  constructor
  · intro hall x hx
    obtain ⟨j, hj⟩ := List.mem_iff_getElem?.1 hx
    by_cases hij : i = j
    · subst hij
      obtain rfl := Option.some.inj (h.symm.trans hj)
      rw [← hq]
      exact hall q' (List.mem_iff_getElem?.2 ⟨i, by rw [List.getElem?_set_self hlt]⟩)
    · exact hall x (List.mem_iff_getElem?.2 ⟨j, by rw [List.getElem?_set_ne hij]; exact hj⟩)
  · intro hall x hx
    rcases List.mem_or_eq_of_mem_set hx with hx | rfl
    · exact hall x hx
    · rw [hq]
      exact hall q (List.mem_iff_getElem?.2 ⟨i, h⟩)

theorem queueFind_some (h : queueFind queues name = some (i, q)) : queues[i]? = some q := by
  unfold queueFind at h
  obtain ⟨j, -, hj⟩ := Option.bind_eq_some_iff.1 h
  obtain ⟨x, hx, hpair⟩ := Option.map_eq_some_iff.1 hj
  obtain ⟨rfl, rfl⟩ := Prod.mk.inj hpair
  exact hx

/-- **A queue that has members is loaded again.** -/
def Reloaded (queues : Queues C) (name : CString) (rt : Realtime) : Prop :=
  ∃ i q, queueFind queues name = some (i, q) ∧ q.realtime = true ∧ q.members ≠ [] ∧
    rt.queueVars.isSome ∧ rt.memberConfig.isSome

theorem findQueueByNameRt_counted {r : Option ℕ}
    (h : findQueueByNameRt autofillDefault queues name rt = some (queues', r))
    (hq : Counted queues) : Counted queues' ↔ ¬ Reloaded queues name rt := by
  unfold findQueueByNameRt at h
  unfold Reloaded
  cases hfind : queueFind queues name with
  | none =>
    rw [hfind] at h
    have hno : ¬ ∃ i q, (none : Option (ℕ × CallQueue C)) = some (i, q) ∧ q.realtime = true ∧
        q.members ≠ [] ∧ rt.queueVars.isSome ∧ rt.memberConfig.isSome := by
      rintro ⟨i, q, hiq, -⟩
      cases hiq
    refine iff_of_true ?_ hno
    simp only at h
    split at h
    · obtain ⟨rfl, -⟩ := Prod.mk.inj (Option.some.inj h)
      exact hq
    · obtain ⟨rfl, -⟩ := Prod.mk.inj (Option.some.inj h)
      exact hq
    · split at h
      · obtain ⟨rfl, -⟩ := Prod.mk.inj (Option.some.inj h)
        rw [counted_iff] at hq ⊢
        intro x hx
        rcases List.mem_append.1 hx with hx | hx
        · exact hq x hx
        · rw [List.mem_singleton] at hx
          rw [hx, loadDefinition_excess]
          rfl
      · obtain ⟨rfl, -⟩ := Prod.mk.inj (Option.some.inj h)
        exact hq
  | some found =>
    obtain ⟨i, q⟩ := found
    have hget := queueFind_some hfind
    rw [hfind] at h
    have hexcess : q.excess = 0 := counted_iff.1 hq q (List.mem_iff_getElem?.2 ⟨i, hget⟩)
    by_cases hreal : q.realtime = true
    · simp only [hreal, Bool.not_true, Bool.false_eq_true, if_false] at h
      cases hvars : rt.queueVars with
      | none =>
        rw [hvars] at h
        obtain ⟨rfl, -⟩ := Prod.mk.inj (Option.some.inj h)
        refine iff_of_true ((counted_set hget ?_).2 hq) (by simp)
        rfl
      | some queueVars =>
        rw [hvars] at h
        obtain ⟨memberConfig, hconf, hres⟩ := Option.map_eq_some_iff.1 h
        obtain ⟨rfl, -⟩ := Prod.mk.inj hres
        by_cases hnil : q.members = []
        · rw [counted_set hget (by rw [loadDefinition_excess, hnil]; simp)]
          simp [hq, hnil]
        · have hyes : ∃ i' q', some (i, q) = some (i', q') ∧ q'.realtime = true ∧
              q'.members ≠ [] ∧ (some queueVars).isSome ∧ rt.memberConfig.isSome :=
            ⟨i, q, rfl, hreal, hnil, rfl, by rw [hconf]; rfl⟩
          refine iff_of_false (fun hno => ?_) (not_not_intro hyes)
          have hlt := (List.getElem?_eq_some_iff.1 hget).1
          have hzero := counted_iff.1 hno _
            (List.mem_iff_getElem?.2 ⟨i, by rw [List.getElem?_set_self hlt]⟩)
          rw [loadDefinition_excess, hexcess] at hzero
          have hpos := List.length_pos_iff.2 hnil
          omega
    · simp only [hreal, Bool.not_false, if_true] at h
      obtain ⟨rfl, -⟩ := Prod.mk.inj (Option.some.inj h)
      refine iff_of_true hq ?_
      rintro ⟨i', q', hiq, hreal', -⟩
      obtain ⟨-, rfl⟩ := Prod.mk.inj (Option.some.inj hiq)
      exact hreal hreal'

theorem loadFromRealtime_counted {r : Option ℕ}
    (h : loadFromRealtime autofillDefault queues name rt = some (queues', r))
    (hq : Counted queues) : Counted queues' ↔ ¬ Reloaded queues name rt := by
  unfold loadFromRealtime at h
  by_cases hvars : rt.queueVars = none
  · rw [if_pos hvars] at h
    have hno : ¬ Reloaded queues name rt := by
      rintro ⟨i, q, -, -, -, hsome, -⟩
      rw [hvars] at hsome
      cases hsome
    have hno' : ¬ Reloaded queues name { rt with memberConfig := none } := by
      rintro ⟨i, q, -, -, -, -, hsome⟩
      cases hsome
    exact iff_of_true ((findQueueByNameRt_counted h hq).2 hno') hno
  rw [if_neg hvars] at h
  by_cases hconf : rt.memberConfig.isNone = true
  · rw [if_pos hconf] at h
    obtain ⟨rfl, -⟩ := Prod.mk.inj (Option.some.inj h)
    refine iff_of_true hq ?_
    rintro ⟨i, q, -, -, -, -, hsome⟩
    rw [Option.isNone_iff_eq_none] at hconf
    rw [hconf] at hsome
    cases hsome
  · rw [if_neg hconf] at h
    exact findQueueByNameRt_counted h hq

theorem loadRealtimeQueue_counted {r : Option ℕ}
    (h : loadRealtimeQueue autofillDefault queues name rt = some (queues', r))
    (hq : Counted queues) : Counted queues' ↔ ¬ Reloaded queues name rt := by
  unfold loadRealtimeQueue at h
  cases hfind : queueFind queues name with
  | none =>
    rw [hfind] at h
    exact loadFromRealtime_counted h hq
  | some found =>
    obtain ⟨i, q⟩ := found
    rw [hfind] at h
    simp only at h
    by_cases hreal : q.realtime = true
    · rw [if_pos hreal] at h
      exact loadFromRealtime_counted h hq
    · rw [if_neg hreal] at h
      obtain ⟨rfl, -⟩ := Prod.mk.inj (Option.some.inj h)
      refine iff_of_true ?_ ?_
      · exact (counted_set (queueFind_some hfind) (updateRealtimeMembers_excess q _)).2 hq
      · rintro ⟨i', q', hiq, hreal', -⟩
        rw [hfind] at hiq
        obtain ⟨-, rfl⟩ := Prod.mk.inj (Option.some.inj hiq)
        exact hreal hreal'

theorem addToQueue_counted {interface : CString} {membername stateInterface : Option CString}
    {penalty paused : ℤ} {made : Option DeviceState} {res : Res}
    (h : addToQueue autofillDefault queues name interface membername penalty paused stateInterface
      made rt = some (queues', res)) (hq : Counted queues) :
    Counted queues' ↔ ¬ Reloaded queues name rt := by
  unfold addToQueue at h
  obtain ⟨⟨loaded, r⟩, hload, h⟩ := Option.bind_eq_some_iff.1 h
  rw [← loadRealtimeQueue_counted hload hq]
  cases r with
  | none =>
    obtain ⟨rfl, -⟩ := Prod.mk.inj (Option.some.inj h)
    rfl
  | some i =>
    obtain ⟨q, hget, h⟩ := Option.bind_eq_some_iff.1 h
    split at h
    · split at h
      · obtain ⟨rfl, -⟩ := Prod.mk.inj (Option.some.inj h)
        rfl
      · obtain ⟨rfl, -⟩ := Prod.mk.inj (Option.some.inj h)
        refine counted_set hget ?_
        simp only [CallQueue.excess, link_length]
        omega
    · obtain ⟨rfl, -⟩ := Prod.mk.inj (Option.some.inj h)
      rfl

theorem removeFromQueue_counted (interface : CString) :
    Counted (removeFromQueue queues name interface).1 ↔ Counted queues := by
  unfold removeFromQueue
  cases hfind : queueFind queues name with
  | none => rfl
  | some found =>
    obtain ⟨i, q⟩ := found
    simp only
    split
    · rfl
    · rename_i mem hmem
      split
      · rfl
      · refine counted_set (queueFind_some hfind) ?_
        have hin := List.mem_of_find?_eq_some hmem
        have hlen := List.length_eraseP_of_mem hin (List.find?_some hmem)
        have hpos := List.length_pos_of_mem hin
        simp only [CallQueue.excess, hlen]
        omega

/-! ## Runs -/

/-- The calls that touch the members of a queue, with what the database answers
to them; a queue that the caller has is given by its address. -/
inductive Call
  | addToQueue (queuename interface : CString) (membername : Option CString) (penalty paused : ℤ)
      (stateInterface : Option CString) (made : Option DeviceState) (rt : Realtime)
  | removeFromQueue (queuename interface : CString)
  | updateRealtimeMembers (q : ℕ) (memberConfig : Option (List MemberRecord))
  | findQueueByNameRt (queuename : CString) (rt : Realtime)
  | freeMembers (q : ℕ) (all : Bool)

/-- The queues after a call. -/
def Call.run (autofillDefault : Bool) (queues : Queues C) : Call → Option (Queues C)
  | addToQueue queuename interface membername penalty paused stateInterface made rt =>
    (Queue.addToQueue autofillDefault queues queuename interface membername penalty paused
      stateInterface made rt).map Prod.fst
  | removeFromQueue queuename interface =>
    some (Queue.removeFromQueue queues queuename interface).1
  | updateRealtimeMembers q memberConfig =>
    queues[q]?.map fun x => queues.set q (Queue.updateRealtimeMembers x memberConfig)
  | findQueueByNameRt queuename rt =>
    (Queue.findQueueByNameRt autofillDefault queues queuename rt).map Prod.fst
  | freeMembers q all => queues[q]?.map fun x => queues.set q (Queue.freeMembers x all)

/-- **The call loads a queue again that has members.** -/
def Call.Reloads (queues : Queues C) : Call → Prop
  | addToQueue queuename _ _ _ _ _ _ rt => Reloaded queues queuename rt
  | findQueueByNameRt queuename rt => Reloaded queues queuename rt
  | _ => False

/-- **What a call keeps.** -/
theorem Call.run_counted {call : Call} (h : call.run autofillDefault queues = some queues')
    (hq : Counted queues) : Counted queues' ↔ ¬ call.Reloads queues := by
  cases call with
  | addToQueue queuename interface membername penalty paused stateInterface made rt =>
    obtain ⟨⟨qs, res⟩, hrun, rfl⟩ := Option.map_eq_some_iff.1 h
    exact addToQueue_counted hrun hq
  | removeFromQueue queuename interface =>
    obtain rfl := Option.some.inj h
    rw [removeFromQueue_counted]
    exact iff_of_true hq id
  | updateRealtimeMembers i memberConfig =>
    obtain ⟨q, hget, rfl⟩ := Option.map_eq_some_iff.1 h
    rw [counted_set hget (updateRealtimeMembers_excess q memberConfig)]
    exact iff_of_true hq id
  | findQueueByNameRt queuename rt =>
    obtain ⟨⟨qs, r⟩, hrun, rfl⟩ := Option.map_eq_some_iff.1 h
    exact findQueueByNameRt_counted hrun hq
  | freeMembers i all =>
    obtain ⟨q, hget, rfl⟩ := Option.map_eq_some_iff.1 h
    rw [counted_set hget (freeMembers_excess q all)]
    exact iff_of_true hq id

/-- A queue of the database with one member. -/
def sales : Realtime where
  queueVars := some []
  memberConfig := some [⟨str "SIP/1", some (str "1"), none, none, none, none, some .notInuse⟩]
  made := true

end Queue

end Trismedia
