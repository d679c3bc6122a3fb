import Trismedia.Sched.Calls
/-!
# The scheduler over every run

A run is any sequence of additions, deletions and replacements with any
number of `tris_sched_runq` passes in progress. A pass begins, calls the
callback of an entry, takes up the callback's result, and ends; while a
callback runs, every other step may be taken, by the callback or by
another thread. `sched_runs` says what holds between the steps of a run
that makes fewer than `2 ^ 31` additions.
-/


namespace Trismedia

namespace Sched

open Heap Hashtab

/-- A pass of `tris_sched_runq` in progress: its limit, and the entry
whose callback it has called. -/
structure Pass where
  limit : Timeval
  current : Option Ptr
  deriving DecidableEq

/-- A context and the passes in progress on it. -/
structure SchedState where
  con : SchedContext
  passes : Multiset Pass

/-- The entries whose callbacks run. -/
def running (passes : Multiset Pass) : Multiset Ptr := passes.filterMap Pass.current

/-- What happens, with what each call returns; `delRet` is the value of
`TRIS_SCHED_DEL` in a replacement. -/
inductive SchedEvent
  | add (when : ℤ) (callback data : ℕ) (variableRes ret : ℤ)
  | del (id ret : ℤ)
  | replaceVariable (oldId when : ℤ) (callback data : ℕ) (variableRes delRet ret : ℤ)
  | replace (oldId when : ℤ) (callback data : ℕ) (delRet ret : ℤ)
  | runqBegin
  | runqCall (id : ℤ) (callback data : ℕ)
  | runqReturn (id res : ℤ)
  | runqEnd
  deriving DecidableEq

/-- **The steps of a scheduler.** Each is atomic, under the lock of the
context; the lock is free while a callback runs. -/
inductive SchedStep : SchedState → SchedEvent → SchedState → Prop
  | add {con con' passes env when callback data variableRes ret} : IsInt when → env.Fresh con →
      trisSchedAddVariable con env when callback data variableRes = some (con', ret) →
      SchedStep ⟨con, passes⟩ (.add when callback data variableRes ret) ⟨con', passes⟩
  | del {con con' passes id ret} : trisSchedDel con id = some (con', ret) →
      SchedStep ⟨con, passes⟩ (.del id ret) ⟨con', passes⟩
  | replaceVariable {con con₁ con' passes env oldId when callback data variableRes delRet ret} :
      IsInt when → replaceVariableDel con oldId = some (con₁, delRet) → env.Fresh con₁ →
      trisSchedReplaceVariable con env oldId when callback data variableRes = some (con', ret) →
      SchedStep ⟨con, passes⟩ (.replaceVariable oldId when callback data variableRes delRet ret)
        ⟨con', passes⟩
  | replace {con con₁ con' passes env oldId when callback data delRet ret} :
      IsInt when → replaceDel con oldId = some (con₁, delRet) → env.Fresh con₁ →
      trisSchedReplace con env oldId when callback data = some (con', ret) →
      SchedStep ⟨con, passes⟩ (.replace oldId when callback data delRet ret) ⟨con', passes⟩
  | runqBegin {con passes} (now : Clock) :
      SchedStep ⟨con, passes⟩ .runqBegin ⟨con, ⟨runqLimit now, none⟩ ::ₘ passes⟩
  | runqCall {con con' passes limit p e} : runqNext con limit = some (con', some p) →
      con'.mem p = some e →
      SchedStep ⟨con, ⟨limit, none⟩ ::ₘ passes⟩ (.runqCall e.id e.callback e.data)
        ⟨con', ⟨limit, some p⟩ ::ₘ passes⟩
  | runqReturn {con con' passes limit p res env} : IsInt res →
      con.schedqHt.object env.addr = none → runqReturn con p res env = some con' →
      SchedStep ⟨con, ⟨limit, some p⟩ ::ₘ passes⟩ (.runqReturn (idOf con.mem p) res)
        ⟨con', ⟨limit, none⟩ ::ₘ passes⟩
  | runqEnd {con con' passes limit} : runqNext con limit = some (con', none) →
      SchedStep ⟨con, ⟨limit, none⟩ ::ₘ passes⟩ .runqEnd ⟨con', passes⟩

/-- Whether an event adds an entry. -/
def SchedEvent.isAdd : SchedEvent → Bool
  | add .. => true
  | replaceVariable .. => true
  | replace .. => true
  | _ => false

/-- The number of additions of a run. -/
def additions (evs : List SchedEvent) : ℕ := evs.countP SchedEvent.isAdd

/-- The id an event deletes successfully. -/
def SchedEvent.deleted : SchedEvent → Option ℤ
  | del id ret => if ret = 0 then some id else none
  | replaceVariable oldId _ _ _ _ delRet _ => if delRet = 0 then some oldId else none
  | replace oldId _ _ _ delRet _ => if delRet = 0 then some oldId else none
  | _ => none

/-- The ids that are no longer in use: deleted, or run and not wanted
again. -/
def SchedEvent.retired : SchedEvent → Option ℤ
  | runqReturn id res => if res = 0 then some id else none
  | ev => ev.deleted

/-- The ids retired in a run. -/
def retired (evs : List SchedEvent) : List ℤ := evs.reverse.filterMap SchedEvent.retired

/-- **What holds between the operations.** The heap, the table and the
count agree, ids are distinct, and no deleted entry was run after its
deletion. -/
structure SchedGood (evs : List SchedEvent) (con : SchedContext) : Prop where
  /-- The heap contains exactly the entries of the table. -/
  agree : ∃ os : List Ptr, traversal con.schedqHt = some os ∧
    (os : Multiset Ptr) = elements con.schedHeap
  ids : ((elements con.schedHeap).map (idOf con.mem)).Nodup
  cnt : con.schedcnt = Multiset.card (elements con.schedHeap)
  /-- After its deletion an entry is not run. -/
  gone : ∀ before after ev id, evs = before ++ ev :: after → ev.deleted = some id →
    ∀ callback data, .runqCall id callback data ∉ after
  /-- The calls return. -/
  returns : (∀ id, (trisSchedDel con id).isSome) ∧ (∀ limit, (runqNext con limit).isSome) ∧
    ∀ env when callback data variableRes, env.Fresh con →
      (trisSchedAddVariable con env when callback data variableRes).isSome

/-- What every step keeps, however many additions there were, and what it
keeps while the ids do not wrap around. -/
structure RunOk (evs : List SchedEvent) (st : SchedState) : Prop where
  ledger : Ledger st.con (running st.passes)
  entries : EntriesOk st.con (running st.passes)
  ids : additions evs < 2 ^ 31 → Ids st.con (running st.passes) (retired evs) ∧
    st.con.eventcnt = 1 + additions evs ∧
    ∀ before after ev id, evs = before ++ ev :: after → ev.retired = some id →
      ∀ callback data, .runqCall id callback data ∉ after

variable {con con' : SchedContext} {passes : Multiset Pass} {evs : List SchedEvent}
variable {st st' : SchedState} {ev : SchedEvent}

theorem running_none (limit : Timeval) (passes : Multiset Pass) :
    running (⟨limit, none⟩ ::ₘ passes) = running passes :=
  Multiset.filterMap_cons_none _ _ rfl

theorem running_some (limit : Timeval) (p : Ptr) (passes : Multiset Pass) :
    running (⟨limit, some p⟩ ::ₘ passes) = p ::ₘ running passes :=
  Multiset.filterMap_cons_some _ _ _ rfl

theorem additions_snoc (evs : List SchedEvent) (ev : SchedEvent) :
    additions (evs ++ [ev]) = additions evs + if ev.isAdd then 1 else 0 := by
  rw [additions, List.countP_append, List.countP_singleton]
  rfl

theorem retired_snoc (evs : List SchedEvent) (ev : SchedEvent) :
    retired (evs ++ [ev]) = ev.retired.toList ++ retired evs := by
  rw [retired, List.reverse_append, List.reverse_singleton, List.singleton_append]
  unfold retired
  cases h : ev.retired <;> simp [List.filterMap_cons, h]

theorem mem_retired {id : ℤ} (hev : ev ∈ evs) (hid : ev.retired = some id) : id ∈ retired evs :=
  List.mem_filterMap.2 ⟨ev, List.mem_reverse.2 hev, hid⟩

/-- What a successful deletion deletes is retired. -/
theorem SchedEvent.retired_of_deleted {id : ℤ} (h : ev.deleted = some id) :
    ev.retired = some id := by
  cases ev <;> first | exact h | cases h

/-- An event appended to a run: what is to show of its step. -/
theorem RunOk.snoc (hok : RunOk evs st) (hledger : Ledger st'.con (running st'.passes))
    (hentries : EntriesOk st'.con (running st'.passes))
    (hids : additions evs + 1 < 2 ^ 31 ∨ ev.isAdd = false →
      st.con.eventcnt = 1 + additions evs → Ids st.con (running st.passes) (retired evs) →
      Ids st'.con (running st'.passes) (ev.retired.toList ++ retired evs) ∧
        st'.con.eventcnt = st.con.eventcnt + if ev.isAdd then 1 else 0)
    (hcall : Ids st.con (running st.passes) (retired evs) →
      ∀ id callback data, ev = .runqCall id callback data → id ∉ retired evs) :
    RunOk (evs ++ [ev]) st' := by
  refine ⟨hledger, hentries, fun hlt => ?_⟩
  rw [additions_snoc] at hlt
  obtain ⟨hI, hcnt, hgone⟩ := hok.ids (by omega)
  obtain ⟨hI', hcnt'⟩ := hids (by cases hadd : ev.isAdd <;> simp [hadd] at hlt ⊢; omega) hcnt hI
  refine ⟨retired_snoc evs ev ▸ hI', by rw [hcnt', hcnt, additions_snoc, Nat.add_assoc], ?_⟩
  intro before after e id heq hid callback data hmem
  rcases List.eq_nil_or_concat' after with rfl | ⟨after', e', rfl⟩
  · cases hmem
  · rw [← List.cons_append, ← List.append_assoc] at heq
    obtain ⟨hevs, he⟩ := List.append_inj' heq rfl
    rcases List.mem_append.1 hmem with hmem | hmem
    · exact hgone before after' e id hevs hid callback data hmem
    · -- the entry called is live, so its id is not among the retired
      obtain rfl := List.mem_singleton.1 hmem
      refine hcall hI id callback data (List.singleton_inj.1 he) (mem_retired ?_ hid)
      rw [hevs]
      exact List.mem_append_right _ List.mem_cons_self

theorem mem_live_of_mem_queued {q : Ptr} {out : Multiset Ptr} (h : q ∈ queued con) :
    q ∈ live con out := Multiset.mem_add.2 (.inl h)

theorem toList_ite_append (ret id : ℤ) (D : List ℤ) :
    (if ret = 0 then some id else none).toList ++ D = if ret = 0 then id :: D else D := by
  split <;> rfl

/-- **One step keeps the invariant.** -/
theorem RunOk.step (hok : RunOk evs st) (hstep : SchedStep st ev st') : RunOk (evs ++ [ev]) st' := by
  have hL := hok.ledger
  have hE := hok.entries
  cases hstep with
  | @add con con' passes env when callback data variableRes ret hwhen hfresh heq =>
    obtain ⟨con'', id, heq', hL', hcnt', hids', hE'⟩ :=
      trisSchedAddVariable_spec hL hfresh when callback data variableRes
    rw [heq, Option.some.injEq, Prod.mk.injEq] at heq'
    obtain ⟨rfl, rfl⟩ := heq'
    refine hok.snoc hL' (hE' hwhen hE) (fun hlt hcnt hI => ?_) fun _ _ _ _ h => by cases h
    have hlt' : additions evs + 1 < 2 ^ 31 := hlt.resolve_right Bool.true_eq_false.mp
    exact ⟨hids' (by omega) (by omega) _ hI, by rw [hcnt', uint_of_lt (by omega)]; rfl⟩
  | @del con con' passes id ret heq =>
    obtain ⟨con'', ret', heq', hL', hcnt', -, hids', hE'⟩ := trisSchedDel_ledger hL id
    rw [heq, Option.some.injEq, Prod.mk.injEq] at heq'
    obtain ⟨rfl, rfl⟩ := heq'
    refine hok.snoc hL' (hE' hE) (fun _ _ hI => ⟨?_, hcnt'⟩) fun _ _ _ _ h => by cases h
    show Ids con' (running passes) ((if ret = 0 then some id else none).toList ++ retired evs)
    rw [toList_ite_append]
    exact hids' _ hI
  | @replaceVariable con con₁ con' passes env oldId when callback data variableRes delRet ret hwhen
      hdel hfresh heq =>
    obtain ⟨con₁', delRet', hdel', hL₁, hcnt₁, hids₁, hE₁⟩ := replaceVariableDel_ledger oldId hL
    rw [hdel, Option.some.injEq, Prod.mk.injEq] at hdel'
    obtain ⟨rfl, rfl⟩ := hdel'
    obtain ⟨con'', id, hadd, hL', hcnt', hids', hE'⟩ :=
      trisSchedAddVariable_spec hL₁ hfresh when callback data variableRes
    have hcon : con' = con'' := by
      simp only [trisSchedReplaceVariable, hdel, hadd, Option.bind_eq_bind, Option.bind_some,
        Option.some.injEq, Prod.mk.injEq] at heq
      exact heq.1.symm
    subst hcon
    refine hok.snoc hL' (hE' hwhen (hE₁ hE)) (fun hlt hcnt hI => ?_) fun _ _ _ _ h => by cases h
    have hlt' : additions evs + 1 < 2 ^ 31 := hlt.resolve_right Bool.true_eq_false.mp
    refine ⟨?_, by rw [hcnt', hcnt₁, uint_of_lt (by omega)]; rfl⟩
    show Ids con' (running passes) ((if delRet = 0 then some oldId else none).toList ++ retired evs)
    rw [toList_ite_append]
    exact hids' (by omega) (by omega) _ (hids₁ _ hI)
  | @replace con con₁ con' passes env oldId when callback data delRet ret hwhen hdel hfresh heq =>
    obtain ⟨con₁', delRet', hdel', hL₁, hcnt₁, hids₁, hE₁⟩ := replaceDel_ledger oldId hL
    rw [hdel, Option.some.injEq, Prod.mk.injEq] at hdel'
    obtain ⟨rfl, rfl⟩ := hdel'
    obtain ⟨con'', id, hadd, hL', hcnt', hids', hE'⟩ :=
      trisSchedAddVariable_spec hL₁ hfresh when callback data 0
    have hcon : con' = con'' := by
      simp only [trisSchedReplace, trisSchedAdd, hdel, hadd, Option.bind_eq_bind, Option.bind_some,
        Option.some.injEq, Prod.mk.injEq] at heq
      exact heq.1.symm
    subst hcon
    refine hok.snoc hL' (hE' hwhen (hE₁ hE)) (fun hlt hcnt hI => ?_) fun _ _ _ _ h => by cases h
    have hlt' : additions evs + 1 < 2 ^ 31 := hlt.resolve_right Bool.true_eq_false.mp
    refine ⟨?_, by rw [hcnt', hcnt₁, uint_of_lt (by omega)]; rfl⟩
    show Ids con' (running passes) ((if delRet = 0 then some oldId else none).toList ++ retired evs)
    rw [toList_ite_append]
    exact hids' (by omega) (by omega) _ (hids₁ _ hI)
  | @runqBegin con passes now =>
    rw [← running_none (runqLimit now)] at hL hE
    refine hok.snoc hL hE (fun _ _ hI => ⟨?_, rfl⟩) fun _ _ _ _ h => by cases h
    rw [running_none]
    exact hI
  | @runqCall con con' passes limit p e heq he =>
    rw [running_none] at hL hE
    rcases runqNext_ledger hL limit with hend | ⟨p', con'', heq', hL', hcnt', hmem, hpq, hids', hE'⟩
    · rw [hend, Option.some.injEq, Prod.mk.injEq] at heq
      cases heq.2
    · rw [heq, Option.some.injEq, Prod.mk.injEq, Option.some.injEq] at heq'
      obtain ⟨rfl, rfl⟩ := heq'
      have hE'' := hE' hE
      rw [← running_some limit] at hL' hE''
      refine hok.snoc hL' hE'' (fun _ _ hI => ⟨?_, hcnt'⟩) fun hI id callback data hev hid => ?_
      · rw [running_none] at hI
        rw [running_some]
        exact hids' _ hI
      · have hide : e.id = id := by injection hev
        rw [running_none] at hI
        refine (hI.dead id hid).2 p (mem_live_of_mem_queued hpq) ?_
        rw [← hmem, idOf, he, ← hide]
        rfl
  | @runqReturn con con' passes limit p res env hres hfresh heq =>
    rw [running_some] at hL hE
    obtain ⟨con'', heq', hL', hcnt', hids', hE'⟩ := runqReturn_ledger hL res hfresh
    rw [heq, Option.some.injEq] at heq'
    subst heq'
    have hE'' := hE' hE
    rw [← running_none limit] at hL' hE''
    refine hok.snoc hL' hE'' (fun _ _ hI => ⟨?_, hcnt'⟩) fun _ _ _ _ h => by cases h
    rw [running_some] at hI
    rw [running_none]
    show Ids con' (running passes)
      ((if res = 0 then some (idOf con.mem p) else none).toList ++ retired evs)
    rw [toList_ite_append]
    exact hids' _ hI
  | @runqEnd con con' passes limit heq =>
    rw [running_none] at hL hE
    rcases runqNext_ledger hL limit with hend | ⟨p', con'', heq', -⟩
    · rw [hend, Option.some.injEq, Prod.mk.injEq] at heq
      obtain ⟨rfl, -⟩ := heq
      refine hok.snoc hL hE (fun _ _ hI => ⟨?_, rfl⟩) fun _ _ _ _ h => by cases h
      rw [running_none] at hI
      exact hI
    · rw [heq, Option.some.injEq, Prod.mk.injEq] at heq'
      cases heq'.2

/-- An empty queue and an empty cache are in order. -/
theorem ledger_of_empty (hheap : con.schedHeap = trisHeapCreate .tmp (fun _ => 0) 8 0)
    (htable : Holds (schedHash con.mem) con.schedqHt 0) (hcnt : con.schedcnt = 0)
    (hcache : con.schedc = []) : Ledger con 0 ∧ EntriesOk con 0 ∧ Ids con 0 [] := by
  have hqueued : queued con = 0 := by
    rw [queued, hheap]
    exact elements_eq_zero.2 rfl
  have hcur : con.schedHeap.curLen = 0 := by rw [hheap]; rfl
  have hqueue : QueueOk con 0 := by
    refine ⟨fun k h2 hk => ?_, by rw [hheap]; exact le_rfl, fun i hi hin => ?_,
      hqueued ▸ Multiset.nodup_zero, htable, Multiset.zero_le _, by rw [hqueued, hcnt]; rfl,
      hqueued ▸ Multiset.notMem_zero _⟩
    · rw [hcur] at hk
      omega
    · rw [hcur] at hin
      omega
  have hlive : live con 0 = 0 := by rw [live, hqueued, add_zero]
  have hplaces : places con 0 = 0 := by rw [places, hlive, hcache]; rfl
  refine ⟨⟨⟨0, hqueue⟩, by rw [hplaces]; exact Multiset.nodup_zero, fun q hq => ?_⟩,
    fun q hq => ?_, ⟨hqueued.symm ▸ hqueue, fun q hq => ?_, by simp [hlive], by simp⟩⟩
  · rw [hplaces] at hq
    exact absurd hq (Multiset.notMem_zero _)
  · rw [hlive] at hq
    exact absurd hq (Multiset.notMem_zero _)
  · rw [hlive] at hq
    exact absurd hq (Multiset.notMem_zero _)

theorem runOk_create {con₀ : SchedContext} (h : schedContextCreate = some con₀) :
    RunOk [] ⟨con₀, 0⟩ := by
  simp only [schedContextCreate, Option.bind_eq_bind, Option.bind_eq_some_iff,
    Option.some.injEq] at h
  obtain ⟨ht, hht, h⟩ := h
  have hheap : con₀.schedHeap = trisHeapCreate .tmp (fun _ => 0) 8 0 := by rw [← h]
  have htable : Holds (schedHash con₀.mem) con₀.schedqHt 0 := by
    rw [← h]
    exact trisHashtabCreate_holds hht
  have hcnt : con₀.eventcnt = 1 := by rw [← h]
  obtain ⟨hL, hE, hI⟩ := ledger_of_empty hheap htable (by rw [← h]) (by rw [← h])
  exact ⟨hL, hE, fun _ => ⟨hI, hcnt, fun before after ev id heq => by simp at heq⟩⟩

theorem Ids.queued_nodup {out : Multiset Ptr} {D : List ℤ} (hI : Ids con out D) :
    ((queued con).map (idOf con.mem)).Nodup := by
  have h := hI.nodup
  rw [live, Multiset.map_add] at h
  exact (Multiset.nodup_add.1 h).1

/-- Distinct ids in a range are no more than the range. -/
theorem Ids.card_lt {out : Multiset Ptr} {D : List ℤ} (hI : Ids con out D)
    (hpos : 1 ≤ con.eventcnt) : Multiset.card (queued con) < con.eventcnt := by
  have hsub : (queued con).map (idOf con.mem) ⊆ (Finset.Ico (1 : ℤ) con.eventcnt).val := by
    intro id hid
    obtain ⟨q, hq, rfl⟩ := Multiset.mem_map.1 hid
    exact Finset.mem_Ico.2 (hI.range q (mem_live_of_mem_queued hq))
  have hcard := Multiset.card_le_card ((Multiset.le_iff_subset hI.queued_nodup).2 hsub)
  rw [Multiset.card_map, Finset.card_val, Int.card_Ico] at hcard
  omega

theorem Ledger.returns {out : Multiset Ptr} (hL : Ledger con out) :
    (∀ id, (trisSchedDel con id).isSome) ∧ (∀ limit, (runqNext con limit).isSome) ∧
      ∀ env when callback data variableRes, env.Fresh con →
        (trisSchedAddVariable con env when callback data variableRes).isSome := by
  refine ⟨fun id => ?_, fun limit => ?_, fun env when callback data variableRes hfresh => ?_⟩
  · obtain ⟨con', ret, heq, -⟩ := trisSchedDel_ledger hL id
    exact heq ▸ rfl
  · rcases runqNext_ledger hL limit with heq | ⟨p, con', heq, -⟩ <;> exact heq ▸ rfl
  · obtain ⟨con', id, heq, -⟩ :=
      trisSchedAddVariable_spec hL hfresh when callback data variableRes
    exact heq ▸ rfl

theorem RunOk.good (hok : RunOk evs st) (hlt : additions evs < 2 ^ 31) :
    SchedGood evs st.con := by
  obtain ⟨hI, hcnt, hgone⟩ := hok.ids hlt
  obtain ⟨os, htrav, hos, hlen⟩ := traversal_spec hI.full.table
  have hcard := hI.card_lt (by omega)
  refine ⟨⟨os, htrav, hos⟩, hI.queued_nodup, ?_, fun before after ev id heq hdel callback data =>
    hgone before after ev id heq (SchedEvent.retired_of_deleted hdel) callback data,
    hok.ledger.returns⟩
  rw [hI.full.cnt]
  exact uint_of_lt (by omega)

/-- **The scheduler over every run.** In a run that makes fewer than
`2 ^ 31` additions, whatever the callbacks do and return, the heap, the
table and the count agree between any two steps, ids are distinct, and
what was deleted successfully is not run any more. -/
theorem sched_runs {con₀ : SchedContext} (hcreate : schedContextCreate = some con₀)
    (hrun : Trace SchedStep ⟨con₀, 0⟩ evs st) (hadd : additions evs < 2 ^ 31) :
    SchedGood evs st.con := by
  have hok : RunOk evs st := hrun.inv (runOk_create hcreate) fun _ _ _ _ hI hstep => hI.step hstep
  exact hok.good hadd

/-- A quiet environment: the clock stands at one second, `n` is free. -/
def envAt (n : ℕ) : Env := ⟨⟨⟨1, 0⟩, ⟨by decide, by decide⟩, by decide⟩, n, n⟩

instance (n : ℤ) : Decidable (IsInt n) := inferInstanceAs (Decidable (_ ∧ _))

instance (env : Env) (con : SchedContext) : Decidable (env.Fresh con) :=
  inferInstanceAs (Decidable (_ ∧ _))

/-- Two entries are added, the second is deleted, the first is run once
and says that it is done. -/
theorem sched_runs_two :
    ∃ con₀ st, schedContextCreate = some con₀ ∧
      Trace SchedStep ⟨con₀, 0⟩ [.add 0 7 1 0 1, .add 50 7 2 0 2, .del 2 0, .runqBegin,
        .runqCall 1 7 1, .runqReturn 1 0, .runqEnd] st ∧
      SchedGood [.add 0 7 1 0 1, .add 50 7 2 0 2, .del 2 0, .runqBegin,
        .runqCall 1 7 1, .runqReturn 1 0, .runqEnd] st.con := by
  have hscript : (do
      let con₀ ← schedContextCreate
      let r₁ ← trisSchedAddVariable con₀ (envAt 0) 0 7 1 0
      let r₂ ← trisSchedAddVariable r₁.1 (envAt 1) 50 7 2 0
      let r₃ ← trisSchedDel r₂.1 2
      let r₄ ← runqNext r₃.1 (runqLimit (envAt 0).now)
      let con₅ ← runqReturn r₄.1 (.cell 0) 0 (envAt 5)
      let r₆ ← runqNext con₅ (runqLimit (envAt 0).now)
      some ([r₁.2, r₂.2, r₃.2, idOf r₄.1.mem (.cell 0)], r₄.2, r₆.2, r₄.1.mem (.cell 0),
        decide ((envAt 0).Fresh con₀ ∧ (envAt 1).Fresh r₁.1 ∧ r₄.1.schedqHt.object 5 = none))) =
      some ([1, 2, 0, 1], some (.cell 0), none, some ⟨1, ⟨1, 0⟩, 0, 0, 1, 7⟩, true) := by
    decide +kernel
  simp only [Option.bind_eq_bind, Option.bind_eq_some_iff, Option.some.injEq, Prod.mk.injEq,
    List.cons.injEq, Prod.exists, decide_eq_true_eq] at hscript
  obtain ⟨con₀, h₀, con₁, id₁, h₁, con₂, id₂, h₂, con₃, r₃, h₃, con₄, c₄, h₄, con₅, h₅, con₆, c₆,
    h₆, ⟨rfl, rfl, rfl, hid, -⟩, rfl, rfl, hmem, hf₁, hf₂, hf₃⟩ := hscript
  have hrun : Trace SchedStep ⟨con₀, 0⟩ [.add 0 7 1 0 1, .add 50 7 2 0 2, .del 2 0, .runqBegin,
      .runqCall 1 7 1, .runqReturn 1 0, .runqEnd] ⟨con₆, 0⟩ :=
    .cons (.add (by decide) hf₁ h₁) <| .cons (.add (by decide) hf₂ h₂) <| .cons (.del h₃) <|
      .cons (.runqBegin (envAt 0).now) <| .cons (.runqCall h₄ hmem) <|
      .cons (hid ▸ .runqReturn (by decide) hf₃ h₅) <| .single (.runqEnd h₆)
  exact ⟨con₀, ⟨con₆, 0⟩, h₀, hrun, sched_runs h₀ hrun (by decide)⟩

end Sched

end Trismedia
