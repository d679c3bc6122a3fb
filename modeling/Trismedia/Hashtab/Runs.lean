import Trismedia.Common.Trace
import Trismedia.Hashtab.Ops
/-!
# The hash table over every run

A run is any sequence of insertions, lookups and removals on a created
table. `CollStep` is the collection the table stands for: which answers
it allows, and what it holds afterwards. `hashtab_runs` carries every run
of the table to a run of the collection with the same answers, and says
what holds of the table in between.
-/


namespace Trismedia

namespace Hashtab

open Dll

variable {α : Type} [DecidableEq α]

/-- The calls of a table's users. `addr` is what `calloc` returns. -/
inductive TableOp (α : Type)
  | insertSafe (obj : Option α) (addr : Addr)
  | insertImmediate (obj : Option α) (addr : Addr)
  | lookup (obj : Option α)
  | removeObjectViaLookup (obj : Option α)
  | removeThisObject (obj : Option α)
  deriving DecidableEq, Repr

/-- What a call returns: a number or an object. -/
inductive Answer (α : Type)
  | int (ret : ℤ)
  | object (ret : Option α)
  deriving DecidableEq, Repr

/-- `calloc` returns memory that is not in use. -/
def TableOp.AllocFresh (tab : TrisHashtab α) : TableOp α → Prop
  | insertSafe _ addr => tab.object addr = none
  | insertImmediate _ addr => tab.object addr = none
  | _ => True

instance (tab : TrisHashtab α) (op : TableOp α) : Decidable (op.AllocFresh tab) :=
  match op with
  | .insertSafe _ addr => inferInstanceAs (Decidable (tab.object addr = none))
  | .insertImmediate _ addr => inferInstanceAs (Decidable (tab.object addr = none))
  | .lookup _ | .removeObjectViaLookup _ | .removeThisObject _ => inferInstanceAs (Decidable True)

/-- One call: the table after it and what it returned. -/
def TableOp.exec (compare : α → α → ℤ) (hash : α → ℕ) (tab : TrisHashtab α) :
    TableOp α → Option (TrisHashtab α × Answer α)
  | insertSafe obj addr =>
    (trisHashtabInsertSafe compare hash tab obj addr).map fun r => (r.1, .int r.2)
  | insertImmediate obj addr =>
    (trisHashtabInsertImmediate hash tab obj addr).map fun r => (r.1, .int r.2)
  | lookup obj => (trisHashtabLookup compare hash tab obj).map fun r => (tab, .object r)
  | removeObjectViaLookup obj =>
    (trisHashtabRemoveObjectViaLookup compare hash tab obj).map fun r => (r.1, .object r.2)
  | removeThisObject obj =>
    (trisHashtabRemoveThisObject hash tab obj).map fun r => (r.1, .object r.2)

/-- A call on the table, with its answer. -/
def TableStep (compare : α → α → ℤ) (hash : α → ℕ) (tab : TrisHashtab α)
    (ev : TableOp α × Answer α) (tab' : TrisHashtab α) : Prop :=
  ev.1.AllocFresh tab ∧ ev.1.exec compare hash tab = some (tab', ev.2)

/-- **The collection.** A collection answers a lookup with an equal object
or, holding none, with nothing; the safe insertion adds what has no equal;
a removal takes one object out; a null argument does nothing. -/
inductive CollStep (compare : α → α → ℤ) :
    Multiset α → TableOp α × Answer α → Multiset α → Prop
  | insertImmediate {s o addr} :
      CollStep compare s (.insertImmediate (some o) addr, .int 1) (o ::ₘ s)
  | inserted {s o addr} : (∀ o' ∈ s, compare o o' ≠ 0) →
      CollStep compare s (.insertSafe (some o) addr, .int 1) (o ::ₘ s)
  | refused {s o addr} : (∃ o' ∈ s, compare o o' = 0) →
      CollStep compare s (.insertSafe (some o) addr, .int 0) s
  | found {s o o'} : o' ∈ s → compare o o' = 0 →
      CollStep compare s (.lookup (some o), .object (some o')) s
  | notFound {s o} : (∀ o' ∈ s, compare o o' ≠ 0) →
      CollStep compare s (.lookup (some o), .object none) s
  | removed {s o o'} : compare o o' = 0 →
      CollStep compare (o' ::ₘ s) (.removeObjectViaLookup (some o), .object (some o')) s
  | notRemoved {s o} : (∀ o' ∈ s, compare o o' ≠ 0) →
      CollStep compare s (.removeObjectViaLookup (some o), .object none) s
  | removedThis {s o} :
      CollStep compare (o ::ₘ s) (.removeThisObject (some o), .object (some o)) s
  | notRemovedThis {s o} : o ∉ s →
      CollStep compare s (.removeThisObject (some o), .object none) s
  | nullInsertSafe {s addr} : CollStep compare s (.insertSafe none addr, .int 0) s
  | nullInsertImmediate {s addr} : CollStep compare s (.insertImmediate none addr, .int 0) s
  | nullLookup {s} : CollStep compare s (.lookup none, .object none) s
  | nullRemove {s} : CollStep compare s (.removeObjectViaLookup none, .object none) s
  | nullRemoveThis {s} : CollStep compare s (.removeThisObject none, .object none) s

/-- The links of the allocated buckets are mutually inverse, in the chains
and in `tlist`. -/
structure LinksInverse (tab : TrisHashtab α) : Prop where
  next_prev : ∀ a b, (tab.object a).isSome → tab.next a = some b →
    (tab.object b).isSome ∧ tab.prev b = some a
  prev_next : ∀ a b, (tab.object a).isSome → tab.prev a = some b →
    (tab.object b).isSome ∧ tab.next b = some a
  tnext_tprev : ∀ a b, (tab.object a).isSome → tab.tnext a = some b →
    (tab.object b).isSome ∧ tab.tprev b = some a
  tprev_tnext : ∀ a b, (tab.object a).isSome → tab.tprev a = some b →
    (tab.object b).isSome ∧ tab.tnext b = some a

/-- **What a table that stands for `s` satisfies.** -/
structure TableGood (compare : α → α → ℤ) (hash : α → ℕ) (tab : TrisHashtab α)
    (s : Multiset α) : Prop where
  /-- A traversal hands out every stored object once. -/
  traversal : ∃ os : List α, traversal tab = some os ∧ (os : Multiset α) = s
  elements : tab.hashTabElements = Multiset.card s
  /-- Chain `h` holds exactly the objects whose hash is `h` modulo the size. -/
  buckets : ∀ h < tab.hashTabSize, ∀ a, Reaches tab.next (tab.array h) a ↔
    ∃ o, tab.object a = some o ∧ hash o % tab.hashTabSize = h
  size_pos : 0 < tab.hashTabSize
  links : LinksInverse tab
  /-- Every call returns. -/
  returns : ∀ op : TableOp α, op.AllocFresh tab → ∃ tab' ans, op.exec compare hash tab =
    some (tab', ans)

variable {compare : α → α → ℤ} {hash : α → ℕ} {tab tab' : TrisHashtab α} {s : Multiset α}

/-- **One call.** It returns, and the collection can answer the same. -/
theorem TableOp.exec_spec (hresp : HashRespects compare hash) (hs : Holds hash tab s)
    (op : TableOp α) (hop : op.AllocFresh tab) :
    ∃ tab' ans t, op.exec compare hash tab = some (tab', ans) ∧
      CollStep compare s (op, ans) t ∧ Holds hash tab' t := by
  cases op with
  | insertSafe obj addr =>
    cases obj with
    | none => exact ⟨tab, .int 0, s, rfl, .nullInsertSafe, hs⟩
    | some o =>
      rcases trisHashtabInsertSafe_spec (o := o) hresp hs hop with ⟨hdup, heq⟩ | ⟨hnew, t', heq, ht'⟩
      · exact ⟨tab, .int 0, s, by rw [exec, heq]; rfl, .refused hdup, hs⟩
      · exact ⟨t', .int 1, o ::ₘ s, by rw [exec, heq]; rfl, .inserted hnew, ht'⟩
  | insertImmediate obj addr =>
    cases obj with
    | none => exact ⟨tab, .int 0, s, rfl, .nullInsertImmediate, hs⟩
    | some o =>
      obtain ⟨t', heq, ht'⟩ := trisHashtabInsertImmediate_spec (o := o) hs hop
      exact ⟨t', .int 1, o ::ₘ s, by rw [exec, heq]; rfl, .insertImmediate, ht'⟩
  | lookup obj =>
    cases obj with
    | none => exact ⟨tab, .object none, s, rfl, .nullLookup, hs⟩
    | some o =>
      obtain ⟨r, heq, hr⟩ := trisHashtabLookup_spec hresp hs o
      refine ⟨tab, .object r, s, by rw [exec, heq]; rfl, ?_, hs⟩
      cases r with
      | none => exact .notFound hr
      | some o' => exact .found hr.1 hr.2
  | removeObjectViaLookup obj =>
    cases obj with
    | none => exact ⟨tab, .object none, s, rfl, .nullRemove, hs⟩
    | some o =>
      rcases removeObjectViaLookup_spec hresp hs o with ⟨o', t', heq, he, t, rfl, ht⟩ | ⟨hn, heq⟩
      · exact ⟨t', .object (some o'), t, by rw [exec, heq]; rfl, .removed he, ht⟩
      · exact ⟨tab, .object none, s, by rw [exec, heq]; rfl, .notRemoved hn, hs⟩
  | removeThisObject obj =>
    cases obj with
    | none => exact ⟨tab, .object none, s, rfl, .nullRemoveThis, hs⟩
    | some o =>
      rcases removeThisObject_spec hs o with ⟨t', heq, t, rfl, ht⟩ | ⟨hn, heq⟩
      · exact ⟨t', .object (some o), t, by rw [exec, heq]; rfl, .removedThis, ht⟩
      · exact ⟨tab, .object none, s, by rw [exec, heq]; rfl, .notRemovedThis hn, hs⟩

omit [DecidableEq α] in
theorem Holds.linksInverse (hs : Holds hash tab s) : LinksInverse tab := by
  obtain ⟨L, ht, rfl⟩ := hs
  have hlive : ∀ a, a ∈ L ↔ (tab.object a).isSome := fun a => by
    rw [ht.live a, Option.isSome_iff_exists]
  -- every allocated bucket is in the chain of its slot
  have hchain : ∀ a, (tab.object a).isSome → ∃ l, IsDll tab.next tab.prev none
      (tab.array (bucketSlot hash tab a)) l ∧ a ∈ l ∧ ∀ b ∈ l, (tab.object b).isSome := by
    intro a ha
    obtain ⟨l, hl, hmem⟩ := ht.chains _ (bucketSlot_lt ht.size_pos)
    exact ⟨l, hl, (hmem a).2 ⟨(hlive a).2 ha, rfl⟩, fun b hb => (hlive b).1 ((hmem b).1 hb).1⟩
  refine ⟨fun a b ha hab => ?_, fun a b ha hab => ?_, fun a b ha hab => ?_, fun a b ha hab => ?_⟩
  · obtain ⟨l, hl, hal, hall⟩ := hchain a ha
    obtain ⟨hb, hp⟩ := hl.prev_next hal hab
    exact ⟨hall b hb, hp⟩
  · obtain ⟨l, hl, hal, hall⟩ := hchain a ha
    obtain ⟨hb, hn⟩ := hl.next_prev hal hab (Option.some_ne_none b).symm
    exact ⟨hall b hb, hn⟩
  · obtain ⟨hb, hp⟩ := ht.tlist.prev_next ((hlive a).2 ha) hab
    exact ⟨(hlive b).1 hb, hp⟩
  · obtain ⟨hb, hn⟩ := ht.tlist.next_prev ((hlive a).2 ha) hab (Option.some_ne_none b).symm
    exact ⟨(hlive b).1 hb, hn⟩

theorem Holds.good (hresp : HashRespects compare hash) (hs : Holds hash tab s) :
    TableGood compare hash tab s := by
  obtain ⟨os, htrav, hos, hlen⟩ := traversal_spec hs
  have hlinks := hs.linksInverse
  have hret : ∀ op : TableOp α, op.AllocFresh tab → ∃ tab' ans, op.exec compare hash tab =
      some (tab', ans) := fun op hop =>
    let ⟨tab', ans, _, heq, _⟩ := op.exec_spec hresp hs hop
    ⟨tab', ans, heq⟩
  obtain ⟨L, ht, rfl⟩ := hs
  refine ⟨⟨os, htrav, hos⟩, ?_, fun h hh a => ?_, ht.size_pos, hlinks, hret⟩
  · rw [ht.card_objects, ht.elements]
  · obtain ⟨l, hl, hmem⟩ := ht.chains h hh
    rw [hl.reaches_iff, hmem a, ht.live a]
    constructor
    · rintro ⟨⟨o, ho⟩, hslot⟩
      exact ⟨o, ho, (bucketSlot_of_object ho).symm.trans hslot⟩
    · rintro ⟨o, ho, hslot⟩
      exact ⟨⟨o, ho⟩, (bucketSlot_of_object ho).trans hslot⟩

omit [DecidableEq α] in
/-- There is always an address that `calloc` can return. -/
theorem Holds.exists_fresh (hs : Holds hash tab s) : ∃ addr, tab.object addr = none := by
  obtain ⟨L, ht, rfl⟩ := hs
  obtain ⟨addr, haddr⟩ := Infinite.exists_notMem_finset L.toFinset
  refine ⟨addr, ?_⟩
  cases ho : tab.object addr with
  | none => rfl
  | some o => exact absurd (List.mem_toFinset.2 ((ht.live addr).2 ⟨o, ho⟩)) haddr

/-- **The hash table refines the collection.** Whatever the initial size
and the growth policy, every run of a created table is a run of the
collection with the same answers, and the table in between is good: it
is traversed, counted, chained and linked as the collection asks. -/
theorem hashtab_runs (hresp : HashRespects compare hash) {initialBuckets : ℤ}
    {resize : Option ResizeFn} {newsize : Option NewsizeFn} {tab₀ : TrisHashtab α}
    (hcreate : trisHashtabCreate α initialBuckets resize newsize = some tab₀)
    {evs : List (TableOp α × Answer α)} (hrun : Trace (TableStep compare hash) tab₀ evs tab) :
    ∃ s, Trace (CollStep compare) 0 evs s ∧ TableGood compare hash tab s := by
  have hsim := hrun.simulate (R := Holds hash) (f := id)
    (trisHashtabCreate_holds hcreate) fun t ev u b hb hstep => by
      obtain ⟨hfresh, heq⟩ := hstep
      obtain ⟨tab', ans, c, heq', hc, hu⟩ := ev.1.exec_spec hresp hb hfresh
      rw [heq, Option.some.injEq, Prod.mk.injEq] at heq'
      obtain ⟨rfl, rfl⟩ := heq'
      exact ⟨c, hc, hu⟩
  obtain ⟨s, htrace, hholds⟩ := hsim
  rw [List.map_id] at htrace
  exact ⟨s, htrace, hholds.good hresp⟩

/-- A list of calls, made one after the other: the table they leave and
the answers they got. -/
def execAll (compare : α → α → ℤ) (hash : α → ℕ) :
    List (TableOp α) → TrisHashtab α → Option (TrisHashtab α × List (TableOp α × Answer α))
  | [], tab => some (tab, [])
  | op :: ops, tab =>
    if op.AllocFresh tab then do
      let (tab', ans) ← op.exec compare hash tab
      let (tab'', evs) ← execAll compare hash ops tab'
      some (tab'', (op, ans) :: evs)
    else none

theorem trace_of_execAll {ops : List (TableOp α)} {evs : List (TableOp α × Answer α)}
    (h : execAll compare hash ops tab = some (tab', evs)) :
    Trace (TableStep compare hash) tab evs tab' := by
  induction ops generalizing tab evs with
  | nil =>
    obtain ⟨rfl, rfl⟩ := Prod.ext_iff.1 (Option.some.inj h)
    exact .nil
  | cons op ops ih =>
    simp only [execAll, Option.bind_eq_bind, Option.ite_none_right_eq_some,
      Option.bind_eq_some_iff, Option.some.injEq, Prod.mk.injEq, Prod.exists] at h
    obtain ⟨hop, tab₁, ans, heq, tab₂, evs', hrest, rfl, rfl⟩ := h
    exact .cons ⟨hop, heq⟩ (ih hrest)

/-- Numbers that are equal when their last digits are. -/
def digitCmp (a b : ℕ) : ℤ := (a % 10 : ℕ) - (b % 10 : ℕ)

/-- Two equal objects, one of them refused once and then forced in, a
third that makes the table grow from 3 slots to 7, and two removals. -/
theorem hashtab_runs_digits :
    ∃ tab₀ tab evs s, trisHashtabCreate ℕ 2 none none = some tab₀ ∧
      execAll digitCmp (· % 10) [.insertSafe (some 12) 0, .insertSafe (some 22) 1,
        .insertImmediate (some 22) 1, .insertSafe (some 33) 2, .lookup (some 43),
        .removeThisObject (some 12), .removeObjectViaLookup (some 2)] tab₀ = some (tab, evs) ∧
      evs.map Prod.snd = [.int 1, .int 0, .int 1, .int 1, .object (some 33), .object (some 12),
        .object (some 22)] ∧
      tab.hashTabSize = 7 ∧ Trace (CollStep digitCmp) 0 evs s ∧
      TableGood digitCmp (· % 10) tab s := by
  have hresp : HashRespects digitCmp (· % 10) := fun a b h => by
    unfold digitCmp at h
    simp only
    omega
  have hexec : ((trisHashtabCreate ℕ 2 none none).bind (execAll digitCmp (· % 10)
      [.insertSafe (some 12) 0, .insertSafe (some 22) 1, .insertImmediate (some 22) 1,
        .insertSafe (some 33) 2, .lookup (some 43), .removeThisObject (some 12),
        .removeObjectViaLookup (some 2)])).map (fun r => (r.2.map Prod.snd, r.1.hashTabSize)) =
      some ([.int 1, .int 0, .int 1, .int 1, .object (some 33), .object (some 12),
        .object (some 22)], 7) := by decide +kernel
  simp only [Option.map_eq_some_iff, Option.bind_eq_some_iff, Prod.mk.injEq, Prod.exists] at hexec
  obtain ⟨tab, evs, ⟨tab₀, h₀, hall⟩, hans, hsize⟩ := hexec
  obtain ⟨s, htrace, hgood⟩ := hashtab_runs hresp h₀ (trace_of_execAll hall)
  exact ⟨tab₀, tab, evs, s, h₀, hall, hans, hsize, htrace, hgood⟩

end Hashtab

end Trismedia
