import Trismedia.Sched.Runs
/-!
# An addition without memory

`tris_sched_add_variable` asks for memory in four places: the entry, room
in the heap, a bucket of the table, and the table's new array. Each is
granted or not. Without room the heap gives its array up, with all that
was in it; without a new array the table is left with a null pointer, and
the next access goes through it, which makes that call `none`. `schedule`
looks at neither of the codes it gets.
-/


namespace Trismedia

namespace Heap

variable {α : Type} [DecidableEq α]

/-- `grow_heap`, where `realloc` returned memory or not. -/
def growHeapFrom (granted : Bool) (h : TrisHeap α) : TrisHeap α × ℤ :=
  if granted then (growHeap h, 0) else ({ growHeap h with curLen := 0, availLen := 0 }, -1)

/-- `tris_heap_push` -/
def trisHeapPushFrom (cmpFn : α → α → ℤ) (granted : Bool) (h : TrisHeap α) (elm : α) :
    TrisHeap α × ℤ :=
  let (h, res) := if h.curLen = h.availLen then growHeapFrom granted h else (h, 0)
  if res ≠ 0 then
    (h, -1)
  else
    let h := heapSet { h with curLen := h.curLen + 1 } (h.curLen + 1) elm
    ((bubbleUp cmpFn h h.curLen).1, 0)

/-- The heap has the room, or gets it. -/
theorem trisHeapPushFrom_of_room {cmpFn : α → α → ℤ} {granted : Bool} {h : TrisHeap α}
    (hroom : h.curLen = h.availLen → granted = true) (elm : α) :
    trisHeapPushFrom cmpFn granted h elm = (trisHeapPush cmpFn h elm, 0) := by
  unfold trisHeapPushFrom trisHeapPush growHeapFrom
  by_cases hfull : h.curLen = h.availLen
  · rw [if_pos hfull, if_pos hfull, if_pos (hroom hfull)]
    rfl
  · rw [if_neg hfull, if_neg hfull]
    rfl

/-- **Without room the heap is empty.** -/
theorem trisHeapPushFrom_lost {cmpFn : α → α → ℤ} {h : TrisHeap α} (hfull : h.curLen = h.availLen)
    (elm : α) : ∃ g, trisHeapPushFrom cmpFn false h elm = (g, -1) ∧ elements g = 0 := by
  refine ⟨{ growHeap h with curLen := 0, availLen := 0 }, ?_, rfl⟩
  unfold trisHeapPushFrom growHeapFrom
  rw [if_pos hfull]
  rfl

end Heap

namespace Hashtab

variable {α : Type}

/-- A table whose array may be missing. -/
structure AllocTab (α : Type) where
  tab : TrisHashtab α
  hasArray : Bool

variable (compare : α → α → ℤ) (hash : α → ℕ)

/-- `tris_hashtab_resize`: the old array is freed first. -/
def trisHashtabResizeFrom (granted : Bool) (tab : TrisHashtab α) : Option (AllocTab α) :=
  if granted then do
    let tab ← trisHashtabResize hash tab
    some ⟨tab, true⟩
  else
    some ⟨{ tab with array := fun _ => none }, false⟩

/-- `tris_hashtab_insert_immediate_bucket` -/
def trisHashtabInsertImmediateBucketFrom (bucket array : Bool) (tab : TrisHashtab α) (obj : α)
    (h : ℕ) (addr : Addr) : Option (AllocTab α × ℤ) := do
  let c ← Dll.countLinks tab.next tab.hashTabElements (tab.array h)
  let tab := { tab with
    largestBucketSize := if c + 1 > tab.largestBucketSize then c + 1 else tab.largestBucketSize }
  if bucket then
    let tab := addBucket tab obj h addr
    if callResize tab then do
      let t ← trisHashtabResizeFrom hash array tab
      some (t, 1)
    else
      some (⟨tab, true⟩, 1)
  else
    some (⟨tab, true⟩, 0)

/-- `tris_hashtab_insert_safe` -/
def trisHashtabInsertSafeFrom (bucket array : Bool) (t : AllocTab α) (obj : α) (addr : Addr) :
    Option (AllocTab α × ℤ) :=
  if t.hasArray then do
    let (found, slot) ← trisHashtabLookupBucket compare hash t.tab (some obj)
    match found with
    | none => trisHashtabInsertImmediateBucketFrom hash bucket array t.tab obj slot addr
    | some _ => some (t, 0)
  else
    none

/-- One more object makes the table grow. -/
def Grows (tab : TrisHashtab α) : Prop :=
  callResize { tab with hashTabElements := tab.hashTabElements + 1 } = true

instance (tab : TrisHashtab α) : Decidable (Grows tab) :=
  inferInstanceAs (Decidable (callResize _ = true))

variable {compare hash} {tab : TrisHashtab α} {s : Multiset α} {o : α}

theorem callResize_addBucket (largest h : ℕ) (addr : Addr) :
    callResize (addBucket { tab with largestBucketSize := largest } o h addr) = true ↔
      Grows tab := by
  rw [addBucket]
  simp only [tlistAddHead_eq]
  exact Iff.rfl

/-- **What is left of an insertion**, and the table it leaves, where the
array is there. -/
theorem trisHashtabInsertSafeFrom_spec (hresp : HashRespects compare hash) (hs : Holds hash tab s)
    {addr : Addr} (hfresh : tab.object addr = none) (bucket array : Bool) :
    ∃ t r, trisHashtabInsertSafeFrom compare hash bucket array ⟨tab, true⟩ o addr = some (t, r) ∧
      (((∃ o' ∈ s, compare o o' = 0) ∧ t.hasArray = true ∧ Holds hash t.tab s) ∨
        ((∀ o' ∈ s, compare o o' ≠ 0) ∧ bucket = false ∧ t.hasArray = true ∧
          Holds hash t.tab s) ∨
        ((∀ o' ∈ s, compare o o' ≠ 0) ∧ bucket = true ∧ (Grows tab → array = true) ∧
          t.hasArray = true ∧ Holds hash t.tab (o ::ₘ s)) ∨
        ((∀ o' ∈ s, compare o o' ≠ 0) ∧ Grows tab ∧ array = false ∧ t.hasArray = false)) := by
  obtain ⟨r, hr, hspec⟩ := lookupInternal_spec hresp hs o
  have hbucket : trisHashtabLookupBucket compare hash tab (some o) =
      some (r, slotOf hash tab o) := by
    rw [trisHashtabLookupBucket, hr]
    rfl
  unfold trisHashtabInsertSafeFrom
  rw [if_pos rfl, hbucket]
  cases r with
  | some o' => exact ⟨_, _, rfl, .inl ⟨⟨o', hspec.1, hspec.2⟩, rfl, hs⟩⟩
  | none =>
    obtain ⟨c, hcount⟩ := hs.countLinks_isSome o
    obtain ⟨L, ht, rfl⟩ := hs
    obtain ⟨largest, hlarge⟩ : ∃ n, n = if c + 1 > tab.largestBucketSize then c + 1
      else tab.largestBucketSize := ⟨_, rfl⟩
    have ht' := ht.withLargest largest
    simp only [Option.bind_eq_bind, Option.bind_some, trisHashtabInsertImmediateBucketFrom, hcount,
      ← hlarge]
    cases bucket with
    | false => exact ⟨_, _, rfl, .inr (.inl ⟨hspec, rfl, rfl, L, ht', rfl⟩)⟩
    | true =>
      obtain ⟨hadd, hobj⟩ := addBucket_spec (o := o) ht' hfresh
      have hall : (objects (addBucket { tab with largestBucketSize := largest } o
          (slotOf hash { tab with largestBucketSize := largest } o) addr) (addr :: L)) =
          o ::ₘ objects tab L := hobj
      rw [if_pos rfl]
      by_cases hgrow : Grows tab
      · have hcall := (callResize_addBucket (o := o) largest (slotOf hash tab o) addr).2 hgrow
        rw [if_pos hcall]
        cases array with
        | false => exact ⟨_, _, rfl, .inr (.inr (.inr ⟨hspec, hgrow, rfl, rfl⟩))⟩
        | true =>
          obtain ⟨tab', heq, hover, hsame⟩ := trisHashtabResize_spec hadd
          have hres : trisHashtabResize hash (addBucket { tab with largestBucketSize := largest } o
              (slotOf hash tab o) addr) = some tab' := heq
          refine ⟨⟨tab', true⟩, 1, ?_, .inr (.inr (.inl ⟨hspec, rfl, fun _ => rfl, rfl, _, hover,
            ?_⟩))⟩
          · simp only [trisHashtabResizeFrom, if_true, hres, Option.bind_eq_bind, Option.bind_some]
          · rw [objects, hsame, ← objects, hall]
      · have hcall := fun h => hgrow ((callResize_addBucket (o := o) largest (slotOf hash tab o)
          addr).1 h)
        rw [if_neg hcall]
        exact ⟨_, _, rfl, .inr (.inr (.inl ⟨hspec, rfl, fun h => absurd h hgrow, rfl, _, hadd,
          hall⟩))⟩

end Hashtab

namespace Sched

open Heap Hashtab

/-- Which of the allocations of a call are granted, where it asks. -/
structure Grants where
  entry : Bool
  heap : Bool
  bucket : Bool
  array : Bool
  deriving DecidableEq, Repr

/-- A context, and whether its table has an array. It has none either
where `sched_context_create` got no table, which it does not look at. -/
structure AllocContext where
  con : SchedContext
  hasArray : Bool

/-- `schedule` -/
def scheduleFrom (c : AllocContext) (grants : Grants) (s : Ptr) (addr : Addr) :
    Option AllocContext := do
  let (heap, _) := trisHeapPushFrom (schedTimeCmp c.con.mem) grants.heap c.con.schedHeap s
  let (t, _) ← trisHashtabInsertSafeFrom (schedCmp c.con.mem) (schedHash c.con.mem) grants.bucket
    grants.array ⟨c.con.schedqHt, c.hasArray⟩ s addr
  let schedcnt := uint (c.con.schedcnt + 1)
  some ⟨{ c.con with
    schedHeap := heap
    schedqHt := t.tab
    schedcnt := schedcnt
    highwater := if schedcnt > c.con.highwater then schedcnt else c.con.highwater }, t.hasArray⟩

/-- `tris_sched_add_variable` -/
def trisSchedAddVariableFrom (c : AllocContext) (grants : Grants) (env : Env) (when : ℤ)
    (callback data : ℕ) (variableRes : ℤ) : Option (AllocContext × ℤ) :=
  if c.con.schedc = [] ∧ grants.entry = false then
    some (c, -1)
  else do
    let (con, tmp) := schedAlloc c.con env
    let id := toInt con.eventcnt
    let entry : Entry :=
      ⟨id, schedSettime (trisTv 0 0) when env.now.tv, when, variableRes, data, callback⟩
    let con := { con with
      eventcnt := uint (con.eventcnt + 1)
      mem := Function.update con.mem tmp (some entry) }
    let c ← scheduleFrom ⟨con, c.hasArray⟩ grants tmp env.addr
    some (c, id)

/-- **What an addition is to do**: fail and leave the queue as it was, or
return the id of an entry that is new in the heap and that the table
finds. -/
def AddRight (c c' : AllocContext) (ret : ℤ) : Prop :=
  (ret = -1 ∧ queued c'.con = queued c.con ∧ c'.con.schedqHt = c.con.schedqHt ∧
    c'.hasArray = c.hasArray ∧ c'.con.schedcnt = c.con.schedcnt) ∨
  (ret ≠ -1 ∧ ∃ p, p ∉ queued c.con ∧ p ∈ queued c'.con ∧ idOf c'.con.mem p = ret ∧
    c'.hasArray = true ∧ findId c'.con ret = some (some p))

/-- The places of the entries are apart, and the table, where it has an
array, holds `s`. The heap need not agree with the table: an earlier
addition may have failed halfway. -/
structure SchedOk (c : AllocContext) (s : Multiset Ptr) : Prop where
  table : c.hasArray = true → Holds (schedHash c.con.mem) c.con.schedqHt s
  alloc : ∀ q, q ∈ queued c.con ∨ q ∈ s ∨ q ∈ c.con.schedc → c.con.mem q ≠ none ∧ q ≠ .tmp
  apart : ∀ q ∈ c.con.schedc, q ∉ queued c.con ∧ q ∉ s
  nodup : c.con.schedc.Nodup

variable {c c' : AllocContext} {s : Multiset Ptr} {grants : Grants} {env : Env} {p : Ptr}
variable {callback data : ℕ} {when variableRes : ℤ}

/-- **The entry an addition takes** is new to heap and table. -/
theorem schedAlloc_new (hok : SchedOk c s) (hfresh : env.Fresh c.con) :
    ∃ con p, schedAlloc c.con env = (con, p) ∧ p ≠ .tmp ∧ p ∉ queued c.con ∧ p ∉ s ∧
      p ∉ con.schedc ∧ (∀ q ∈ con.schedc, q ∈ c.con.schedc) ∧ con.schedc.Nodup ∧
      con.schedHeap = c.con.schedHeap ∧ con.schedqHt = c.con.schedqHt ∧
      con.schedcnt = c.con.schedcnt ∧ con.eventcnt = c.con.eventcnt ∧
      ∀ q, q ≠ p → con.mem q = c.con.mem q := by
  unfold schedAlloc
  cases hc : c.con.schedc with
  | cons q rest =>
    have hmem : q ∈ c.con.schedc := by simp [hc]
    have hnd := hok.nodup
    rw [hc, List.nodup_cons] at hnd
    obtain ⟨hnq, hns⟩ := hok.apart q hmem
    exact ⟨_, _, rfl, (hok.alloc q (.inr (.inr hmem))).2, hnq, hns, hnd.1,
      fun q hq => List.mem_cons_of_mem _ hq, hnd.2, rfl, rfl, rfl, rfl, fun _ _ => rfl⟩
  | nil =>
    have hnew : ∀ q, q ∈ queued c.con ∨ q ∈ s ∨ q ∈ c.con.schedc → q ≠ .cell env.fresh := by
      intro q hq heq
      exact (hok.alloc q hq).1 (heq ▸ hfresh.1)
    refine ⟨_, _, rfl, by simp, fun h => hnew _ (.inl h) rfl, fun h => hnew _ (.inr (.inl h)) rfl,
      by simp, by simp, by simp, rfl, rfl, rfl, rfl, fun q hq => ?_⟩
    exact Function.update_of_ne hq ..

/-- **`schedule`**, where the table has an array: what becomes of the heap
and what of the table. -/
theorem scheduleFrom_spec (harray : c.hasArray = true)
    (hs : Holds (schedHash c.con.mem) c.con.schedqHt s) {addr : Addr}
    (hfresh : c.con.schedqHt.object addr = none) (grants : Grants) (p : Ptr) :
    ∃ c', scheduleFrom c grants p addr = some c' ∧ c'.con.mem = c.con.mem ∧
      c'.con.schedc = c.con.schedc ∧ c'.con.schedcnt = uint (c.con.schedcnt + 1) ∧
      ((queued c'.con = p ::ₘ queued c.con ∧
          (c.con.schedHeap.curLen = c.con.schedHeap.availLen → grants.heap = true)) ∨
        (queued c'.con = 0 ∧ c.con.schedHeap.curLen = c.con.schedHeap.availLen ∧
          grants.heap = false)) ∧
      (((∃ q ∈ s, idOf c.con.mem q = idOf c.con.mem p) ∧ c'.hasArray = true ∧
          Holds (schedHash c'.con.mem) c'.con.schedqHt s) ∨
        ((∀ q ∈ s, idOf c.con.mem q ≠ idOf c.con.mem p) ∧ grants.bucket = false ∧
          c'.hasArray = true ∧ Holds (schedHash c'.con.mem) c'.con.schedqHt s) ∨
        ((∀ q ∈ s, idOf c.con.mem q ≠ idOf c.con.mem p) ∧ grants.bucket = true ∧
          (Grows c.con.schedqHt → grants.array = true) ∧ c'.hasArray = true ∧
          Holds (schedHash c'.con.mem) c'.con.schedqHt (p ::ₘ s)) ∨
        ((∀ q ∈ s, idOf c.con.mem q ≠ idOf c.con.mem p) ∧ Grows c.con.schedqHt ∧
          grants.array = false ∧ c'.hasArray = false)) := by
  obtain ⟨t, r, hins, htable⟩ := trisHashtabInsertSafeFrom_spec (o := p)
    (schedHash_respects c.con.mem) hs hfresh grants.bucket grants.array
  obtain ⟨heap, res, hpush, hheap⟩ : ∃ heap res,
      trisHeapPushFrom (schedTimeCmp c.con.mem) grants.heap c.con.schedHeap p = (heap, res) ∧
      ((elements heap = p ::ₘ queued c.con ∧
          (c.con.schedHeap.curLen = c.con.schedHeap.availLen → grants.heap = true)) ∨
        (elements heap = 0 ∧ c.con.schedHeap.curLen = c.con.schedHeap.availLen ∧
          grants.heap = false)) := by
    by_cases hroom : c.con.schedHeap.curLen = c.con.schedHeap.availLen → grants.heap = true
    · exact ⟨_, _, trisHeapPushFrom_of_room hroom p, .inl ⟨elements_trisHeapPush _ _, hroom⟩⟩
    · obtain ⟨hfull, hno⟩ : c.con.schedHeap.curLen = c.con.schedHeap.availLen ∧
          grants.heap = false := by
        simpa using hroom
      obtain ⟨g, hg, hempty⟩ : ∃ g, trisHeapPushFrom (schedTimeCmp c.con.mem) false
          c.con.schedHeap p = (g, -1) ∧ elements g = 0 := trisHeapPushFrom_lost hfull p
      exact ⟨g, -1, by rw [hno]; exact hg, .inr ⟨hempty, hfull, hno⟩⟩
  have hins' : trisHashtabInsertSafeFrom (schedCmp c.con.mem) (schedHash c.con.mem) grants.bucket
      grants.array ⟨c.con.schedqHt, c.hasArray⟩ p addr = some (t, r) := by
    rw [harray]
    exact hins
  have hcmp : ∀ q, schedCmp c.con.mem p q = 0 ↔ idOf c.con.mem q = idOf c.con.mem p := fun q => by
    rw [schedCmp_eq_zero]
    exact eq_comm
  simp only [hcmp, ne_eq] at htable
  refine ⟨⟨{ c.con with
    schedHeap := heap
    schedqHt := t.tab
    schedcnt := uint (c.con.schedcnt + 1)
    highwater := if uint (c.con.schedcnt + 1) > c.con.highwater then uint (c.con.schedcnt + 1)
      else c.con.highwater }, t.hasArray⟩, ?_, rfl, rfl, rfl, hheap, htable⟩
  simp only [scheduleFrom, hpush, hins', Option.bind_eq_bind, Option.bind_some]

/-- **When an addition is right**: it gets no entry, or it gets all it
asks for, its id is not taken for a failure and not in the table, and the
table still has its array. -/
def AllocOk (c : AllocContext) (s : Multiset Ptr) (grants : Grants) : Prop :=
  (c.con.schedc = [] ∧ grants.entry = false) ∨
    (toInt c.con.eventcnt ≠ -1 ∧ c.hasArray = true ∧
      (∀ q ∈ s, idOf c.con.mem q ≠ toInt c.con.eventcnt) ∧
      (c.con.schedHeap.curLen = c.con.schedHeap.availLen → grants.heap = true) ∧
      grants.bucket = true ∧ (Grows c.con.schedqHt → grants.array = true))

theorem uint_succ_ne (n : ℕ) : uint (n + 1) ≠ n := by
  unfold uint
  omega

/-- All that is asked for is granted. -/
def Grants.all : Grants := ⟨true, true, true, true⟩

theorem schedOk_create {con₀ : SchedContext} (h : schedContextCreate = some con₀) :
    SchedOk ⟨con₀, true⟩ 0 := by
  obtain ⟨ht, hht, hcon⟩ := Option.bind_eq_some_iff.1 h
  obtain rfl := Option.some.inj hcon
  refine ⟨fun _ => trisHashtabCreate_holds hht, fun q hq => ?_, by simp, List.nodup_nil⟩
  rcases hq with hq | hq | hq
  · exact absurd hq (Multiset.notMem_zero q)
  · exact absurd hq (Multiset.notMem_zero q)
  · cases hq

end Sched

end Trismedia
