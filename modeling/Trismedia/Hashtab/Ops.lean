import Trismedia.Hashtab.Table
/-!
# One specification per operation

Each operation of the table, from a table that holds `s`: it returns, it
answers as the collection `s` does, and the table it leaves holds the
collection the answer calls for.
-/


namespace Trismedia

namespace Hashtab

open Dll

variable {α : Type} {compare : α → α → ℤ} {hash : α → ℕ} {tab tab' : TrisHashtab α}
variable {a b : Addr} {D L : List Addr} {o o' : α} {s : Multiset α}

/-- Equal objects hash equally: what the table asks of its two functions. -/
def HashRespects (compare : α → α → ℤ) (hash : α → ℕ) : Prop :=
  ∀ a b, compare a b = 0 → hash a = hash b

theorem mem_objects : o ∈ objects tab L ↔ ∃ a ∈ L, tab.object a = some o := by
  rw [objects, Multiset.mem_coe, List.mem_filterMap]

theorem TableOver.card_objects (ht : TableOver hash tab L) :
    Multiset.card (objects tab L) = L.length := by
  rw [objects, Multiset.coe_card]
  refine List.filterMap_length_eq_length.2 fun a ha => ?_
  obtain ⟨o, ho⟩ := (ht.live a).1 ha
  rw [ho]
  rfl

/-- Only the hash of what a table holds matters to it. -/
theorem Holds.congr_hash {hash' : α → ℕ} (hs : Holds hash tab s)
    (hag : ∀ o ∈ s, hash' o = hash o) : Holds hash' tab s := by
  obtain ⟨L, ht, rfl⟩ := hs
  have hslot : ∀ a ∈ L, bucketSlot hash' tab a = bucketSlot hash tab a := by
    intro a haL
    obtain ⟨o, ho⟩ := (ht.live a).1 haL
    rw [bucketSlot_of_object ho, bucketSlot_of_object ho, slotOf, slotOf,
      hag o (mem_objects.2 ⟨a, haL, ho⟩)]
  refine ⟨L, ⟨ht.size_pos, ht.tlist, fun h hh => ?_, ht.live, ht.elements⟩, rfl⟩
  obtain ⟨l, hl, hmem⟩ := ht.chains h hh
  refine ⟨l, hl, fun a => ?_⟩
  rw [hmem a]
  exact and_congr_right fun haL => by rw [hslot a haL]

/-! ## Creation -/

theorem trisHashtabCreate_holds {initialBuckets : ℤ} {resize : Option ResizeFn}
    {newsize : Option NewsizeFn} (h : trisHashtabCreate α initialBuckets resize newsize = some tab) :
    Holds hash tab 0 := by
  have hprime := trisIsPrime_nextPrime initialBuckets
  simp only [trisHashtabCreate, Option.ite_none_left_eq_some, Option.some.injEq] at h
  obtain ⟨hneg, rfl⟩ := h
  have hpos : 0 < (nextPrime initialBuckets).toNat := by
    rcases eq_or_ne (nextPrime initialBuckets) 0 with h0 | h0
    · rw [h0] at hprime
      cases hprime
    · omega
  exact ⟨[], ⟨hpos, rfl, fun h _ => ⟨[], rfl, by simp⟩, by simp, rfl⟩, rfl⟩

/-! ## Insertion -/

theorem tlistAddHead_eq (item : Addr) : tlistAddHead tab item = { tab with
    tnext := Function.update tab.tnext item tab.tlist
    tprev := setAt (Function.update tab.tprev item none) tab.tlist (some item)
    tlist := some item } := by
  unfold tlistAddHead
  cases h : tab.tlist <;> rfl

/-- **A bucket added** is the first of its chain and of `tlist`. -/
theorem addBucket_spec (ht : TableOver hash tab L) {addr : Addr} (hfresh : tab.object addr = none) :
    TableOver hash (addBucket tab o (slotOf hash tab o) addr) (addr :: L) ∧
      objects (addBucket tab o (slotOf hash tab o) addr) (addr :: L) = o ::ₘ objects tab L := by
  have haddr : addr ∉ L := fun hL => by
    obtain ⟨o', ho'⟩ := (ht.live addr).1 hL
    rw [hfresh] at ho'
    cases ho'
  have hne : ∀ c ∈ L, c ≠ addr := fun c hc hca => haddr (hca ▸ hc)
  have hlt : slotOf hash tab o < tab.hashTabSize := Nat.mod_lt _ ht.size_pos
  have hc : ChainsOver hash { tab with
      object := Function.update tab.object addr (some o)
      prev := Function.update tab.prev addr none } L :=
    ht.chains.congr rfl rfl fun c hcL =>
      ⟨rfl, Function.update_of_ne (hne c hcL) _ _, Function.update_of_ne (hne c hcL) _ _⟩
  have hlink := hc.linkBucket haddr (Function.update_self ..)
    (bucketSlot_of_object (Function.update_self ..)) hlt
  rw [addBucket]
  simp only [tlistAddHead_eq]
  refine ⟨⟨ht.size_pos, ht.tlist.pushFront haddr, ?_, fun c => ?_, ?_⟩, ?_⟩
  · exact hlink.congr rfl rfl fun _ _ => ⟨rfl, rfl, rfl⟩
  · change c ∈ addr :: L ↔ ∃ o', Function.update tab.object addr (some o) c = some o'
    rcases eq_or_ne c addr with rfl | hca
    · simp
    · rw [Function.update_of_ne hca, ← ht.live c, List.mem_cons]
      exact or_iff_right hca
  · change tab.hashTabElements + 1 = (addr :: L).length
    rw [ht.elements, List.length_cons]
  · change ((addr :: L).filterMap (Function.update tab.object addr (some o)) : Multiset α) = _
    rw [List.filterMap_cons_some (Function.update_self ..), ← Multiset.cons_coe]
    congr 2
    exact List.filterMap_congr fun c hc => Function.update_of_ne (hne c hc) _ _

/-- The size of the largest bucket is nobody's concern. -/
theorem TableOver.withLargest (ht : TableOver hash tab L) (largest : ℕ) :
    TableOver hash { tab with largestBucketSize := largest } L :=
  ⟨ht.size_pos, ht.tlist, ht.chains.congr rfl rfl fun _ _ => ⟨rfl, rfl, rfl⟩, ht.live, ht.elements⟩

/-- The chain an object goes to is counted. -/
theorem Holds.countLinks_isSome (hs : Holds hash tab s) (o : α) :
    ∃ c, countLinks tab.next tab.hashTabElements (tab.array (slotOf hash tab o)) = some c := by
  obtain ⟨L, ht, rfl⟩ := hs
  obtain ⟨l, hl, hlen, -⟩ := ht.chains.length_le (Nat.mod_lt (hash o) ht.size_pos)
  exact ⟨l.length, hl.countLinks_eq (ht.elements ▸ hlen)⟩

theorem insertImmediateBucket_spec (hs : Holds hash tab s) {addr : Addr}
    (hfresh : tab.object addr = none) :
    ∃ tab', trisHashtabInsertImmediateBucket hash tab (some o) (slotOf hash tab o) addr =
      some (tab', 1) ∧ Holds hash tab' (o ::ₘ s) := by
  obtain ⟨c, hcount⟩ := hs.countLinks_isSome o
  obtain ⟨L, ht, rfl⟩ := hs
  obtain ⟨largest, hlarge⟩ : ∃ n, n = if c + 1 > tab.largestBucketSize then c + 1
    else tab.largestBucketSize := ⟨_, rfl⟩
  have ht' := ht.withLargest largest
  obtain ⟨hadd, hobj⟩ := addBucket_spec (o := o) ht' hfresh
  obtain ⟨tab', heq, hover, hsame⟩ := resizeIfAsked_spec hadd
  refine ⟨tab', ?_, _, hover, ?_⟩
  · rw [trisHashtabInsertImmediateBucket, hcount]
    simp only [Option.bind_eq_bind, Option.bind_some, ← hlarge]
    exact congrArg (fun r => Option.bind r fun tab => some (tab, (1 : ℤ))) heq
  · rw [objects, hsame, ← objects, hobj]
    rfl

theorem trisHashtabInsertImmediate_spec (hs : Holds hash tab s) {addr : Addr}
    (hfresh : tab.object addr = none) :
    ∃ tab', trisHashtabInsertImmediate hash tab (some o) addr = some (tab', 1) ∧
      Holds hash tab' (o ::ₘ s) :=
  insertImmediateBucket_spec hs hfresh

/-! ## Lookup -/

/-- **The search of a chain** ends, at an allocated bucket of the chain
that has what is looked for, or nowhere if no object in the table that
hashes there has it. -/
theorem findBucket_spec (ht : TableOver hash tab L) (found : α → Bool)
    (hfound : ∀ o', found o' = true → hash o = hash o') :
    ∃ r, findBucket tab found (slotOf hash tab o) = some r ∧
      match r with
      | some b => b ∈ L ∧ bucketSlot hash tab b = slotOf hash tab o ∧
          ∃ o', tab.object b = some o' ∧ found o' = true
      | none => ∀ o' ∈ objects tab L, found o' = false := by
  obtain ⟨l, hl, hlen, hmem⟩ := ht.chains.length_le (Nat.mod_lt (hash o) ht.size_pos)
  refine ⟨_, hl.findLink_eq (ht.elements ▸ hlen), ?_⟩
  split
  · rename_i b hb
    obtain ⟨hbL, hslot⟩ := (hmem b).1 (List.mem_of_find?_eq_some hb)
    obtain ⟨o', ho'⟩ := (ht.live b).1 hbL
    have hfb := List.find?_some hb
    rw [ho'] at hfb
    exact ⟨hbL, hslot, o', ho', hfb⟩
  · rename_i hnone
    intro o' ho'
    obtain ⟨a, haL, hao⟩ := mem_objects.1 ho'
    rcases Bool.eq_false_or_eq_true (found o') with htrue | hfalse
    · have hslot : bucketSlot hash tab a = slotOf hash tab o := by
        rw [bucketSlot_of_object hao, slotOf, slotOf, hfound o' htrue]
      have hfa := List.find?_eq_none.1 hnone a ((hmem a).2 ⟨haL, hslot⟩)
      rw [hao] at hfa
      exact absurd htrue hfa
    · exact hfalse

/-- **Lookup** answers with an equal object exactly when there is one. -/
theorem lookupInternal_spec (hresp : HashRespects compare hash) (hs : Holds hash tab s) (o : α) :
    ∃ r, trisHashtabLookupInternal compare tab o (slotOf hash tab o) = some r ∧
      match r with
      | some o' => o' ∈ s ∧ compare o o' = 0
      | none => ∀ o' ∈ s, compare o o' ≠ 0 := by
  obtain ⟨L, ht, rfl⟩ := hs
  obtain ⟨r, hr, hspec⟩ := findBucket_spec (o := o) ht (fun o' => compare o o' == 0)
    fun o' h => hresp _ _ (by simpa using h)
  rw [trisHashtabLookupInternal, hr]
  cases r with
  | none => exact ⟨none, rfl, fun o' ho' => by simpa using hspec o' ho'⟩
  | some b =>
    obtain ⟨hbL, -, o', ho', heq⟩ := hspec
    exact ⟨some o', by simp [ho'], mem_objects.2 ⟨b, hbL, ho'⟩, by simpa using heq⟩

theorem trisHashtabLookup_spec (hresp : HashRespects compare hash) (hs : Holds hash tab s) (o : α) :
    ∃ r, trisHashtabLookup compare hash tab (some o) = some r ∧
      match r with
      | some o' => o' ∈ s ∧ compare o o' = 0
      | none => ∀ o' ∈ s, compare o o' ≠ 0 :=
  lookupInternal_spec hresp hs o

/-- **`insert_safe` refuses exactly the duplicates.** -/
theorem trisHashtabInsertSafe_spec (hresp : HashRespects compare hash) (hs : Holds hash tab s)
    {addr : Addr} (hfresh : tab.object addr = none) :
    ((∃ o' ∈ s, compare o o' = 0) ∧
      trisHashtabInsertSafe compare hash tab (some o) addr = some (tab, 0)) ∨
    ((∀ o' ∈ s, compare o o' ≠ 0) ∧ ∃ tab',
      trisHashtabInsertSafe compare hash tab (some o) addr = some (tab', 1) ∧
      Holds hash tab' (o ::ₘ s)) := by
  obtain ⟨r, hr, hspec⟩ := lookupInternal_spec hresp hs o
  have hbucket : trisHashtabLookupBucket compare hash tab (some o) =
      some (r, slotOf hash tab o) := by
    rw [trisHashtabLookupBucket, hr]
    rfl
  rw [trisHashtabInsertSafe, hbucket]
  cases r with
  | some o' => exact .inl ⟨⟨o', hspec.1, hspec.2⟩, rfl⟩
  | none => exact .inr ⟨hspec, insertImmediateBucket_spec hs hfresh⟩

/-! ## Removal -/

/-- `tlist_del_item`, for an item of the list. -/
theorem tlistDelItem_eq (hl : IsDll tab.tnext tab.tprev none tab.tlist L) (hb : b ∈ L) :
    tlistDelItem tab b = { tab with
      tlist := if tab.tprev b = none then tab.tnext b else tab.tlist
      tnext := setAt tab.tnext (tab.tprev b) (tab.tnext b)
      tprev := setAt tab.tprev (tab.tnext b) (tab.tprev b) } := by
  have hhead := hl.head_iff hb
  unfold tlistDelItem
  rcases hp : tab.tprev b with _ | p
  · rw [if_pos (hhead.2 hp), if_pos rfl]
    rfl
  · have hpb : p ≠ b := fun he => hl.prev_ne_self hb (he ▸ hp)
    have hnot : tab.tlist ≠ some b := fun he => by
      rw [hhead.1 he] at hp
      cases hp
    rw [if_neg hnot, if_neg (Option.some_ne_none p)]
    simp only [setAt_some, Function.update_of_ne hpb.symm]

theorem unlinkBucket_eq {h : ℕ} {l : List Addr}
    (hl : IsDll tab.next tab.prev none (tab.array h) l) (hb : b ∈ l) :
    unlinkBucket tab b h = { tab with
      array := Function.update tab.array h
        (if tab.prev b = none then tab.next b else tab.array h)
      next := setAt tab.next (tab.prev b) (tab.next b)
      prev := setAt tab.prev (tab.next b) (tab.prev b) } := by
  unfold unlinkBucket
  rcases hp : tab.prev b with _ | p
  · simp [hp]
  · have hpb : p ≠ b := fun he => hl.prev_ne_self hb (he ▸ hp)
    simp [Function.update_of_ne hpb.symm, hp]

/-- A bucket taken out of its chain leaves the other chains alone: its
neighbours are in its own. -/
theorem ChainsOver.unlinkBucket (hc : ChainsOver hash tab L) (hLnd : L.Nodup) (hb : b ∈ L)
    (hslot : bucketSlot hash tab b < tab.hashTabSize) :
    ChainsOver hash (unlinkBucket tab b (bucketSlot hash tab b)) (L.erase b) := by
  obtain ⟨l, hl, hmem⟩ := hc _ hslot
  have hbl : b ∈ l := (hmem b).2 ⟨hb, rfl⟩
  rw [unlinkBucket_eq hl hbl]
  intro k hk
  rcases eq_or_ne k (bucketSlot hash tab b) with rfl | hkb
  · refine ⟨l.erase b, ?_, fun c => ?_⟩
    · have hun := hl.unlink (fun p hp => by cases hp) hbl
      simpa only [Function.update_self] using hun
    · rw [hl.nodup.mem_erase_iff, hLnd.mem_erase_iff, hmem c, and_assoc]
      rfl
  · obtain ⟨l', hl', hmem'⟩ := hc k hk
    -- a neighbour of `b` hashes where `b` does
    have hout : ∀ c ∈ l', c ∉ l := fun c hc' hcl =>
      hkb (((hmem' c).1 hc').2.symm.trans ((hmem c).1 hcl).2)
    refine ⟨l', ?_, fun c => ?_⟩
    · simp only [Function.update_of_ne hkb]
      refine hl'.congr fun c hc' => ⟨setAt_of_ne fun hp => ?_, setAt_of_ne fun hn => ?_⟩
      · exact hout c hc' (hl.next_prev hbl hp (by simp)).1
      · exact hout c hc' (hl.prev_next hbl hn).1
    · rw [hmem' c, hLnd.mem_erase_iff]
      refine ⟨fun h => ⟨⟨fun hcb => hkb (hcb ▸ h.2.symm), h.1⟩, h.2⟩, fun h => ⟨h.1.2, h.2⟩⟩

/-- **A bucket removed** is in neither list any more. -/
theorem removeObjectInternal_spec (ht : TableOver hash tab L) (hb : b ∈ L)
    (ho : tab.object b = some o) :
    ∃ tab', trisHashtabRemoveObjectInternal tab b (bucketSlot hash tab b) = (tab', some o) ∧
      TableOver hash tab' (L.erase b) ∧ objects tab L = o ::ₘ objects tab' (L.erase b) := by
  have hLnd := ht.tlist.nodup
  have hslot : bucketSlot hash tab b < tab.hashTabSize := bucketSlot_lt ht.size_pos
  have hchains := ht.chains.unlinkBucket hLnd hb hslot
  obtain ⟨l, hl, hmem⟩ := ht.chains _ hslot
  have heq := unlinkBucket_eq hl ((hmem b).2 ⟨hb, rfl⟩)
  have htlist : IsDll (unlinkBucket tab b (bucketSlot hash tab b)).tnext
      (unlinkBucket tab b (bucketSlot hash tab b)).tprev none
      (unlinkBucket tab b (bucketSlot hash tab b)).tlist L := by
    rw [heq]
    exact ht.tlist
  have hdel := tlistDelItem_eq htlist hb
  rw [heq] at hdel hchains
  have hrem : trisHashtabRemoveObjectInternal tab b (bucketSlot hash tab b) = ({ tab with
      array := Function.update tab.array (bucketSlot hash tab b)
        (if tab.prev b = none then tab.next b else tab.array (bucketSlot hash tab b))
      next := setAt tab.next (tab.prev b) (tab.next b)
      prev := setAt tab.prev (tab.next b) (tab.prev b)
      tlist := if tab.tprev b = none then tab.tnext b else tab.tlist
      tnext := setAt tab.tnext (tab.tprev b) (tab.tnext b)
      tprev := setAt tab.tprev (tab.tnext b) (tab.tprev b)
      object := Function.update tab.object b none
      hashTabElements := tab.hashTabElements - 1 }, some o) := by
    rw [trisHashtabRemoveObjectInternal, heq, hdel]
    exact Prod.ext rfl ho
  refine ⟨_, hrem, ⟨ht.size_pos, ht.tlist.unlink (fun p hp => by cases hp) hb, ?_, fun c => ?_, ?_⟩,
    ?_⟩
  · exact hchains.congr rfl rfl fun c hc =>
      ⟨rfl, rfl, Function.update_of_ne (hLnd.mem_erase_iff.1 hc).1 _ _⟩
  · change c ∈ L.erase b ↔ ∃ o, Function.update tab.object b none c = some o
    rw [hLnd.mem_erase_iff]
    rcases eq_or_ne c b with rfl | hcb
    · simp
    · rw [Function.update_of_ne hcb, ← ht.live c]
      exact and_iff_right hcb
  · change tab.hashTabElements - 1 = (L.erase b).length
    rw [List.length_erase_of_mem hb, ht.elements]
  · have hperm := (List.perm_cons_erase hb).filterMap tab.object
    rw [List.filterMap_cons_some ho] at hperm
    have hrest : (L.erase b).filterMap (Function.update tab.object b none) =
        (L.erase b).filterMap tab.object :=
      List.filterMap_congr fun c hc => Function.update_of_ne (hLnd.mem_erase_iff.1 hc).1 _ _
    rw [objects, objects, hrest, Multiset.cons_coe]
    exact Multiset.coe_eq_coe.2 hperm

/-- The loop the two removals share. -/
theorem removeFirst_spec (hs : Holds hash tab s) (found : α → Bool)
    (hfound : ∀ o', found o' = true → hash o = hash o') :
    (∃ o' tab', removeFirst hash tab found o = some (tab', some o') ∧ found o' = true ∧
      ∃ t, s = o' ::ₘ t ∧ Holds hash tab' t) ∨
    ((∀ o' ∈ s, found o' = false) ∧ removeFirst hash tab found o = some (tab, none)) := by
  obtain ⟨L, ht, rfl⟩ := hs
  obtain ⟨r, hr, hspec⟩ := findBucket_spec ht found hfound
  unfold removeFirst
  simp only [hr, Option.bind_eq_bind, Option.bind_some]
  cases r with
  | none => exact .inr ⟨hspec, rfl⟩
  | some b =>
    obtain ⟨hbL, hslot, o', ho', hf⟩ := hspec
    obtain ⟨tab', heq, hover, hobj⟩ := removeObjectInternal_spec ht hbL ho'
    rw [hslot] at heq
    exact .inl ⟨o', tab', congrArg some heq, hf, _, hobj, _, hover, rfl⟩

theorem removeObjectViaLookup_spec (hresp : HashRespects compare hash) (hs : Holds hash tab s)
    (o : α) :
    (∃ o' tab', trisHashtabRemoveObjectViaLookup compare hash tab (some o) = some (tab', some o') ∧
      compare o o' = 0 ∧ ∃ t, s = o' ::ₘ t ∧ Holds hash tab' t) ∨
    ((∀ o' ∈ s, compare o o' ≠ 0) ∧
      trisHashtabRemoveObjectViaLookup compare hash tab (some o) = some (tab, none)) := by
  rcases removeFirst_spec (o := o) hs (fun o' => compare o o' == 0)
    (fun o' h => hresp _ _ (by simpa using h)) with ⟨o', tab', heq, hf, ht⟩ | ⟨hnone, heq⟩
  · exact .inl ⟨o', tab', heq, by simpa using hf, ht⟩
  · exact .inr ⟨fun o' ho' => by simpa using hnone o' ho', heq⟩

theorem removeThisObject_spec [DecidableEq α] (hs : Holds hash tab s) (o : α) :
    (∃ tab', trisHashtabRemoveThisObject hash tab (some o) = some (tab', some o) ∧
      ∃ t, s = o ::ₘ t ∧ Holds hash tab' t) ∨
    (o ∉ s ∧ trisHashtabRemoveThisObject hash tab (some o) = some (tab, none)) := by
  rcases removeFirst_spec (o := o) hs (fun o' => o == o')
    (fun o' h => by rw [eq_of_beq h]) with ⟨o', tab', heq, hf, ht⟩ | ⟨hnone, heq⟩
  · obtain rfl : o = o' := eq_of_beq hf
    exact .inl ⟨tab', heq, ht⟩
  · exact .inr ⟨fun ho => by simpa using hnone o ho, heq⟩

/-! ## Traversal -/

theorem nextLoop_spec {l : List Addr} {pr p : Option Addr} {n : ℕ}
    (hl : IsDll tab.tnext tab.tprev pr p l) (hlive : ∀ a ∈ l, ∃ o, tab.object a = some o)
    (hn : l.length ≤ n) : nextLoop tab n p = some (l.filterMap tab.object) := by
  induction l generalizing pr p n with
  | nil =>
    obtain rfl : p = none := hl
    unfold nextLoop
    rfl
  | cons b l ih =>
    obtain ⟨rfl, -, hl⟩ := hl
    obtain ⟨o, ho⟩ := hlive b List.mem_cons_self
    cases n with
    | zero => cases hn
    | succ n =>
      have hrec := ih hl (fun a ha => hlive a (List.mem_cons_of_mem _ ha))
        (Nat.le_of_succ_le_succ hn)
      unfold nextLoop
      simp only [trisHashtabNext, ho, hrec, List.filterMap_cons_some ho, Option.map_some]

/-- **A traversal hands out what the table holds**, each object as often
as it is stored. -/
theorem traversal_spec (hs : Holds hash tab s) :
    ∃ os, traversal tab = some os ∧ (os : Multiset α) = s ∧ tab.hashTabElements = os.length := by
  obtain ⟨L, ht, rfl⟩ := hs
  refine ⟨L.filterMap tab.object, ?_, rfl, ?_⟩
  · exact nextLoop_spec ht.tlist (fun a ha => (ht.live a).1 ha) ht.elements.ge
  · rw [ht.elements, ← ht.card_objects, objects, Multiset.coe_card]

end Hashtab

end Trismedia
