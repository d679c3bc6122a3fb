import Mathlib.Data.Fintype.EquivFin
import Trismedia.Common.LastBy
import Trismedia.Event.Cache
/-!
# Runs of the event cache

The cache of `TRIS_EVENT_DEVICE_STATE_CHANGE` keeps the last event of each
device: its comparison leaves the entity ids out. So it keeps the last
event of each device and entity id exactly when no device comes with two.
-/


namespace Trismedia

namespace Event

open Ao2 CInt

/-- An event of type `TRIS_EVENT_DEVICE_STATE_CHANGE`. Elements of its own
may stand between and behind those that matter. -/
structure Change where
  ies : List Ie
  device : Text
  eid : Eid
  fits : eventSize ies ≤ 65535
  device_first : (firstOf .device ies).map Ie.data = some (.str device)
  eid_first : (firstOf .eid ies).map Ie.data = some (.raw (List.ofFn eid))

namespace Change

def event (x : Change) : List Octet := layout .deviceStateChange x.ies

/-- The key it should have in the cache. -/
def pair (x : Change) : Text × Eid := (x.device, x.eid)

theorem ofDevice (x : Change) : OfDevice x.event x.device := by
  refine ⟨x.ies, rfl, x.fits, x.device_first, ?_⟩
  obtain ⟨ie, hie, -⟩ := Option.map_eq_some_iff.1 x.eid_first
  rw [hie]
  rfl

end Change

variable {cache cache' mid : Cache} {xs evs : List Change} {x y : Change} {d d2 : Text}
variable {event event2 : List Octet} {data : ℕ → List Octet} {links hits : Multiset ℕ} {addr : ℕ} {behind : Behind}

/-! ## What the cache holds -/

/-- The cache holds the events of `xs`, and nobody refers to them but it. -/
def Cached (cache : Cache) (xs : List Change) : Prop :=
  ∃ data links, Holds hashFn numCacheBuckets data 0 links cache.mem cache.container ∧
    links.map data = (xs.map Change.event : Multiset (List Octet))

theorem cached_init : Cached cacheInit [] :=
  ⟨fun _ => [], 0, ao2ContainerAlloc_holds numCacheBuckets _, rfl⟩

theorem Cached.events_eq (h : Cached cache xs) :
    cache.events = (xs.map Change.event : Multiset (List Octet)) := by
  obtain ⟨data, links, hholds, hmap⟩ := h
  have hlive : ∀ a ∈ links, (cache.mem a).map Astobj2.userData = some (data a) := by
    intro a ha
    rw [hholds.accounts.live a (Multiset.mem_add.2 (.inr ha))]
    rfl
  unfold Cache.events
  rw [hholds.total, ← hmap]
  induction links using Quotient.inductionOn with
  | h l =>
    have hl : l.filterMap (fun a => (cache.mem a).map Astobj2.userData) = l.map data := by
      rw [← List.filterMap_eq_map]
      exact List.filterMap_congr hlive
    exact congrArg _ hl

/-- What is linked is an event of `xs`. -/
theorem exists_change (hmap : links.map data = (xs.map Change.event : Multiset (List Octet)))
    {a : ℕ} (ha : a ∈ links) : ∃ y ∈ xs, data a = y.event := by
  have hmem : data a ∈ (xs.map Change.event : Multiset (List Octet)) :=
    hmap ▸ Multiset.mem_map_of_mem data ha
  obtain ⟨y, hy, heq⟩ := List.mem_map.1 hmem
  exact ⟨y, hy, heq.symm⟩

theorem exists_link (hmap : links.map data = (xs.map Change.event : Multiset (List Octet)))
    (hx : x ∈ xs) : ∃ a ∈ links, data a = x.event := by
  have hmem : x.event ∈ links.map data := hmap ▸ List.mem_map.2 ⟨x, hx, rfl⟩
  exact Multiset.mem_map.1 hmem

/-! ## Searching the cache -/

/-- The hash of a device has a bucket. -/
def Hashable (d : Text) : Prop := (trisStrHash d.1).toInt ≠ intMin

theorem hashFn_of (h : OfDevice event d) : hashFn event = trisStrHash d.1 := by
  unfold hashFn
  rw [h.hash]
  rfl

theorem cmpFn_of (h : OfDevice event d) (h2 : OfDevice event2 d2) :
    cmpFn event event2 = if d = d2 then cmpMatch else 0 := by
  unfold cmpFn
  rw [h.cmp h2]
  rfl

theorem isMatch_cmpFn (h : OfDevice event d) (h2 : OfDevice event2 d2) :
    IsMatch (cmpFn event event2) ↔ d = d2 := by
  rw [cmpFn_of h h2]
  by_cases heq : d = d2
  · rw [if_pos heq]
    exact iff_of_true (by unfold IsMatch; decide) heq
  · rw [if_neg heq]
    exact iff_of_false (by unfold IsMatch; decide) heq

/-- Nothing in the cache stops a search. -/
theorem cached_noStop (hmap : links.map data = (xs.map Change.event : Multiset (List Octet)))
    (h2 : OfDevice event2 d2) : NoStop (cmpCallback cmpFn event2) data links := by
  intro a ha hans
  obtain ⟨y, -, hy⟩ := exists_change hmap ha
  rw [cmpCallback_answers, hy, cmpFn_of y.ofDevice h2] at hans
  by_cases heq : y.device = d2
  · rw [if_pos heq] at hans
    exact absurd hans (by decide)
  · rw [if_neg heq] at hans
    exact absurd hans (by decide)

/-- **A search finds the device**, if its event is in the cache. -/
theorem Searched.hits_ne_zero {flags : SearchFlags} {mem' : Memory ℕ (List Octet)}
    {c' : Ao2Container ℕ} {ret : Option ℕ} (h2 : OfDevice event2 d)
    (hmap : links.map data = (xs.map Change.event : Multiset (List Octet)))
    (hs : Searched hashFn numCacheBuckets (trisStrHash d.1) data 0 links flags
      (cmpCallback cmpFn event2) mem' c' ret hits)
    (hm : flags.objMultiple = true → flags.objNodata = true)
    {a : ℕ} (ha : a ∈ links) (hx : OfDevice (data a) d) : hits ≠ 0 := by
  intro hzero
  have hsilent := hs.silent hzero hm (cached_noStop hmap h2) a ha (hashFn_of hx)
  rw [cmpCallback_answers, cmpFn_of hx h2, if_pos rfl] at hsilent
  exact absurd hsilent (by decide)

/-- Where a search for a device goes. -/
theorem search_range (flags : SearchFlags) (hd : Hashable d) (hp : flags.objPointer = true)
    (hc : flags.objContinue = false) : ∃ start i last,
      searchRange numCacheBuckets.toInt flags (trisStrHash d.1) = some (start, i, last) ∧
        last < intMax := by
  have hn : numCacheBuckets.toInt = 563 := by decide
  have hrange := searchRange_of_nonneg hp (by decide : (563 : ℤ) ≠ 0) (trisStrHashAdd_nonneg hd)
  rw [hn]
  refine ⟨_, _, _, hrange, ?_⟩
  have hlow := Int.emod_nonneg (trisStrHash d.1).toInt (by decide : (563 : ℤ) ≠ 0)
  have hhigh := Int.emod_lt_of_pos (trisStrHash d.1).toInt (by decide : (0 : ℤ) < 563)
  rw [hc, if_neg (by simp), wrapInt_of_inInt]
  · unfold intMax
    omega
  · unfold InInt intMin intMax
    omega

/-! ## Replacing -/

/-- The event is about the device. -/
def About (d : Text) (event : List Octet) : Prop :=
  eventGetIeStr guarded event .device = some (some d.1)

instance (d : Text) : DecidablePred (About d) := fun event =>
  inferInstanceAs (Decidable (eventGetIeStr guarded event .device = some (some d.1)))

theorem about_iff (y : Change) : About d y.event ↔ y.device = d := by
  unfold About
  rw [y.ofDevice.looked.1.2, Option.some.injEq, Option.some.injEq]
  exact ⟨fun h => Subtype.ext h, fun h => congrArg _ h⟩

theorem card_about_le (hmap : links.map data = (xs.map Change.event : Multiset (List Octet)))
    (hnd : (xs.map Change.device).Nodup) :
    (links.filter fun a => About d (data a)).card ≤ 1 := by
  have hcount : (xs.map Change.device).count d ≤ 1 := List.nodup_iff_count_le_one.1 hnd d
  have hlinks : (links.filter fun a => About d (data a)).card =
      (links.map data).countP (About d) := (Multiset.countP_map data links (About d)).symm
  have hxs : (xs.map Change.event).countP (fun e => About d e) = (xs.map Change.device).count d := by
    rw [List.count_eq_countP, List.countP_map, List.countP_map]
    refine List.countP_congr fun y _ => ?_
    rw [Function.comp, Function.comp, decide_eq_true_eq, beq_iff_eq]
    exact about_iff y
  rw [hlinks, hmap, Multiset.coe_countP, hxs]
  exact hcount

/-- No event is linked twice. -/
theorem links_nodup (hmap : links.map data = (xs.map Change.event : Multiset (List Octet)))
    (hnd : (xs.map Change.device).Nodup) : links.Nodup := by
  have hevents : (xs.map Change.event).Nodup := by
    refine List.Nodup.map_on (fun x hx y hy heq => ?_) (List.Nodup.of_map _ hnd)
    have habout : About x.device y.event := heq ▸ (about_iff x).2 rfl
    exact List.inj_on_of_nodup_map hnd hx hy ((about_iff y).1 habout).symm
  refine Multiset.Nodup.of_map data ?_
  rw [hmap]
  exact Multiset.coe_nodup.2 hevents

/-- **The matches are removed**: the event of the device, if there is one. -/
theorem removeMatches_spec (h : Cached cache xs) (hnd : (xs.map Change.device).Nodup)
    (hd : Hashable x.device) :
    (∃ fuel mid, removeMatches fuel cache x.event = some mid) ∧
    ∀ fuel mid, removeMatches fuel cache x.event = some mid →
      Cached mid (xs.filter fun y => y.device ≠ x.device) := by
  obtain ⟨data, links, hholds, hmap⟩ := h
  have hroom : Room (⟨true, true, true, true, false⟩ : SearchFlags) 0 links := by
    intro hf
    cases hf
  constructor
  · obtain ⟨start, i, last, hrange, hlast⟩ := search_range
      ⟨true, true, true, true, false⟩ hd rfl rfl
    obtain ⟨fuel, r, hr⟩ := ao2Callback_returns (cmpCallback cmpFn x.event) () hholds rfl rfl
      hroom hrange hlast
    refine ⟨fuel, ⟨r.1, r.2.1⟩, ?_⟩
    unfold removeMatches
    rw [x.ofDevice.hash, Option.bind_eq_bind, Option.bind_some, hr]
    rfl
  · intro fuel mid hmid
    unfold removeMatches at hmid
    rw [x.ofDevice.hash, Option.bind_eq_bind, Option.bind_some] at hmid
    obtain ⟨⟨mem, container, arg, ret⟩, hcall, hret⟩ := Option.bind_eq_some_iff.1 hmid
    rw [Option.some.injEq] at hret
    obtain ⟨hits, hs⟩ := ao2Callback_spec hholds rfl (fun hf => by cases hf) hroom hcall
    -- what is hit is what is about the device
    have hhits : hits = links.filter fun a => About x.device (data a) := by
      refine Multiset.eq_of_le_of_card_le (Multiset.le_filter.2 ⟨hs.gone_le, fun a ha => ?_⟩) ?_
      · obtain ⟨hlinked, hmatched⟩ := hs.matched a ha
        obtain ⟨y, -, hy⟩ := exists_change hmap hlinked
        rw [cmpCallback_matched, hy, isMatch_cmpFn y.ofDevice x.ofDevice] at hmatched
        rw [hy]
        exact (about_iff y).2 hmatched
      · have hone := card_about_le (d := x.device) hmap hnd
        by_cases hzero : hits = 0
        · rw [hzero, Multiset.card_zero, Nat.le_zero, Multiset.card_eq_zero,
            Multiset.filter_eq_nil]
          intro a ha habout
          obtain ⟨y, -, hy⟩ := exists_change hmap ha
          rw [hy] at habout
          have hof : OfDevice (data a) x.device := by
            rw [hy, ← (about_iff y).1 habout]
            exact y.ofDevice
          exact Searched.hits_ne_zero x.ofDevice hmap hs (fun _ => rfl) ha hof hzero
        · have hpos := Multiset.card_pos.2 hzero
          omega
    refine ⟨data, links - hits, ?_, ?_⟩
    · rw [← hret]
      exact hs.holds
    · have hfilter : (links.filter fun a => ¬ About x.device (data a)).map data =
          (links.map data).filter fun e => ¬ About x.device e :=
        (Multiset.filter_map (fun e => ¬ About x.device e) data links).symm
      have hxs : (xs.map Change.event).filter (fun e => ¬ About x.device e) =
          (xs.filter fun y => y.device ≠ x.device).map Change.event := by
        rw [List.filter_map]
        congr 1
        refine List.filter_congr fun y _ => ?_
        rw [Function.comp, decide_eq_decide, not_iff_not]
        exact about_iff y
      rw [hhits, Multiset.sub_filter_eq_filter_not, hfilter, hmap, Multiset.filter_coe, hxs]

theorem slotOk (hd : Hashable d) : SlotOk numCacheBuckets.toInt (trisStrHash d.1).toInt :=
  trisStrHashAdd_slotOk (by decide) hd (by decide)

/-- **A copy is added to the cache.** -/
theorem eventDupAndCache_spec (h : Cached mid xs) (hfree : mid.mem addr = none)
    (hd : Hashable x.device) (hfew : (xs.length : ℤ) < intMax) :
    ∃ cache', eventDupAndCache mid addr x.event = some cache' ∧ Cached cache' (xs ++ [x]) := by
  obtain ⟨data, links, hholds, hmap⟩ := h
  have hcard : links.card = xs.length := by
    have heq := congrArg Multiset.card hmap
    rwa [Multiset.card_map, Multiset.coe_card, List.length_map] at heq
  have hnot : addr ∉ links := by
    intro hmem
    rw [hholds.accounts.live addr (Multiset.mem_add.2 (.inr hmem))] at hfree
    cases hfree
  have hone : (addr ::ₘ 0 + links).count addr = 1 := by
    rw [Multiset.cons_add, zero_add, Multiset.count_cons_self, Multiset.count_eq_zero.2 hnot]
  have halloc := ao2Alloc_spec hholds hfree x.event
  have hslot : SlotOk numCacheBuckets.toInt
      (hashFn (Function.update data addr x.event addr)).toInt := by
    rw [Function.update_self, hashFn_of x.ofDevice]
    exact slotOk hd
  have hheld : addr ∈ addr ::ₘ 0 + links := Multiset.mem_add.2 (.inl (Multiset.mem_cons_self _ _))
  obtain ⟨mem, container, hlink, hlinked⟩ := ao2Link_spec halloc hheld hslot
    (by rw [hone]; decide) (by omega)
  have htwo : (addr ::ₘ 0 + addr ::ₘ links).count addr = 2 := by
    rw [Multiset.cons_add, zero_add, Multiset.count_cons_self, Multiset.count_cons_self,
      Multiset.count_eq_zero.2 hnot]
  obtain ⟨mem', href, hdone⟩ : ∃ mem', ao2Ref mem addr (-1) = some (mem', _) ∧
      Holds hashFn numCacheBuckets (Function.update data addr x.event) 0 (addr ::ₘ links) mem'
        container :=
    ao2Ref_spec hlinked (Multiset.mem_add.2 (.inl (Multiset.mem_cons_self _ _)))
      (by simp) (fun b hb => by simp [hb]) (by rw [htwo]; decide)
  refine ⟨⟨mem', container⟩, ?_, Function.update data addr x.event, addr ::ₘ links, hdone, ?_⟩
  · unfold eventDupAndCache
    rw [x.ofDevice.dup]
    simp only [Option.bind_eq_bind, Option.bind_some]
    rw [hlink]
    simp only [Option.bind_some]
    rw [href]
    rfl
  · have hsame : links.map (Function.update data addr x.event) = links.map data := by
      refine Multiset.map_congr rfl fun a ha => Function.update_of_ne ?_ _ _
      rintro rfl
      exact hnot ha
    rw [Multiset.map_cons, Function.update_self, hsame, hmap, Multiset.cons_coe, List.map_append]
    exact Multiset.coe_eq_coe.2 (List.perm_append_singleton _ _).symm

/-! ## Looking up -/

theorem ntohsAt_total (behind : ℕ → Octet) (block : List Octet) (i : ℕ) :
    ∃ n, ntohsAt (fun i => some (behind i)) block i = some n := by
  have hoctet : ∀ i, ∃ o, octetAt (fun i => some (behind i)) block i = some o := by
    intro i
    unfold octetAt
    cases block[i]? with
    | none => exact ⟨_, rfl⟩
    | some o => exact ⟨o, rfl⟩
  obtain ⟨a, ha⟩ := hoctet i
  obtain ⟨b, hb⟩ := hoctet (i + 1)
  unfold ntohsAt
  rw [ha, hb]
  exact ⟨_, rfl⟩

/-- **An event without elements**: whether it gets an entity id is up to
what lies behind it. -/
theorem eventNew_empty (behind : ℕ → Octet) (eidDefault : Eid) (type : EventType) :
    ∃ ies, eventNew (fun i => some (behind i)) eidDefault type [] = some (layout type ies) ∧
      (ies = [] ∨ ies = [⟨.eid, .raw (List.ofFn eidDefault)⟩]) := by
  have happend : appendAll (header type) [] = some (layout type []) := appendAll_header (by decide)
  have hinit : eventIteratorInit (fun i => some (behind i)) (layout type []) = some ⟨4, 4⟩ :=
    layout_init (by decide)
  obtain ⟨t, ht⟩ := ntohsAt_total behind (layout type []) 4
  obtain ⟨len, hlen⟩ := ntohsAt_total behind (layout type []) (4 + 2)
  have hraw : eventGetIeRaw (fun i => some (behind i)) (layout type []) .eid =
      some (if t = IeType.eid.number then some 8 else none) := by
    unfold eventGetIeRaw
    rw [hinit, Option.bind_eq_bind, Option.bind_some, getIeRawLoop, eventIteratorGetIeType, ht,
      Option.bind_eq_bind, Option.bind_some]
    by_cases hteid : t = IeType.eid.number
    · rw [if_pos hteid, if_pos hteid]
    · have hnext : eventIteratorNext (fun i => some (behind i)) (layout type []) ⟨4, 4⟩ =
          some (⟨4, 4 + 4 + len⟩, true) := by
        have hend : 4 ≤ 4 + 4 + len := by omega
        unfold eventIteratorNext
        rw [hlen, Option.bind_eq_bind, Option.bind_some]
        simp only [decide_eq_true hend]
      rw [if_neg hteid, if_neg hteid, hnext]
      rfl
  have hfits : eventSize ([] ++ [⟨.eid, .raw (List.ofFn eidDefault)⟩]) ≤ 65535 := by
    simp [eventSize, octets_length, Ie.payload, IeData.payload]
  have hadd : eventAppendIeRaw (layout type []) .eid (List.ofFn eidDefault) =
      some (layout type [⟨.eid, .raw (List.ofFn eidDefault)⟩]) := by
    have hspec : eventAppendIeRaw (layout type []) .eid
        (Ie.payload ⟨.eid, .raw (List.ofFn eidDefault)⟩) = _ := eventAppendIeRaw_spec hfits
    exact hspec
  unfold eventNew
  rw [happend, Option.bind_eq_bind, Option.bind_some, hraw, Option.bind_eq_bind, Option.bind_some]
  by_cases hteid : t = IeType.eid.number
  · rw [if_pos hteid]
    exact ⟨[], rfl, .inl rfl⟩
  · rw [if_neg hteid]
    exact ⟨_, hadd, .inr rfl⟩

/-- The arguments of a look-up. -/
def lookupArgs (device : Text) (eid : Eid) : List Ie :=
  [⟨.device, .str device⟩, ⟨.eid, .raw (List.ofFn eid)⟩]

/-- **The event that is looked for.** -/
theorem lookup_event (behind : ℕ → Octet) (eidDefault eid : Eid) (hfit : d.1.length ≤ 65502) :
    ∃ event event', eventNew (fun i => some (behind i)) eidDefault .deviceStateChange [] =
      some event ∧ appendAll event (lookupArgs d eid) = some event' ∧ OfDevice event' d := by
  obtain ⟨ies, hnew, hies⟩ := eventNew_empty behind eidDefault .deviceStateChange
  have hsize : eventSize (ies ++ lookupArgs d eid) ≤ 65535 := by
    rcases hies with rfl | rfl
    all_goals
      simp only [lookupArgs, eventSize, body_append, body_cons, body_nil, List.length_append,
        octets_length, Ie.payload, IeData.payload, List.length_ofFn, List.length_nil, hostOrder,
        List.length_cons]
      omega
  refine ⟨_, _, hnew, appendAll_layout hsize, _, rfl, hsize, ?_⟩
  rcases hies with rfl | rfl
  · exact ⟨rfl, rfl⟩
  · exact ⟨rfl, rfl⟩

/-- **What is found is copied**, and the reference to it dropped. -/
theorem dupFound_spec (cache : Cache) {a : ℕ}
    (hholds : Holds hashFn numCacheBuckets data {a} links cache.mem cache.container)
    (ha : a ∈ links) (hdup : eventDup (data a) = some (data a)) :
    ∃ cache', dupFound cache (some a) = some (cache', some (data a)) ∧
      Holds hashFn numCacheBuckets data 0 links cache'.mem cache'.container := by
  have hmem : a ∈ ({a} : Multiset ℕ) + links := Multiset.mem_add.2 (.inr ha)
  have hroom := hholds.accounts.room a
  obtain ⟨mem', href, hdone⟩ : ∃ mem', ao2Ref cache.mem a (-1) = some (mem', _) ∧
      Holds hashFn numCacheBuckets data 0 links mem' cache.container :=
    ao2Ref_spec hholds hmem (by simp) (fun b hb => by simp [hb]) (by omega)
  refine ⟨⟨mem', cache.container⟩, ?_, hdone⟩
  unfold dupFound
  simp only [hholds.accounts.live a hmem, Option.bind_eq_bind, Option.bind_some, hdup]
  rw [href]
  rfl

/-- **A look-up** returns a copy of the event of the device, whatever
entity id it asks for, and leaves the cache as it is. -/
theorem eventGetCached_spec (h : Cached cache xs) (hnd : (xs.map Change.device).Nodup)
    (hx : x ∈ xs) (hd : Hashable x.device) (hfit : x.device.1.length ≤ 65502)
    (behind : ℕ → Octet) (eidDefault eid : Eid) :
    (∃ fuel r, eventGetCached fuel cache behind eidDefault .deviceStateChange
      (lookupArgs x.device eid) = some r) ∧
    ∀ fuel r, eventGetCached fuel cache behind eidDefault .deviceStateChange
      (lookupArgs x.device eid) = some r → r.2 = some x.event ∧ Cached r.1 xs := by
  obtain ⟨data, links, hholds, hmap⟩ := h
  obtain ⟨event0, event, hnew, happend, hof⟩ := lookup_event behind eidDefault eid hfit
  have hcalled : ∀ fuel, eventGetCached fuel cache behind eidDefault .deviceStateChange
      (lookupArgs x.device eid) = (ao2Callback fuel cache.mem cache.container
        ⟨false, false, false, true, false⟩ (trisStrHash x.device.1) (cmpCallback cmpFn event)
          ()).bind fun r => dupFound ⟨r.1, r.2.1⟩ r.2.2.2 := by
    intro fuel
    unfold eventGetCached ao2Find
    rw [hnew, Option.bind_eq_bind, Option.bind_some, happend, Option.bind_eq_bind,
      Option.bind_some, hof.hash, Option.bind_eq_bind, Option.bind_some, hashFn_of hof]
    cases ao2Callback fuel cache.mem cache.container ⟨false, false, false, true, false⟩
      (trisStrHash x.device.1) (cmpCallback cmpFn event) () with
    | none => rfl
    | some r => rfl
  have hroom : Room (⟨false, false, false, true, false⟩ : SearchFlags) 0 links := by
    intro _ a _
    have hle := Multiset.nodup_iff_count_le_one.1 (links_nodup hmap hnd) a
    rw [zero_add]
    unfold intMax
    omega
  have hfound : ∀ fuel r, ao2Callback fuel cache.mem cache.container
      ⟨false, false, false, true, false⟩ (trisStrHash x.device.1) (cmpCallback cmpFn event) () =
        some r → ∃ cache', dupFound ⟨r.1, r.2.1⟩ r.2.2.2 = some (cache', some x.event) ∧
          Cached cache' xs := by
    intro fuel r hr
    obtain ⟨hits, hs⟩ := ao2Callback_spec hholds rfl (fun hf => by cases hf) hroom hr
    obtain ⟨b, hb, hbx⟩ := exists_link hmap hx
    have hofb : OfDevice (data b) x.device := hbx ▸ x.ofDevice
    have hne := Searched.hits_ne_zero hof hmap hs (fun hf => by cases hf) hb hofb
    rcases hs.ret_find rfl with ⟨hzero, -⟩ | ⟨a, hhits, hret⟩
    · exact absurd hzero hne
    · obtain ⟨hlinked, hmatched⟩ := hs.matched a (hhits ▸ Multiset.mem_singleton_self a)
      obtain ⟨y, hy, hya⟩ := exists_change hmap hlinked
      rw [cmpCallback_matched, hya, isMatch_cmpFn y.ofDevice hof] at hmatched
      obtain rfl : y = x := List.inj_on_of_nodup_map hnd hy hx hmatched
      have hholds' : Holds hashFn numCacheBuckets data {a} links r.1 r.2.1 := by
        have hall := hs.holds
        rw [hhits] at hall
        simpa [owned, gone] using hall
      obtain ⟨cache', hdup, hdone⟩ := dupFound_spec ⟨r.1, r.2.1⟩ hholds' hlinked
        (hya ▸ y.ofDevice.dup)
      rw [hret]
      exact ⟨cache', hya ▸ hdup, data, links, hdone, hmap⟩
  constructor
  · obtain ⟨start, i, last, hrange, -⟩ := search_range
      ⟨false, false, false, true, false⟩ hd rfl rfl
    obtain ⟨fuel, r, hr⟩ := ao2Callback_returns (cmpCallback cmpFn event) () hholds rfl rfl hroom
      hrange (cached_noStop hmap hof)
    obtain ⟨cache', hdup, -⟩ := hfound fuel r hr
    exact ⟨fuel, _, by rw [hcalled, hr, Option.bind_some, hdup]⟩
  · intro fuel r hr
    rw [hcalled] at hr
    obtain ⟨r', hr', hdup⟩ := Option.bind_eq_some_iff.1 hr
    obtain ⟨cache', hdup', hdone⟩ := hfound fuel r' hr'
    rw [hdup', Option.some.injEq] at hdup
    rw [← hdup]
    exact ⟨rfl, hdone⟩

/-! ## Runs -/

/-- One call of `tris_event_queue_and_cache`. -/
def QueueStep (cache : Cache) (ev : ℕ × Change) (cache' : Cache) : Prop :=
  EventQueueAndCache cache ev.1 ev.2.event cache'

/-- **The cache keeps the last event of each device**, whatever their
entity ids. -/
theorem cached_of_trace {evs : List (ℕ × Change)} (h : Trace QueueStep cacheInit evs cache)
    (hhash : ∀ ev ∈ evs, Hashable ev.2.device)
    (hfew : ((evs.map fun ev => ev.2.device).dedup.length : ℤ) ≤ intMax) :
    Cached cache (lastBy Change.device (evs.map Prod.snd)) := by
  induction h with
  | nil => exact cached_init
  | @snoc cache cache' evs ev htrace hstep ih =>
    obtain ⟨fuel, mid, hremove, hfree, hadd⟩ := hstep
    have hlast := lastBy_snoc Change.device (evs.map Prod.snd) ev.2
    have hlen : ((lastBy Change.device ((evs ++ [ev]).map Prod.snd)).length : ℤ) ≤ intMax := by
      have hmap := congrArg List.length
        (map_lastBy Change.device ((evs ++ [ev]).map Prod.snd))
      rw [List.length_map, List.map_map] at hmap
      rw [hmap]
      exact hfew
    have hold : ((evs.map fun ev => ev.2.device).dedup.length : ℤ) ≤ intMax := by
      have hsub : (evs.map fun ev => ev.2.device).dedup.length ≤
          ((evs ++ [ev]).map fun ev => ev.2.device).dedup.length := by
        refine List.Subperm.length_le (List.subperm_of_subset (List.nodup_dedup _) fun d hd => ?_)
        rw [List.mem_dedup] at hd ⊢
        rw [List.map_append]
        exact List.mem_append_left _ hd
      omega
    have hcached := ih (fun ev hev => hhash ev (List.mem_append_left _ hev)) hold
    have hd : Hashable ev.2.device := hhash ev (by simp)
    rw [List.map_append, List.map_singleton, hlast] at hlen ⊢
    rw [List.length_append, List.length_singleton] at hlen
    have hmid := (removeMatches_spec hcached (nodup_lastBy _ _) hd).2 fuel mid hremove
    obtain ⟨cache'', hadd', hdone⟩ := eventDupAndCache_spec hmid hfree hd (by omega)
    rw [hadd, Option.some.injEq] at hadd'
    rw [hadd']
    exact hdone

/-- A look-up, for as many rounds as it takes. -/
def LooksUp (cache : Cache) (behind : ℕ → Octet) (eidDefault : Eid) (device : Text) (eid : Eid)
    (r : Cache × Option (List Octet)) : Prop :=
  ∃ fuel, eventGetCached fuel cache behind eidDefault .deviceStateChange
    (lookupArgs device eid) = some r

/-- **What is expected of the cache** after the events `evs`. -/
structure CacheGood (cache : Cache) (evs : List Change) : Prop where
  /-- For each device and entity id that occurred there is one event, the
  last one. -/
  cached : cache.events = ((lastBy Change.pair evs).map Change.event : Multiset (List Octet))
  /-- And a look-up returns a copy of it, if what it looks for can be
  written down. -/
  lookup : ∀ x ∈ lastBy Change.pair evs, x.device.1.length ≤ 65502 → ∀ behind eidDefault,
    (∃ r, LooksUp cache behind eidDefault x.device x.eid r) ∧
      ∀ r, LooksUp cache behind eidDefault x.device x.eid r → r.2 = some x.event

/-- The next event can be queued and cached, at any address that is free
by then. -/
def Accepts (cache : Cache) (x : Change) : Prop :=
  ∃ fuel mid, removeMatches fuel cache x.event = some mid ∧
    ∀ addr, mid.mem addr = none → ∃ cache', eventDupAndCache mid addr x.event = some cache'

theorem Cached.accepts (h : Cached cache xs) (hnd : (xs.map Change.device).Nodup)
    (hd : Hashable x.device)
    (hfew : ((xs.filter fun y => y.device ≠ x.device).length : ℤ) < intMax) :
    Accepts cache x := by
  obtain ⟨⟨fuel, mid, hremove⟩, hspec⟩ := removeMatches_spec h hnd hd
  refine ⟨fuel, mid, hremove, fun addr hfree => ?_⟩
  obtain ⟨cache', hadd, -⟩ := eventDupAndCache_spec (hspec fuel mid hremove) hfree hd hfew
  exact ⟨cache', hadd⟩

/-- **If no device comes with two entity ids**, the cache is as expected,
and every further event is taken. -/
theorem event_cache_runs {evs : List (ℕ × Change)} (h : Trace QueueStep cacheInit evs cache)
    (heid : ∀ a ∈ evs, ∀ b ∈ evs, a.2.device = b.2.device → a.2.eid = b.2.eid)
    (hhash : ∀ ev ∈ evs, Hashable ev.2.device)
    (hfew : ((evs.map fun ev => ev.2.device).dedup.length : ℤ) ≤ intMax) :
    CacheGood cache (evs.map Prod.snd) ∧
      ∀ x : Change, Hashable x.device →
        (((evs.map fun ev => ev.2.device) ++ [x.device]).dedup.length : ℤ) ≤ intMax →
          Accepts cache x := by
  have hcached := cached_of_trace h hhash hfew
  have hnd := nodup_lastBy Change.device (evs.map Prod.snd)
  -- the entity id adds nothing to the device
  have hkeys : lastBy Change.pair (evs.map Prod.snd) =
      lastBy Change.device (evs.map Prod.snd) := by
    refine lastBy_congr fun x hx y hy => ?_
    obtain ⟨a, ha, rfl⟩ := List.mem_map.1 hx
    obtain ⟨b, hb, rfl⟩ := List.mem_map.1 hy
    unfold Change.pair
    rw [Prod.mk.injEq]
    exact ⟨fun heq => heq.1, fun heq => ⟨heq, heid a ha b hb heq⟩⟩
  refine ⟨⟨?_, ?_⟩, ?_⟩
  · rw [hkeys]
    exact hcached.events_eq
  · intro x hx hfit behind eidDefault
    rw [hkeys] at hx
    have hd : Hashable x.device := by
      obtain ⟨ev, hev, rfl⟩ := List.mem_map.1 (mem_of_mem_lastBy hx)
      exact hhash ev hev
    obtain ⟨⟨fuel, r, hr⟩, hall⟩ :=
      eventGetCached_spec hcached hnd hx hd hfit behind eidDefault x.eid
    refine ⟨⟨r, fuel, hr⟩, ?_⟩
    rintro r' ⟨fuel', hr'⟩
    exact (hall fuel' r' hr').1
  · intro x hd hroom
    refine hcached.accepts hnd hd ?_
    have hlen := congrArg List.length (map_lastBy Change.device (evs.map Prod.snd ++ [x]))
    rw [List.length_map, lastBy_snoc, List.length_append, List.length_singleton, List.map_append,
      List.map_map] at hlen
    have heq : ((evs.map (Change.device ∘ Prod.snd) ++ [x].map Change.device).dedup.length : ℤ) ≤
        intMax := hroom
    omega

/-! ## Two runs -/

/-- Any events can be queued one after the other, at some addresses. -/
theorem exists_run (xs : List Change) (hhash : ∀ x ∈ xs, Hashable x.device)
    (hfew : (xs.length : ℤ) ≤ intMax) :
    ∃ evs cache, evs.map Prod.snd = xs ∧ Trace QueueStep cacheInit evs cache := by
  induction xs using List.reverseRecOn with
  | nil => exact ⟨[], cacheInit, rfl, .nil⟩
  | append_singleton xs x ih =>
    rw [List.length_append, List.length_singleton] at hfew
    obtain ⟨evs, cache, hevs, htrace⟩ := ih (fun y hy => hhash y (List.mem_append_left _ hy))
      (by omega)
    have hdevices : (evs.map fun ev => ev.2.device) = xs.map Change.device := by
      rw [← hevs, List.map_map]
      rfl
    have hle := (List.dedup_sublist (xs.map Change.device)).length_le
    rw [List.length_map] at hle
    have hcached := cached_of_trace htrace (fun ev hev => hhash ev.2
      (List.mem_append_left _ (hevs ▸ List.mem_map_of_mem hev))) (by rw [hdevices]; omega)
    rw [hevs] at hcached
    have hd : Hashable x.device := hhash x (by simp)
    have hnd := nodup_lastBy Change.device xs
    have hlast := congrArg List.length (map_lastBy Change.device xs)
    rw [List.length_map] at hlast
    have hkept := List.length_filter_le (fun y : Change => y.device ≠ x.device)
      (lastBy Change.device xs)
    obtain ⟨⟨fuel, mid, hremove⟩, hspec⟩ := removeMatches_spec hcached hnd hd
    have hmid := hspec fuel mid hremove
    obtain ⟨addr, hfree⟩ : ∃ addr, mid.mem addr = none := by
      obtain ⟨data, links, hholds, -⟩ := hmid
      obtain ⟨addr, haddr⟩ := Infinite.exists_notMem_finset links.toFinset
      refine ⟨addr, hholds.accounts.free addr ?_⟩
      rw [zero_add]
      exact fun hmem => haddr (Multiset.mem_toFinset.2 hmem)
    obtain ⟨cache', hadd, -⟩ := eventDupAndCache_spec hmid hfree hd (by omega)
    refine ⟨evs ++ [(addr, x)], cache', ?_, htrace.snoc ⟨fuel, mid, hremove, hfree, hadd⟩⟩
    rw [List.map_append, hevs, List.map_singleton]

/-- The state of the device `name`, one letter, as a server reports it. -/
def changeOf (name : CChar) (h : name ≠ 0) (server : Octet) (state : BitVec 32) : Change where
  ies := [⟨.device, .str ⟨[name], by simpa using h.symm⟩⟩, ⟨.state, .uint state⟩,
    ⟨.eid, .raw (List.ofFn fun _ => server)⟩]
  device := ⟨[name], by simpa using h.symm⟩
  eid _ := server
  fits := Nat.le_of_ble_eq_true rfl
  device_first := rfl
  eid_first := rfl

/-- Two devices of two servers. -/
theorem event_cache_runs_two : ∃ evs cache,
    evs.map Prod.snd = [changeOf 65 (by decide) 1 2, changeOf 66 (by decide) 2 3] ∧
      Trace QueueStep cacheInit evs cache ∧ CacheGood cache (evs.map Prod.snd) := by
  have hhash : ∀ x ∈ [changeOf 65 (by decide) 1 2, changeOf 66 (by decide) 2 3],
      Hashable x.device := by
    unfold Hashable
    decide
  have hone : ∀ x ∈ [changeOf 65 (by decide) 1 2, changeOf 66 (by decide) 2 3],
      ∀ y ∈ [changeOf 65 (by decide) 1 2, changeOf 66 (by decide) 2 3],
        x.device = y.device → x.eid = y.eid := by
    decide
  obtain ⟨evs, cache, hevs, htrace⟩ := exists_run _ hhash (by decide)
  have hmem : ∀ ev ∈ evs, ev.2 ∈ [changeOf 65 (by decide) 1 2, changeOf 66 (by decide) 2 3] :=
    fun ev hev => hevs ▸ List.mem_map_of_mem hev
  have hfew : ((evs.map fun ev => ev.2.device).dedup.length : ℤ) ≤ intMax := by
    have hdevices := congrArg (List.map Change.device) hevs
    rw [List.map_map] at hdevices
    change (((evs.map (Change.device ∘ Prod.snd)).dedup.length : ℕ) : ℤ) ≤ intMax
    rw [hdevices]
    decide
  exact ⟨evs, cache, hevs, htrace, (event_cache_runs htrace
    (fun a ha b hb => hone a.2 (hmem a ha) b.2 (hmem b hb)) (fun ev hev => hhash ev.2 (hmem ev hev))
      hfew).1⟩

/-- Two servers report on one device: the cache keeps the last report only. -/
theorem not_cacheGood_of_two_servers : ∃ evs cache,
    evs.map Prod.snd = [changeOf 65 (by decide) 1 2, changeOf 65 (by decide) 2 3] ∧
      Trace QueueStep cacheInit evs cache ∧ ¬ CacheGood cache (evs.map Prod.snd) := by
  have hhash : ∀ x ∈ [changeOf 65 (by decide) 1 2, changeOf 65 (by decide) 2 3],
      Hashable x.device := by
    unfold Hashable
    decide
  obtain ⟨evs, cache, hevs, htrace⟩ := exists_run _ hhash (by decide)
  have hfew : ((evs.map fun ev => ev.2.device).dedup.length : ℤ) ≤ intMax := by
    have hdevices := congrArg (List.map Change.device) hevs
    rw [List.map_map] at hdevices
    change (((evs.map (Change.device ∘ Prod.snd)).dedup.length : ℕ) : ℤ) ≤ intMax
    rw [hdevices]
    decide
  refine ⟨evs, cache, hevs, htrace, fun hgood => ?_⟩
  have hlast := (cached_of_trace htrace (fun ev hev => hhash ev.2
    (hevs ▸ List.mem_map_of_mem hev)) hfew).events_eq
  have hcard := congrArg Multiset.card (hgood.cached.symm.trans hlast)
  rw [hevs] at hcard
  exact absurd hcard (by decide)

end Event

end Trismedia
