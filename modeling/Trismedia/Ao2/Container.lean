import Trismedia.Ao2.Search
/-!
# The calls on a container

`Holds` is what is true between calls: the counters are those of the
references there are, and every link is in the bucket of its hash. One
lemma for each call says what it makes of the references.
-/


namespace Trismedia

namespace Ao2

open CInt

variable {α κ γ : Type} [DecidableEq α]

/-- **A container of `n` buckets that holds `links`**, while the users
hold `held`. -/
structure Holds (hashFn : κ → BitVec 32) (n : BitVec 32) (data : α → κ) (held links : Multiset α)
    (mem : Memory α κ) (c : Ao2Container α) : Prop where
  accounts : Accounts mem data (held + links)
  elements : c.elements = links.card
  card_le : (links.card : ℤ) ≤ intMax
  nBuckets : c.nBuckets = n.toInt
  size : c.size = n.toNat
  total : total c.size c.buckets = links
  /-- Every link is in the bucket of its hash, and a search goes there. -/
  placed : ∀ j < c.size, ∀ a ∈ objects (c.buckets j),
    linkIndex n.toInt (hashFn (data a)) = some (j : ℤ) ∧ SlotOk n.toInt (hashFn (data a)).toInt

variable {hashFn : κ → BitVec 32} {n hash : BitVec 32} {data : α → κ}
  {held held' links hits : Multiset α} {mem mem' : Memory α κ} {c c' : Ao2Container α}
  {flags : SearchFlags} {cb : Callback α κ γ} {arg arg' : γ} {ret : Option α} {a : α}

/-! ## Searching -/

theorem searchRange_bounds {start i last : ℤ} (hc : ContinueOk n.toInt flags)
    (hp : flags.objPointer = true)
    (h : searchRange n.toInt flags hash = some (start, i, last)) :
    0 ≤ i ∧ last ≤ n.toNat ∧ last ≤ intMax ∧
      (flags.objContinue = true → last ≤ n.toInt ∧ start ≤ n.toInt) := by
  have hn := toNat_of_toInt n
  have hnr := toInt_inInt n
  have hmax : ∀ x, wrapInt x ≤ intMax := fun x => (wrapInt_inInt x).2
  have h0 : n.toInt ≠ 0 := by
    intro h0
    simp [searchRange, hp, cRem, h0] at h
  by_cases hh : 0 ≤ hash.toInt
  · have hnonneg := Int.emod_nonneg hash.toInt h0
    rw [searchRange_of_nonneg hp h0 hh, Option.some.injEq, Prod.mk.injEq, Prod.mk.injEq] at h
    obtain ⟨rfl, rfl, rfl⟩ := h
    refine ⟨hnonneg, ?_, ?_, fun hcont => ?_⟩
    · by_cases hcont : flags.objContinue = true
      · rw [if_pos hcont]
        have := hn.1 (hc hcont).le
        omega
      · rw [if_neg hcont]
        rcases lt_or_gt_of_ne h0 with hneg | hpos
        · have h1 := hn.2 hneg
          have h2 := hmax (hash.toInt % n.toInt + 1)
          unfold intMax at h2
          omega
        · have hlt := Int.emod_lt_of_pos hash.toInt hpos
          rw [wrapInt_emod_succ h0 _ fun h => absurd h.1 (by unfold intMin; omega)]
          have := hn.1 hpos.le
          omega
    · split
      · exact hnr.2
      · exact hmax _
    · rw [if_pos hcont]
      exact ⟨le_rfl, (Int.emod_lt_of_pos _ (hc hcont)).le⟩
  · have hneg : hash.toInt < 0 := not_le.1 hh
    have htrap : ¬ (hash.toInt = intMin ∧ n.toInt = -1) := by
      intro htrap
      simp [searchRange, hp, cRem, htrap] at h
    have hone : (1 : ℤ) ≤ n.toNat := by
      rcases lt_or_gt_of_ne h0 with hneg' | hpos
      · have := hn.2 hneg'
        omega
      · have := hn.1 hpos.le
        omega
    have hle : n.toInt ≤ n.toNat := by
      rcases lt_or_gt_of_ne h0 with hneg' | hpos
      · omega
      · exact (hn.1 hpos.le).ge
    rw [searchRange_of_neg hp h0 hneg htrap] at h
    split at h
    all_goals
      rw [Option.some.injEq, Prod.mk.injEq, Prod.mk.injEq] at h
      obtain ⟨rfl, rfl, rfl⟩ := h
    · refine ⟨le_rfl, ?_, ?_, fun hcont => ?_⟩
      · split
        · exact hle
        · exact hone
      · split
        · exact hnr.2
        · decide
      · rw [if_pos hcont]
        exact ⟨le_rfl, (hc hcont).le⟩
    · exact ⟨le_rfl, hle, hnr.2, fun hcont => ⟨le_rfl, (hc hcont).le⟩⟩

/-- **What a search does.** `hits` are the objects it matched. -/
structure Searched (hashFn : κ → BitVec 32) (n hash : BitVec 32) (data : α → κ)
    (held links : Multiset α) (flags : SearchFlags) (cb : Callback α κ γ) (mem' : Memory α κ)
    (c' : Ao2Container α) (ret : Option α) (hits : Multiset α) : Prop where
  holds : Holds hashFn n data (held + owned flags hits) (links - gone flags hits) mem' c'
  matched : ∀ a ∈ hits, a ∈ links ∧ Matched cb a (data a)
  gone_le : gone flags hits ≤ links
  ret_nodata : flags.objNodata = true → ret = none
  ret_find : flags.objNodata = false → (hits = 0 ∧ ret = none) ∨ ∃ a, hits = {a} ∧ ret = some a
  card_le : flags.objMultiple = false → flags.objContinue = false → hits.card ≤ 1
  /-- **Nothing linked under the hash is overlooked.** -/
  silent : hits = 0 → (flags.objMultiple = true → flags.objNodata = true) → NoStop cb data links →
    ∀ a ∈ links, hashFn (data a) = hash → Answers cb a (data a) 0

/-- **A search that returns.** -/
theorem ao2Callback_spec (hs : Holds hashFn n data held links mem c)
    (hp : flags.objPointer = true) (hc : ContinueOk n.toInt flags) (hroom : Room flags held links)
    {fuel : ℕ} (h : ao2Callback fuel mem c flags hash cb arg = some (mem', c', arg', ret)) :
    ∃ hits, Searched hashFn n hash data held links flags cb mem' c' ret hits := by
  rw [ao2Callback] at h
  by_cases hearly : flags.objMultiple ∧ flags.objNodata = false
  · -- several objects to return: not implemented
    rw [if_pos hearly] at h
    simp only [Option.some.injEq, Prod.mk.injEq] at h
    obtain ⟨rfl, rfl, -, rfl⟩ := h
    refine ⟨0, ?_, fun a ha => absurd ha (Multiset.notMem_zero a), ?_, fun _ => rfl,
      fun _ => .inl ⟨rfl, rfl⟩, fun _ _ => by simp, fun _ hm => ?_⟩
    · rw [owned_zero, gone_zero, add_zero, tsub_zero]
      exact hs
    · rw [gone_zero]
      exact Multiset.zero_le _
    · have := hm hearly.1
      rw [hearly.2] at this
      simp at this
  · rw [if_neg hearly] at h
    have hm : flags.objNodata = false → flags.objMultiple = false := fun hn => by
      by_contra hne
      exact hearly ⟨Bool.not_eq_false _ ▸ hne, hn⟩
    simp only [Option.bind_eq_bind, Option.bind_eq_some_iff, Option.some.injEq, Prod.exists,
      Prod.mk.injEq] at h
    obtain ⟨start, i, last, hrange, buckets, s, hloop, rfl, rfl, -, rfl⟩ := h
    rw [hs.nBuckets] at hrange hloop
    obtain ⟨hi, hsize, hlast, hcont⟩ := searchRange_bounds hc hp hrange
    have htally : Tally data (⟨mem, c.elements, c.version, arg, none⟩ : Search α κ γ) held links :=
      ⟨hs.accounts, hs.elements, hs.card_le⟩
    obtain ⟨hits, heff, hscan⟩ := bucketLoop_spec hm (toInt_inInt n).2 (fun h => (hcont h).2)
      hlast (fun h => (hcont h).1) htally hs.total hroom rfl hloop
    refine ⟨hits, ⟨heff.tally.accounts, heff.tally.elements, heff.tally.card_le, hs.nBuckets,
      hs.size, hscan.total, fun j hj a ha => hs.placed j hj a ?_⟩, heff.matched, heff.gone_le, heff.ret_nodata,
      heff.ret_find, hscan.card_le, fun hz _ hno a ha hhash => ?_⟩
    · exact Multiset.subset_of_le (Multiset.coe_le.2 ((hscan.sublist j).map _).subperm) ha
    · -- the search comes to the bucket of the object
      rw [← hs.total, mem_total] at ha
      obtain ⟨j, hj, ha⟩ := ha
      obtain ⟨hlink, hslot⟩ := hs.placed j hj a ha
      obtain ⟨i', hi', -, -, hcov⟩ := hslot.linkIndex
      rw [hlink] at hi'
      obtain rfl := Option.some.inj hi'
      obtain ⟨start', i₀, last', hrange', hreach⟩ := hcov flags hp hc
      rw [hhash, hrange] at hrange'
      simp only [Option.some.injEq, Prod.mk.injEq] at hrange'
      obtain ⟨rfl, rfl, rfl⟩ := hrange'
      exact hscan.silent hz hno j hreach a ha

variable (cb arg) in
/-- **A search without `OBJ_CONTINUE` returns.** -/
theorem ao2Callback_returns (hs : Holds hashFn n data held links mem c)
    (hp : flags.objPointer = true) (hcont : flags.objContinue = false)
    (hroom : Room flags held links) {start i last : ℤ}
    (hrange : searchRange n.toInt flags hash = some (start, i, last))
    (hstop : if flags.objNodata then last < intMax else NoStop cb data links) :
    ∃ fuel r, ao2Callback fuel mem c flags hash cb arg = some r := by
  have hc : ContinueOk n.toInt flags := fun h => absurd h (by rw [hcont]; simp)
  obtain ⟨hi, hsize, hlast, -⟩ := searchRange_bounds hc hp hrange
  by_cases hearly : flags.objMultiple ∧ flags.objNodata = false
  · exact ⟨0, _, by rw [ao2Callback, if_pos hearly]⟩
  have hm : flags.objNodata = false → flags.objMultiple = false := fun hn => by
    by_contra hne
    exact hearly ⟨Bool.not_eq_false _ ▸ hne, hn⟩
  have htally : Tally data (⟨mem, c.elements, c.version, arg, none⟩ : Search α κ γ) held links :=
    ⟨hs.accounts, hs.elements, hs.card_le⟩
  obtain ⟨r, hr⟩ := bucketLoop_returns n.toInt start hm hcont hi
    (hs.size ▸ hsize) hlast htally hs.total hroom hstop (Nat.lt_succ_self _)
  refine ⟨(last - i).toNat + 2, (r.2.mem, { c with
    buckets := r.1, elements := r.2.elements, version := r.2.version }, r.2.arg, r.2.ret), ?_⟩
  rw [ao2Callback, if_neg hearly, hs.nBuckets, hrange]
  simp only [Option.bind_eq_bind, Option.bind_some]
  rw [hr]
  rfl

/-! ## The other calls -/

/-- **A link.** -/
theorem ao2Link_spec (hs : Holds hashFn n data held links mem c) (ha : a ∈ held + links)
    (hslot : SlotOk n.toInt (hashFn (data a)).toInt)
    (hcount : ((held + links).count a : ℤ) < intMax) (hcard : (links.card : ℤ) < intMax) :
    ∃ mem' c', ao2Link hashFn mem c a = some (mem', c') ∧
      Holds hashFn n data held (a ::ₘ links) mem' c' := by
  obtain ⟨i, hi, h0, hlt, -⟩ := hslot.linkIndex
  obtain ⟨mem', href, hacc⟩ := hs.accounts.ref_succ ha hcount
  have hinside : c.Inside i := ⟨h0, by rw [hs.size]; exact hlt⟩
  have hj : i.toNat < c.size := by
    rw [hs.size]
    omega
  refine ⟨mem', { c with
    version := fetchAdd c.version 1
    buckets := Function.update c.buckets i.toNat (c.buckets i.toNat ++ [⟨c.version, a⟩])
    elements := fetchAdd c.elements 1 }, ?_, ?_⟩
  · simp only [ao2Link, hs.accounts.live a ha, hs.nBuckets, hi, Option.bind_eq_bind,
      Option.bind_some, if_pos hinside, href]
  · have hobj : objects (c.buckets i.toNat ++ [⟨c.version, a⟩]) =
        a ::ₘ objects (c.buckets i.toNat) := by
      unfold objects
      rw [List.map_append, ← Multiset.coe_add, add_comm]
      rfl
    refine ⟨?_, ?_, ?_, hs.nBuckets, hs.size, ?_, fun j hjs b hb => ?_⟩
    · rw [Multiset.add_cons]
      exact hacc
    · rw [Multiset.card_cons, fetchAdd, hs.elements, wrapInt_of_inInt]
      · push_cast
        rfl
      · unfold InInt intMin intMax at *
        omega
    · rw [Multiset.card_cons]
      push_cast
      omega
    · have hupd := total_update c.buckets hj (c.buckets i.toNat ++ [⟨c.version, a⟩])
      rw [hobj, ← Multiset.singleton_add, ← add_assoc, hs.total] at hupd
      rw [← Multiset.singleton_add, add_comm]
      exact add_right_cancel hupd
    · by_cases hji : j = i.toNat
      · rw [hji] at hb ⊢
        simp only [Function.update_self] at hb
        rw [hobj, Multiset.mem_cons] at hb
        rcases hb with rfl | hb
        · refine ⟨?_, hslot⟩
          rw [hi, Int.toNat_of_nonneg h0]
        · exact hs.placed _ hj b hb
      · simp only [Function.update_of_ne hji] at hb
        exact hs.placed j hjs b hb

theorem matchByAddr_answers {b : α} {k : κ} {m : BitVec 32}
    (h : Answers (ao2MatchByAddr a) b k m) :
    m = if b = a then cmpMatch ||| cmpStop else 0 := by
  obtain ⟨g, rfl⟩ := h
  show (cmpMatch ||| cmpStop) &&& (if b = a then cmpMatch ||| cmpStop else 0) = _
  split <;> decide

theorem matchByAddr_noStop : NoStop (ao2MatchByAddr a) data links := by
  intro b _ h
  have hm := matchByAddr_answers h
  split at hm
  · exact absurd hm (by decide)
  · exact absurd hm (by decide)

/-- **An unlink** takes one link of the object out, if there is one. -/
theorem ao2Unlink_spec (hs : Holds hashFn n data held links mem c) (ha : a ∈ held + links)
    {fuel : ℕ} (h : ao2Unlink hashFn fuel mem c a = some (mem', c')) :
    Holds hashFn n data held (links.erase a) mem' c' := by
  simp only [ao2Unlink, hs.accounts.live a ha, Option.bind_eq_bind, Option.bind_some,
    Option.bind_eq_some_iff, Prod.exists, Option.some.injEq, Prod.mk.injEq] at h
  obtain ⟨mem₁, c₁, arg₁, ret₁, hcall, rfl, rfl⟩ := h
  obtain ⟨hits, hspec⟩ := ao2Callback_spec hs rfl (fun h => absurd h (by simp))
    (fun h => absurd h (by simp)) hcall
  have hholds := hspec.holds
  simp only [owned, gone, if_true, add_zero] at hholds
  -- the match can only be the object itself
  have hmem : ∀ b ∈ hits, b = a := fun b hb => by
    obtain ⟨-, m, hans, h0, -⟩ := hspec.matched b hb
    by_contra hne
    rw [matchByAddr_answers hans, if_neg hne] at h0
    exact h0 rfl
  have hcard := hspec.card_le rfl rfl
  have hsub : links - hits = links.erase a := by
    by_cases hz : hits = 0
    · have hnot : a ∉ links := fun hal => by
        have hans := hspec.silent hz (fun _ => rfl) matchByAddr_noStop a hal rfl
        have hm := matchByAddr_answers hans
        rw [if_pos rfl] at hm
        exact absurd hm (by decide)
      rw [hz, tsub_zero, Multiset.erase_of_notMem hnot]
    · obtain ⟨b, hb⟩ := Multiset.exists_mem_of_ne_zero hz
      have hone : hits.card = 1 := by
        have := Multiset.card_pos.2 hz
        omega
      obtain ⟨b', hb'⟩ := Multiset.card_eq_one.1 hone
      have : b' = a := hmem b' (by rw [hb']; exact Multiset.mem_singleton_self _)
      rw [hb', this, Multiset.sub_singleton]
  rw [hsub] at hholds
  exact hholds

/-- **A new object.** -/
theorem ao2Alloc_spec (hs : Holds hashFn n data held links mem c) (ha : mem a = none) (k : κ) :
    Holds hashFn n (Function.update data a k) (a ::ₘ held) links (ao2Alloc mem a k) c := by
  have hnot : a ∉ held + links := fun h => by
    rw [hs.accounts.live a h] at ha
    simp at ha
  have hdata : ∀ b ∈ held + links, Function.update data a k b = data b := fun b hb =>
    Function.update_of_ne (fun h : b = a => hnot (h ▸ hb)) _ _
  have hlinks : ∀ b ∈ links, b ∈ held + links := fun b hb => Multiset.mem_add.2 (.inr hb)
  refine ⟨⟨fun b hb => ?_, fun b hb => ?_, fun b => ?_⟩, hs.elements, hs.card_le, hs.nBuckets,
    hs.size, hs.total, fun j hj b hb => ?_⟩
  · by_cases hab : b = a
    · have hcount : (a ::ₘ held + links).count a = 1 := by
        rw [Multiset.cons_add, Multiset.count_cons_self, Multiset.count_eq_zero.2 hnot]
      rw [hab, ao2Alloc, Function.update_self, Function.update_self, hcount]
      rfl
    · rw [Multiset.cons_add, Multiset.mem_cons, or_iff_right hab] at hb
      rw [ao2Alloc, Function.update_of_ne hab, Function.update_of_ne hab, hs.accounts.live b hb,
        Multiset.cons_add, Multiset.count_cons_of_ne hab]
  · rw [Multiset.cons_add, Multiset.mem_cons, not_or] at hb
    rw [ao2Alloc, Function.update_of_ne hb.1]
    exact hs.accounts.free b hb.2
  · rw [Multiset.cons_add]
    by_cases hab : b = a
    · rw [hab, Multiset.count_cons_self, Multiset.count_eq_zero.2 hnot]
      decide
    · rw [Multiset.count_cons_of_ne hab]
      exact hs.accounts.room b
  · have hb' : b ∈ links := by
      rw [← hs.total, mem_total]
      exact ⟨j, hj, hb⟩
    rw [hdata b (hlinks b hb')]
    exact hs.placed j hj b hb

/-- **A user's reference.** `held'` is what the users hold after it. -/
theorem ao2Ref_spec (hs : Holds hashFn n data held links mem c) (ha : a ∈ held + links)
    {delta : ℤ} (hcount : (held'.count a : ℤ) = held.count a + delta)
    (hother : ∀ b, b ≠ a → held'.count b = held.count b)
    (hroom : ((held + links).count a : ℤ) + delta ≤ intMax) :
    ∃ mem', ao2Ref mem a delta = some (mem', ((held + links).count a : ℤ)) ∧
      Holds hashFn n data held' links mem' c := by
  have hcount' : ((held' + links).count a : ℤ) = (held + links).count a + delta := by
    rw [Multiset.count_add, Multiset.count_add]
    push_cast
    omega
  obtain ⟨mem', heq, hacc⟩ := hs.accounts.ref ha hcount'
    (fun b hb => by rw [Multiset.count_add, Multiset.count_add, hother b hb]) (by omega)
  exact ⟨mem', heq, hacc, hs.elements, hs.card_le, hs.nBuckets, hs.size, hs.total, hs.placed⟩

theorem ao2ContainerAlloc_holds (n : BitVec 32) (data : α → κ) :
    Holds hashFn n data 0 0 (fun _ => none) (ao2ContainerAlloc α n) := by
  refine ⟨⟨fun a ha => absurd ha (by simp), fun _ _ => rfl, fun _ => by simp; decide⟩, rfl,
    by simp; decide, rfl, rfl, ?_, fun j _ a ha => absurd ha (Multiset.notMem_zero a)⟩
  exact Finset.sum_const_zero

end Ao2

end Trismedia
