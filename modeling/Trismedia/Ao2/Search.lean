import Mathlib.Algebra.Order.BigOperators.Group.Finset
import Trismedia.Ao2.Refs
/-!
# The search over the buckets

`bucketLoop` visits one bucket a round. What it does to the references is
the sum of what the traversals do; a search that matched nothing, and was
not told to stop, has seen every object of the buckets it covers. Without
`OBJ_CONTINUE` it always returns.
-/


namespace Trismedia

namespace Ao2

open CInt

variable {α κ γ : Type}

/-- The objects linked into an array of buckets. -/
def total (size : ℕ) (buckets : ℕ → List (BucketList α)) : Multiset α :=
  ∑ j ∈ Finset.range size, objects (buckets j)

variable {size i : ℕ} {buckets buckets' : ℕ → List (BucketList α)} {a : α}

theorem objects_le_total (hi : i < size) : objects (buckets i) ≤ total size buckets :=
  Finset.single_le_sum (f := fun j => objects (buckets j)) (fun _ _ => Multiset.zero_le _)
    (Finset.mem_range.2 hi)

theorem mem_total : a ∈ total size buckets ↔ ∃ j < size, a ∈ objects (buckets j) := by
  unfold total
  simp only [Multiset.mem_sum, Finset.mem_range]

variable (buckets) in
theorem total_update (hi : i < size) (l : List (BucketList α)) :
    total size (Function.update buckets i l) + objects (buckets i) =
      total size buckets + objects l := by
  have hmem := Finset.mem_range.2 hi
  unfold total
  rw [← Finset.add_sum_erase _ _ hmem, ← Finset.add_sum_erase _ _ hmem, Function.update_self]
  have hrest : ∑ j ∈ (Finset.range size).erase i, objects (Function.update buckets i l j) =
      ∑ j ∈ (Finset.range size).erase i, objects (buckets j) :=
    Finset.sum_congr rfl fun j hj => by rw [Function.update_of_ne (Finset.ne_of_mem_erase hj)]
  rw [hrest]
  abel

variable [DecidableEq α] {data : α → κ} {held links hits : Multiset α} {flags : SearchFlags}
  {cb : Callback α κ γ} {s s' : Search α κ γ} {nb start : ℤ}

variable (cb) in
/-- **One round.** -/
theorem visit_spec (hm : flags.objNodata = false → flags.objMultiple = false)
    (ht : Tally data s held links) (htotal : total size buckets = links)
    (hroom : Room flags held links) (hi : i < size) :
    ∃ kept s' stop hits, traverse flags cb (buckets i) s = some (kept, s', stop) ∧
      Effect flags cb data held links s s' hits ∧
      Traversed flags cb data (buckets i) kept hits stop ∧
      total size (Function.update buckets i kept) = links - gone flags hits := by
  have hle : objects (buckets i) ≤ links := htotal ▸ objects_le_total hi
  obtain ⟨kept, s', stop, hits, heq, heff, htrav⟩ := traverse_spec cb hm ht hle hroom
  refine ⟨kept, s', stop, hits, heq, heff, htrav, ?_⟩
  have hupd := total_update buckets hi kept
  rw [← htrav.objects, htotal, add_comm (objects kept), ← add_assoc] at hupd
  exact (tsub_eq_of_eq_add (add_right_cancel hupd).symm).symm

omit [DecidableEq α] in
/-- A traversal that took nothing out leaves the bucket. -/
theorem kept_eq {entries kept : List (BucketList α)} (hsub : kept.Sublist entries)
    (hobj : objects kept = objects entries) : kept = entries := by
  refine hsub.eq_of_length ?_
  have hcard := congrArg Multiset.card hobj
  simpa [objects] using hcard

/-- The loop that was told to stop ends. -/
theorem bucketLoop_past {fuel : ℕ} {last : ℤ} {r} (hlast : 0 < last ∧ last ≤ intMax)
    (h : bucketLoop flags cb nb size start fuel (wrapInt (last + 1)) last buckets s = some r) :
    r = (buckets, s) := by
  cases fuel with
  | zero => simp [bucketLoop] at h
  | succ fuel =>
    rw [bucketLoop] at h
    by_cases hmax : last = intMax
    · have hwrap : wrapInt (last + 1) = intMin := by
        rw [hmax]
        decide
      have hneg : ¬ (0 ≤ intMin ∧ intMin < (size : ℤ)) := fun h => absurd h.1 (by decide)
      have hlt : intMin < last := lt_of_lt_of_le (by decide) hlast.1.le
      rw [hwrap, if_pos hlt, if_neg hneg] at h
      simp at h
    · have hwrap : wrapInt (last + 1) = last + 1 := by
        refine wrapInt_of_inInt ?_
        unfold InInt intMin intMax at *
        omega
      rw [hwrap, if_neg (by omega)] at h
      exact (Option.some.inj h).symm

/-- **What the loop over the buckets does.** -/
structure Scanned (flags : SearchFlags) (cb : Callback α κ γ) (data : α → κ)
    (nb start i last : ℤ) (links : Multiset α) (buckets buckets' : ℕ → List (BucketList α))
    (size : ℕ) (hits : Multiset α) : Prop where
  sublist : ∀ j, (buckets' j).Sublist (buckets j)
  total : total size buckets' = links - gone flags hits
  card_le : flags.objMultiple = false → flags.objContinue = false → hits.card ≤ 1
  /-- With no match and no stop, every bucket it comes to was looked through. -/
  silent : hits = 0 → NoStop cb data links → ∀ j : ℕ, Reached nb flags start i last j →
    ∀ a ∈ objects (buckets j), Answers cb a (data a) 0

omit [DecidableEq α] in
theorem Reached.not_of_le {i last j : ℤ} (h : Reached nb flags start i last j) : i < last := by
  rcases h with h | h
  · omega
  · exact h.2.2.2.1

theorem Scanned.refl {i last : ℤ} (htotal : Ao2.total size buckets = links)
    (hle : last ≤ i) :
    Scanned flags cb data nb start i last links buckets buckets size 0 := by
  refine ⟨fun _ => .refl _, ?_, fun _ _ => by simp, fun _ _ j hj => ?_⟩
  · rw [gone_zero, tsub_zero, htotal]
  · exact absurd hj.not_of_le (by omega)

/-- A round and what comes after it. -/
theorem Scanned.cons {i last i' last' : ℤ} {kept : List (BucketList α)} {stop : Bool}
    {hits' : Multiset α} (hle : objects (buckets i.toNat) ≤ links)
    (htrav : Traversed flags cb data (buckets i.toNat) kept hits stop)
    (h : Scanned flags cb data nb start i' last' (links - gone flags hits)
      (Function.update buckets i.toNat kept) buckets' size hits')
    (hcard : flags.objContinue = false → stop = true → hits' = 0)
    (hnext : stop = false → ∀ j : ℕ, Reached nb flags start i last j →
      j = i.toNat ∨ Reached nb flags start i' last' j) :
    Scanned flags cb data nb start i last links buckets buckets' size (hits + hits') := by
  refine ⟨fun j => (h.sublist j).trans ?_, ?_, fun hmult hcont => ?_, fun hz hno j hj a ha => ?_⟩
  · by_cases hj : j = i.toNat
    · rw [hj, Function.update_self]
      exact htrav.sublist
    · rw [Function.update_of_ne hj]
  · rw [h.total, gone_add, tsub_tsub]
  · rw [Multiset.card_add]
    by_cases hs : stop = true
    · rw [hcard hcont hs, Multiset.card_zero, add_zero]
      exact htrav.card_le hmult
    · have h0 : hits = 0 := by
        by_contra hne
        exact hs (htrav.stop_of_hit hmult hne)
      rw [h0, Multiset.card_zero, zero_add]
      exact h.card_le hmult hcont
  · obtain ⟨h0, h0'⟩ := add_eq_zero.1 hz
    have hs : stop = false := by
      by_contra hne
      rcases htrav.of_stop (Bool.not_eq_false _ ▸ hne) with hh | ⟨a, ha, hans⟩
      · exact hh h0
      · exact hno a (Multiset.mem_of_le hle ha) hans
    have hkept : kept = buckets i.toNat := by
      refine kept_eq htrav.sublist ?_
      rw [← htrav.objects, h0, gone_zero, add_zero]
    rcases hnext hs j hj with rfl | hj'
    · exact htrav.silent h0 hs a ha
    · rw [hkept, Function.update_eq_self, h0, gone_zero, tsub_zero] at h
      exact h.silent h0' hno j hj' a ha

/-- **The loop over the buckets**, where it returns. -/
theorem bucketLoop_spec (hm : flags.objNodata = false → flags.objMultiple = false)
    (hnb : nb ≤ intMax) (hstart : flags.objContinue = true → start ≤ nb) {fuel : ℕ} {i last : ℤ}
    (hlast : last ≤ intMax) (hcont : flags.objContinue = true → last ≤ nb)
    (ht : Tally data s held links) (htotal : total size buckets = links)
    (hroom : Room flags held links) (hnone : s.ret = none)
    (h : bucketLoop flags cb nb size start fuel i last buckets s = some (buckets', s')) :
    ∃ hits, Effect flags cb data held links s s' hits ∧
      Scanned flags cb data nb start i last links buckets buckets' size hits := by
  induction fuel generalizing i last buckets s held links with
  | zero => simp [bucketLoop] at h
  | succ fuel ih =>
    rw [bucketLoop] at h
    by_cases hlt : i < last
    swap
    · rw [if_neg hlt] at h
      obtain ⟨rfl, rfl⟩ := Prod.ext_iff.1 (Option.some.inj h)
      exact ⟨0, .refl ht, .refl htotal (by omega)⟩
    by_cases hin : 0 ≤ i ∧ i < size
    swap
    · rw [if_pos hlt, if_neg hin] at h
      simp at h
    rw [if_pos hlt, if_pos hin] at h
    have hi : i.toNat < size := by omega
    obtain ⟨kept, s₁, stop, hits₁, heq, heff₁, htrav, htotal₁⟩ :=
      visit_spec cb hm ht htotal hroom hi
    have hle : objects (buckets i.toNat) ≤ links := htotal ▸ objects_le_total hi
    simp only [heq, Option.bind_eq_bind, Option.bind_some] at h
    by_cases hret : s₁.ret.isSome
    · -- the object to return is found
      rw [if_pos hret] at h
      obtain ⟨rfl, rfl⟩ := Prod.ext_iff.1 (Option.some.inj h)
      have hhit : hits₁ ≠ 0 := by
        rintro rfl
        by_cases hn : flags.objNodata = true
        · rw [heff₁.ret_nodata hn, hnone] at hret
          simp at hret
        · rcases heff₁.ret_find (Bool.eq_false_iff.2 hn) with ⟨_, hr⟩ | ⟨a, ha, _⟩
          · rw [hr, hnone] at hret
            simp at hret
          · exact Multiset.singleton_ne_zero a ha.symm
      have hnow : Scanned flags cb data nb start i last links buckets
          (Function.update buckets i.toNat kept) size (hits₁ + 0) :=
        Scanned.cons hle htrav (.refl htotal₁ (le_refl last)) (fun _ _ => rfl) (fun hs => ?_)
      · rw [add_zero] at hnow
        exact ⟨hits₁, heff₁, hnow⟩
      · by_cases hn : flags.objNodata = true
        · rw [heff₁.ret_nodata hn, hnone] at hret
          simp at hret
        · have := htrav.stop_of_hit (hm (Bool.eq_false_iff.2 hn)) hhit
          rw [hs] at this
          simp at this
    · have hnone₁ : s₁.ret = none := Option.not_isSome_iff_eq_none.1 hret
      have hgo : flags.objNodata = false → hits₁ = 0 := fun hn => by
        rcases heff₁.ret_find hn with ⟨h0, _⟩ | ⟨a, _, hr⟩
        · exact h0
        · rw [hr] at hnone₁
          simp at hnone₁
      have hroom₁ : Room flags (held + owned flags hits₁) (links - gone flags hits₁) := by
        intro hn
        rw [hgo hn, owned_zero, gone_zero, add_zero, tsub_zero]
        exact hroom hn
      rw [if_neg hret] at h
      by_cases hwrap : (if stop then last else i) = nb - 1 ∧ flags.objPointer ∧ flags.objContinue
      · -- back to the first bucket
        rw [if_pos hwrap] at h
        obtain ⟨hits₂, heff₂, hscan₂⟩ := ih (le_trans (hstart hwrap.2.2) hnb) hstart heff₁.tally
          htotal₁ hroom₁ hnone₁ h
        refine ⟨hits₁ + hits₂, heff₁.comp heff₂ hgo, hscan₂.cons hle htrav
          (fun hc => absurd hwrap.2.2 (by rw [hc]; simp)) fun hs j hj => ?_⟩
        rw [hs] at hwrap
        have hi' : i = nb - 1 := by simpa using hwrap.1
        have hl := hcont hwrap.2.2
        rcases hj with hj | hj
        · left
          omega
        · right
          exact .inl ⟨hj.2.2.2.2.1, hj.2.2.2.2.2⟩
      · rw [if_neg hwrap] at h
        by_cases hs : stop = true
        · rw [if_pos hs] at h
          have hpast := bucketLoop_past ⟨by omega, hlast⟩ h
          rw [Prod.mk.injEq] at hpast
          obtain ⟨rfl, rfl⟩ := hpast
          have hnow : Scanned flags cb data nb start i last links buckets
              (Function.update buckets i.toNat kept) size (hits₁ + 0) :=
            Scanned.cons hle htrav (.refl htotal₁ (le_refl last)) (fun _ _ => rfl) (fun hs' => absurd hs (by rw [hs']; simp))
          rw [add_zero] at hnow
          exact ⟨hits₁, heff₁, hnow⟩
        · rw [if_neg hs] at h hwrap
          have hw : wrapInt (i + 1) = i + 1 := by
            refine wrapInt_of_inInt ?_
            unfold InInt intMin intMax at *
            omega
          rw [hw] at h
          obtain ⟨hits₂, heff₂, hscan₂⟩ := ih hlast hcont heff₁.tally htotal₁ hroom₁ hnone₁ h
          refine ⟨hits₁ + hits₂, heff₁.comp heff₂ hgo, hscan₂.cons hle htrav
            (fun _ hs' => absurd hs' hs) fun _ j hj => ?_⟩
          rcases hj with hj | ⟨hp, hc, hl, hl', hj⟩
          · by_cases hji : (j : ℤ) = i
            · left
              omega
            · right
              exact .inl ⟨by omega, hj.2⟩
          · right
            refine .inr ⟨hp, hc, hl, ?_, hj⟩
            have hne : i ≠ nb - 1 := fun h => hwrap ⟨h, hp, hc⟩
            omega

variable (nb start) in
/-- **Without `OBJ_CONTINUE` the loop returns**, given a round for each
bucket and one more. The last round adds to `last`, unless the search
returned an object. -/
theorem bucketLoop_returns (hm : flags.objNodata = false → flags.objMultiple = false)
    (hcont : flags.objContinue = false) {fuel : ℕ} {i last : ℤ} (hi : 0 ≤ i)
    (hsize : last ≤ size) (hlast : last ≤ intMax)
    (ht : Tally data s held links) (htotal : total size buckets = links)
    (hroom : Room flags held links)
    (hstop : if flags.objNodata then last < intMax else NoStop cb data links)
    (hfuel : (last - i).toNat + 1 < fuel) :
    ∃ r, bucketLoop flags cb nb size start fuel i last buckets s = some r := by
  induction fuel generalizing i buckets s held links with
  | zero => omega
  | succ fuel ih =>
    rw [bucketLoop]
    by_cases hlt : i < last
    swap
    · rw [if_neg hlt]
      exact ⟨_, rfl⟩
    have hin : 0 ≤ i ∧ i < size := ⟨hi, by omega⟩
    rw [if_pos hlt, if_pos hin]
    have hi' : i.toNat < size := by omega
    obtain ⟨kept, s₁, stop, hits₁, heq, heff₁, htrav, htotal₁⟩ :=
      visit_spec cb hm ht htotal hroom hi'
    simp only [heq, Option.bind_eq_bind, Option.bind_some]
    by_cases hret : s₁.ret.isSome
    · rw [if_pos hret]
      exact ⟨_, rfl⟩
    have hwrap : ¬ ((if stop then last else i) = nb - 1 ∧ flags.objPointer ∧
        flags.objContinue) := fun h => absurd h.2.2 (by rw [hcont]; simp)
    have hgo : flags.objNodata = false → hits₁ = 0 := fun hn => by
      rcases heff₁.ret_find hn with ⟨h0, _⟩ | ⟨a, _, hr⟩
      · exact h0
      · rw [hr] at hret
        simp at hret
    rw [if_neg hret, if_neg hwrap]
    by_cases hs : stop = true
    · -- told to stop: the search returns nothing, so the next round is the last
      have hnodata : flags.objNodata = true := by
        by_contra hn
        have hn' := Bool.eq_false_iff.2 hn
        rw [hn', if_neg (by simp)] at hstop
        rcases htrav.of_stop hs with hh | ⟨a, ha, hans⟩
        · exact hh (hgo hn')
        · exact hstop a (Multiset.mem_of_le (htotal ▸ objects_le_total hi') ha) hans
      rw [hnodata, if_pos rfl] at hstop
      have hw : wrapInt (last + 1) = last + 1 := by
        refine wrapInt_of_inInt ?_
        unfold InInt intMin intMax at *
        omega
      obtain ⟨fuel', rfl⟩ : ∃ fuel', fuel = fuel' + 1 := ⟨fuel - 1, by omega⟩
      rw [if_pos hs, hw, bucketLoop, if_neg (by omega)]
      exact ⟨_, rfl⟩
    · have hw : wrapInt (i + 1) = i + 1 := by
        refine wrapInt_of_inInt ?_
        unfold InInt intMin intMax at *
        omega
      have hroom₁ : Room flags (held + owned flags hits₁) (links - gone flags hits₁) := by
        intro hn
        rw [hgo hn, owned_zero, gone_zero, add_zero, tsub_zero]
        exact hroom hn
      rw [if_neg hs, hw]
      refine ih (by omega) heff₁.tally htotal₁ hroom₁ ?_ (by omega)
      by_cases hn : flags.objNodata = true
      · rw [if_pos hn] at hstop ⊢
        exact hstop
      · rw [if_neg hn] at hstop ⊢
        exact fun a ha => hstop a (Multiset.mem_of_le tsub_le_self ha)

end Ao2

end Trismedia
