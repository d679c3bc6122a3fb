import Mathlib.Algebra.BigOperators.Group.Finset.Basic
import Mathlib.Algebra.Order.Group.Multiset
import Mathlib.Data.Multiset.OrderedMonoid
import Mathlib.Tactic.Abel
import Trismedia.Ao2.Slots
/-!
# Who holds a reference

The references to the objects are counted twice: `held` are those of the
users, `links` those of the container, and the counter of an object is
how often it occurs in the two together. `Effect` says what a search does
to them: every match is a reference the user gets, or a link the
container loses, or both.
-/


namespace Trismedia

namespace Ao2

open CInt

variable {α κ γ : Type} [DecidableEq α]

/-- **The counters are right.** An object is in memory exactly while there
is a reference to it, its counter is their number, and none overflows. -/
structure Accounts (mem : Memory α κ) (data : α → κ) (refs : Multiset α) : Prop where
  live : ∀ a ∈ refs, mem a = some ⟨refs.count a, data a⟩
  free : ∀ a ∉ refs, mem a = none
  room : ∀ a, (refs.count a : ℤ) ≤ intMax

/-- The references and the number of elements, in the middle of a search. -/
structure Tally (data : α → κ) (s : Search α κ γ) (held links : Multiset α) : Prop where
  accounts : Accounts s.mem data (held + links)
  elements : s.elements = links.card
  card_le : (links.card : ℤ) ≤ intMax

/-- The references a search gives to the user. -/
def owned (flags : SearchFlags) (hits : Multiset α) : Multiset α :=
  if flags.objNodata then 0 else hits

/-- The links a search takes out of the container. -/
def gone (flags : SearchFlags) (hits : Multiset α) : Multiset α :=
  if flags.objUnlink then hits else 0

/-- A callback may answer `m` on the object `a`. -/
def Answers (cb : Callback α κ γ) (a : α) (k : κ) (m : BitVec 32) : Prop :=
  ∃ g, (cmpMatch ||| cmpStop) &&& (cb g a k).1 = m

/-- A callback may answer with a match. -/
def Matched (cb : Callback α κ γ) (a : α) (k : κ) : Prop :=
  ∃ m, Answers cb a k m ∧ m ≠ 0 ∧ m ≠ cmpStop

/-- A search that returns what it finds needs room in the counters. -/
def Room (flags : SearchFlags) (held links : Multiset α) : Prop :=
  flags.objNodata = false → ∀ a ∈ links, ((held + links).count a : ℤ) < intMax

/-- **What a search does.** `hits` are the objects it matched. -/
structure Effect (flags : SearchFlags) (cb : Callback α κ γ) (data : α → κ)
    (held links : Multiset α) (s s' : Search α κ γ) (hits : Multiset α) : Prop where
  tally : Tally data s' (held + owned flags hits) (links - gone flags hits)
  matched : ∀ a ∈ hits, a ∈ links ∧ Matched cb a (data a)
  gone_le : gone flags hits ≤ links
  ret_nodata : flags.objNodata = true → s'.ret = s.ret
  ret_find : flags.objNodata = false →
    (hits = 0 ∧ s'.ret = s.ret) ∨ ∃ a, hits = {a} ∧ s'.ret = some a

variable {mem mem' : Memory α κ} {data : α → κ} {refs refs' held links hits hits' : Multiset α}
  {a : α} {delta : ℤ} {flags : SearchFlags} {cb : Callback α κ γ} {s s' s'' : Search α κ γ}

/-! ## One reference -/

/-- **A reference more or less.** The object is freed with the last one. -/
theorem Accounts.ref (h : Accounts mem data refs) (ha : a ∈ refs)
    (hcount : (refs'.count a : ℤ) = refs.count a + delta)
    (hother : ∀ b, b ≠ a → refs'.count b = refs.count b)
    (hroom : (refs'.count a : ℤ) ≤ intMax) :
    ∃ mem', ao2Ref mem a delta = some (mem', (refs.count a : ℤ)) ∧ Accounts mem' data refs' := by
  have hlive := h.live a ha
  have hpos : 0 < refs.count a := Multiset.count_pos.2 ha
  have hroom' : ∀ b, (refs'.count b : ℤ) ≤ intMax := fun b => by
    by_cases hb : b = a
    · rwa [hb]
    · rw [hother b hb]
      exact h.room b
  have hmem : ∀ b, b ≠ a → (b ∈ refs' ↔ b ∈ refs) := fun b hb => by
    rw [← Multiset.count_pos, ← Multiset.count_pos, hother b hb]
  by_cases hdelta : delta = 0
  · have heq : refs' = refs := by
      refine Multiset.ext.2 fun b => ?_
      by_cases hb : b = a
      · rw [hb]
        omega
      · exact hother b hb
    refine ⟨mem, ?_, heq ▸ h⟩
    simp only [ao2Ref, hlive, Option.bind_eq_bind, Option.bind_some, if_pos hdelta]
  · have hwrap : fetchAdd (refs.count a) delta = refs'.count a := by
      have hint : InInt ((refs.count a : ℤ) + delta) := by
        rw [← hcount]
        exact ⟨le_trans (by decide) (Int.natCast_nonneg _), hroom⟩
      rw [fetchAdd, wrapInt_of_inInt hint, hcount]
    by_cases hlast : refs'.count a = 0
    · -- the last reference
      have hfree : (refs'.count a : ℤ) ≤ 0 ∧ 0 < (refs.count a : ℤ) := by omega
      refine ⟨Function.update mem a none, ?_, ⟨fun b hb => ?_, fun b hb => ?_, hroom'⟩⟩
      · simp only [ao2Ref, hlive, Option.bind_eq_bind, Option.bind_some, if_neg hdelta, hwrap,
          if_pos hfree]
      · have hne : b ≠ a := by
          rintro rfl
          exact Multiset.count_ne_zero.2 hb hlast
        rw [Function.update_of_ne hne, h.live b ((hmem b hne).1 hb), hother b hne]
      · by_cases hne : b = a
        · rw [hne, Function.update_self]
        · rw [Function.update_of_ne hne]
          exact h.free b fun hb' => hb ((hmem b hne).2 hb')
    · have hnot : ¬ ((refs'.count a : ℤ) ≤ 0 ∧ 0 < (refs.count a : ℤ)) := by omega
      refine ⟨Function.update mem a (some ⟨refs'.count a, data a⟩), ?_,
        ⟨fun b hb => ?_, fun b hb => ?_, hroom'⟩⟩
      · simp only [ao2Ref, hlive, Option.bind_eq_bind, Option.bind_some, if_neg hdelta, hwrap,
          if_neg hnot]
      · by_cases hne : b = a
        · rw [hne, Function.update_self]
        · rw [Function.update_of_ne hne, h.live b ((hmem b hne).1 hb), hother b hne]
      · have hne : b ≠ a := by
          rintro rfl
          exact hlast (Multiset.count_eq_zero.2 hb)
        rw [Function.update_of_ne hne]
        exact h.free b fun hb' => hb ((hmem b hne).2 hb')

theorem Accounts.ref_succ (h : Accounts mem data refs) (ha : a ∈ refs)
    (hroom : (refs.count a : ℤ) < intMax) :
    ∃ mem', ao2Ref mem a 1 = some (mem', (refs.count a : ℤ)) ∧ Accounts mem' data (a ::ₘ refs) := by
  have hcount : ((a ::ₘ refs).count a : ℤ) = refs.count a + 1 := by
    rw [Multiset.count_cons_self]
    push_cast
    rfl
  exact h.ref ha hcount (fun b hb => Multiset.count_cons_of_ne hb _) (by omega)

theorem Accounts.ref_pred (h : Accounts mem data refs) (ha : a ∈ refs) :
    ∃ mem', ao2Ref mem a (-1) = some (mem', (refs.count a : ℤ)) ∧
      Accounts mem' data (refs.erase a) := by
  have hpos : 0 < refs.count a := Multiset.count_pos.2 ha
  have hroom := h.room a
  have hcount : ((refs.erase a).count a : ℤ) = refs.count a + -1 := by
    rw [Multiset.count_erase_self]
    omega
  exact h.ref ha hcount (fun b hb => Multiset.count_erase_of_ne hb _) (by omega)

/-! ## One record -/

@[simp] theorem owned_zero : owned flags (0 : Multiset α) = 0 := by
  unfold owned
  split <;> rfl

@[simp] theorem gone_zero : gone flags (0 : Multiset α) = 0 := by
  unfold gone
  split <;> rfl

theorem owned_add : owned flags (hits + hits') = owned flags hits + owned flags hits' := by
  unfold owned
  split <;> rfl

theorem gone_add : gone flags (hits + hits') = gone flags hits + gone flags hits' := by
  unfold gone
  split <;> rfl

theorem gone_le_self : gone flags hits ≤ hits := by
  unfold gone
  split
  · exact le_rfl
  · exact Multiset.zero_le _

theorem Effect.refl (ht : Tally data s held links) : Effect flags cb data held links s s 0 := by
  refine ⟨?_, fun a ha => absurd ha (Multiset.notMem_zero a), ?_, fun _ => rfl,
    fun _ => .inl ⟨rfl, rfl⟩⟩
  · rw [owned_zero, gone_zero, add_zero, tsub_zero]
    exact ht
  · rw [gone_zero]
    exact Multiset.zero_le _

/-- Two searches, the second of which goes on where the first found
nothing it would have to return. -/
theorem Effect.comp (h : Effect flags cb data held links s s' hits)
    (h' : Effect flags cb data (held + owned flags hits) (links - gone flags hits) s' s'' hits')
    (hgo : flags.objNodata = false → hits = 0) :
    Effect flags cb data held links s s'' (hits + hits') := by
  refine ⟨?_, fun a ha => ?_, ?_, fun hn => (h'.ret_nodata hn).trans (h.ret_nodata hn),
    fun hn => ?_⟩
  · rw [owned_add, gone_add, ← add_assoc, ← tsub_tsub]
    exact h'.tally
  · rcases Multiset.mem_add.1 ha with ha | ha
    · exact h.matched a ha
    · obtain ⟨hmem, hm⟩ := h'.matched a ha
      exact ⟨Multiset.mem_of_le tsub_le_self hmem, hm⟩
  · rw [gone_add]
    exact add_le_of_le_tsub_left_of_le h.gone_le h'.gone_le
  · have h0 := hgo hn
    have hret : s'.ret = s.ret := by
      rcases h.ret_find hn with ⟨_, hr⟩ | ⟨a, ha, _⟩
      · exact hr
      · rw [h0] at ha
        exact absurd ha.symm (Multiset.singleton_ne_zero a)
    rw [h0, zero_add, ← hret]
    exact h'.ret_find hn

theorem returnObject_spec {cur : BucketList α} (ht : Tally data s held links)
    (ha : cur.astobj ∈ links) (hroom : Room flags held links) :
    ∃ s', returnObject flags s cur = some s' ∧ s'.arg = s.arg ∧
      Tally data s' (held + owned flags {cur.astobj}) links ∧
      s'.ret = if flags.objNodata then s.ret else some cur.astobj := by
  unfold returnObject owned
  by_cases hn : flags.objNodata = true
  · rw [if_pos hn, if_pos hn, if_pos hn, add_zero]
    exact ⟨s, rfl, rfl, ht, rfl⟩
  · obtain ⟨mem, heq, hacc⟩ := ht.accounts.ref_succ (Multiset.mem_add.2 (.inr ha))
      (hroom (Bool.eq_false_iff.2 hn) _ ha)
    have heq' : held + {cur.astobj} + links = cur.astobj ::ₘ (held + links) := by
      rw [add_assoc, Multiset.singleton_add, Multiset.add_cons]
    rw [if_neg hn, if_neg hn, if_neg hn]
    simp only [heq, Option.bind_eq_bind, Option.bind_some]
    exact ⟨_, rfl, rfl, ⟨heq' ▸ hacc, ht.elements, ht.card_le⟩, rfl⟩

variable (flags) in
theorem unlinkObject_spec {cur : BucketList α} (ht : Tally data s held links)
    (ha : cur.astobj ∈ links) :
    ∃ s', unlinkObject flags s cur = some s' ∧ s'.arg = s.arg ∧ s'.ret = s.ret ∧
      Tally data s' held (links - gone flags {cur.astobj}) := by
  unfold unlinkObject gone
  by_cases hu : flags.objUnlink = true
  · obtain ⟨mem, heq, hacc⟩ := ht.accounts.ref_pred (Multiset.mem_add.2 (.inr ha))
    have hcard : (links.erase cur.astobj).card + 1 = links.card := Multiset.card_erase_add_one ha
    have helements := ht.elements
    have hcle := ht.card_le
    rw [if_pos hu, if_pos hu, Multiset.sub_singleton]
    simp only [heq, Option.bind_eq_bind, Option.bind_some]
    refine ⟨_, rfl, rfl, rfl, ⟨?_, ?_, by omega⟩⟩
    · rw [← Multiset.erase_add_right_pos _ ha]
      exact hacc
    · rw [fetchAdd, helements, wrapInt_of_inInt]
      · show (links.card : ℤ) + -1 = (links.erase cur.astobj).card
        omega
      · unfold InInt intMin intMax at *
        omega
  · rw [if_neg hu, if_neg hu, tsub_zero]
    exact ⟨s, rfl, rfl, rfl, ht⟩

/-- **What a match does.** -/
theorem matchRecord_spec {cur : BucketList α} (ht : Tally data s held links)
    (ha : cur.astobj ∈ links) (hroom : Room flags held links)
    (hmatch : Matched cb cur.astobj (data cur.astobj)) :
    ∃ s', matchRecord flags s cur = some s' ∧ s'.arg = s.arg ∧
      Effect flags cb data held links s s' {cur.astobj} := by
  obtain ⟨s₁, h₁, harg₁, ht₁, hret₁⟩ := returnObject_spec ht ha hroom
  obtain ⟨s₂, h₂, harg₂, hret₂, ht₂⟩ := unlinkObject_spec flags ht₁ ha
  refine ⟨s₂, ?_, harg₂.trans harg₁, ht₂, fun a hmem => ?_,
    gone_le_self.trans (Multiset.singleton_le.2 ha), fun hn => ?_, fun hn => .inr ?_⟩
  · simp only [matchRecord, h₁, Option.bind_eq_bind, Option.bind_some, h₂]
  · rw [Multiset.mem_singleton.1 hmem]
    exact ⟨ha, hmatch⟩
  · rw [hret₂, hret₁, if_pos hn]
  · rw [hret₂, hret₁, hn]
    exact ⟨_, rfl, rfl⟩

/-! ## One bucket -/

/-- The addresses a bucket's records lead to. -/
def objects (l : List (BucketList α)) : Multiset α := (l.map BucketList.astobj : List α)

/-- No object of the container stops a search it does not match. -/
def NoStop (cb : Callback α κ γ) (data : α → κ) (links : Multiset α) : Prop :=
  ∀ a ∈ links, ¬ Answers cb a (data a) cmpStop

/-- **What the traversal of a bucket does**: `kept` stays of `entries`. -/
structure Traversed (flags : SearchFlags) (cb : Callback α κ γ) (data : α → κ)
    (entries kept : List (BucketList α)) (hits : Multiset α) (stop : Bool) : Prop where
  sublist : kept.Sublist entries
  objects : objects kept + gone flags hits = objects entries
  hits_le : hits ≤ Ao2.objects entries
  /-- A search stops for a match, or because the callback says so. -/
  of_stop : stop = true → hits ≠ 0 ∨ ∃ a ∈ Ao2.objects entries, Answers cb a (data a) cmpStop
  stop_of_hit : flags.objMultiple = false → hits ≠ 0 → stop = true
  card_le : flags.objMultiple = false → hits.card ≤ 1
  silent : hits = 0 → stop = false → ∀ a ∈ Ao2.objects entries, Answers cb a (data a) 0

omit [DecidableEq α] in
theorem objects_cons {cur : BucketList α} {l : List (BucketList α)} :
    objects (cur :: l) = cur.astobj ::ₘ objects l := rfl

variable (cb) in
/-- **One bucket.** The traversal returns. -/
theorem traverse_spec (hm : flags.objNodata = false → flags.objMultiple = false)
    {entries : List (BucketList α)} (ht : Tally data s held links)
    (hle : objects entries ≤ links) (hroom : Room flags held links) :
    ∃ kept s' stop hits, traverse flags cb entries s = some (kept, s', stop) ∧
      Effect flags cb data held links s s' hits ∧
      Traversed flags cb data entries kept hits stop := by
  induction entries generalizing s held links with
  | nil =>
    refine ⟨[], s, false, 0, rfl, .refl ht, ⟨.refl _, ?_, Multiset.zero_le _, ?_, ?_, ?_, ?_⟩⟩
    · rw [gone_zero, add_zero]
    · simp
    · simp
    · simp
    · simp [objects]
  | cons cur rest ih =>
    have hmem : cur.astobj ∈ links := by
      refine Multiset.mem_of_le hle ?_
      rw [objects_cons]
      exact Multiset.mem_cons_self _ _
    have hlive := ht.accounts.live cur.astobj (Multiset.mem_add.2 (.inr hmem))
    have hrest : objects rest ≤ links := (Multiset.le_cons_self _ _).trans hle
    have hin : cur.astobj ∈ objects (cur :: rest) := by
      rw [objects_cons]
      exact Multiset.mem_cons_self _ _
    have hin' : ∀ a ∈ objects rest, a ∈ objects (cur :: rest) := fun a ha => by
      rw [objects_cons]
      exact Multiset.mem_cons_of_mem ha
    -- the callback's answer on this record
    let s₁ : Search α κ γ := { s with arg := (cb s.arg cur.astobj (data cur.astobj)).2 }
    have ht₁ : Tally data s₁ held links := ⟨ht.accounts, ht.elements, ht.card_le⟩
    have hstep : ∀ {s' : Search α κ γ} {hits : Multiset α},
        Effect flags cb data held links s₁ s' hits → Effect flags cb data held links s s' hits :=
      fun h => ⟨h.tally, h.matched, h.gone_le, h.ret_nodata, h.ret_find⟩
    generalize hans : (cmpMatch ||| cmpStop) &&& (cb s.arg cur.astobj (data cur.astobj)).1 = m
    have hanswers : Answers cb cur.astobj (data cur.astobj) m := ⟨s.arg, hans⟩
    simp only [traverse, hlive, Option.bind_eq_bind, Option.bind_some, hans]
    by_cases h0 : m = 0
    · obtain ⟨kept, s', stop, hits, heq, heff, htrav⟩ := ih ht₁ hrest hroom
      rw [if_pos h0]
      simp only [s₁] at heq
      rw [heq]
      refine ⟨cur :: kept, s', stop, hits, rfl, hstep heff, ⟨htrav.sublist.cons_cons _, ?_, ?_,
        fun hs => ?_, htrav.stop_of_hit, htrav.card_le, fun hz hs a ha => ?_⟩⟩
      · rw [objects_cons, objects_cons, Multiset.cons_add, htrav.objects]
      · exact htrav.hits_le.trans (Multiset.le_cons_self _ _)
      · exact (htrav.of_stop hs).imp_right fun ⟨a, ha, h⟩ => ⟨a, hin' a ha, h⟩
      · rw [objects_cons, Multiset.mem_cons] at ha
        rcases ha with rfl | ha
        · exact h0 ▸ hanswers
        · exact htrav.silent hz hs a ha
    · rw [if_neg h0]
      by_cases hstop : m = cmpStop
      · -- no match but stop
        rw [if_pos hstop]
        refine ⟨cur :: rest, s₁, true, 0, rfl, hstep (.refl ht₁), ⟨.refl _, ?_,
          Multiset.zero_le _, fun _ => .inr ⟨cur.astobj, hin, hstop ▸ hanswers⟩, ?_, ?_, ?_⟩⟩
        · rw [gone_zero, add_zero]
        · simp
        · simp
        · simp
      · obtain ⟨s₂, hmatch, -, heff⟩ := matchRecord_spec ht₁ hmem hroom ⟨m, hanswers, h0, hstop⟩
        rw [if_neg hstop]
        simp only [s₁] at hmatch
        rw [hmatch, Option.bind_some]
        by_cases hend : m &&& cmpStop ≠ 0 ∨ flags.objMultiple = false
        · -- the only match we need
          rw [if_pos hend]
          refine ⟨_, s₂, true, {cur.astobj}, rfl, hstep heff, ⟨?_, ?_,
            Multiset.singleton_le.2 hin, fun _ => .inl (Multiset.singleton_ne_zero _),
            fun _ _ => rfl, fun _ => by rw [Multiset.card_singleton], ?_⟩⟩
          · split
            · exact List.sublist_cons_self _ _
            · exact .refl _
          · unfold gone
            split
            · rw [objects_cons, add_comm, Multiset.singleton_add]
            · rw [add_zero]
          · simp
        · have hmult : flags.objMultiple = true := by
            by_contra hne
            exact hend (.inr (Bool.eq_false_iff.2 hne))
          have hnodata : flags.objNodata = true := by
            by_contra hne
            have := hm (Bool.eq_false_iff.2 hne)
            rw [hmult] at this
            exact absurd this (by simp)
          have hrest' : objects rest ≤ links - gone flags {cur.astobj} := by
            refine le_tsub_of_add_le_right (le_trans ?_ hle)
            rw [objects_cons, ← Multiset.singleton_add, add_comm]
            exact add_le_add_left gone_le_self _
          obtain ⟨kept, s', stop, hits, heq, heff', htrav⟩ := ih heff.tally hrest'
            (fun hn => absurd hn (by rw [hnodata]; simp))
          rw [if_neg hend, heq]
          refine ⟨_, s', stop, {cur.astobj} + hits, rfl, hstep (heff.comp heff' fun hn =>
            absurd hn (by rw [hnodata]; simp)), ⟨?_, ?_, ?_,
            fun _ => .inl (by simp), fun hf => absurd hf (by rw [hmult]; simp),
            fun hf => absurd hf (by rw [hmult]; simp), by simp⟩⟩
          · split
            · exact htrav.sublist.cons _
            · exact htrav.sublist.cons_cons _
          · have hobj := htrav.objects
            rw [gone_add]
            unfold gone at hobj ⊢
            by_cases hu : flags.objUnlink = true
            · simp only [if_pos hu] at hobj ⊢
              rw [objects_cons, ← hobj, ← Multiset.singleton_add]
              abel
            · simp only [if_neg hu, add_zero] at hobj ⊢
              rw [objects_cons, objects_cons, hobj]
          · rw [objects_cons, Multiset.singleton_add]
            exact Multiset.cons_le_cons _ htrav.hits_le

end Ao2

end Trismedia
