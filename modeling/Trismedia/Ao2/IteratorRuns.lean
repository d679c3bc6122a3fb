import Trismedia.Ao2.Iterator
/-!
# What an iterator returns

The records of a bucket stand in the order of their versions, and a
version is given once. So what an iterator has passed is what stands in an
earlier bucket, or in its own with a version not above its own, and this
stays true whatever is linked or unlinked meanwhile. The pointer is only
followed while the version of the container has not moved, and then the
record is where it was.
-/


namespace Trismedia

namespace Ao2

open CInt

variable {α κ : Type} [DecidableEq α] {hashFn : κ → BitVec 32}

/-- `_ao2_container_alloc` -/
def LinkedContainer.alloc (α : Type) (n : BitVec 32) : LinkedContainer α where
  nBuckets := n.toInt
  elements := 0
  version := 1
  size := n.toNat
  buckets _ := []

/-- A container whose version has moved to `V`. -/
structure Versioned (c : LinkedContainer α) (V : ℕ) : Prop where
  version : c.version = wrapInt V
  pos : 1 ≤ V
  bound : (V : ℤ) ≤ 2147483648
  size : c.nBuckets = c.size
  sorted : ∀ j, (c.buckets j).Pairwise fun r r' => r.2.version < r'.2.version
  range : ∀ j, ∀ r ∈ c.buckets j, 1 ≤ r.2.version ∧ r.2.version < V
  unique : ∀ i j, ∀ r ∈ c.buckets i, ∀ r' ∈ c.buckets j,
    r.2.version = r'.2.version ∨ r.1 = r'.1 → i = j ∧ r = r'
  inside : ∀ j, c.buckets j ≠ [] → j < c.size

variable {c c' c₀ : LinkedContainer α} {V : ℕ} {op : ContainerOp α}

omit [DecidableEq α] in
theorem Versioned.alloc {n : BitVec 32} (hn : 0 ≤ n.toInt) :
    Versioned (LinkedContainer.alloc α n) 1 where
  version := rfl
  pos := Nat.le_refl _
  bound := by omega
  size := ((toNat_of_toInt n).1 hn).symm
  sorted _ := List.Pairwise.nil
  range := by simp [LinkedContainer.alloc]
  unique := by simp [LinkedContainer.alloc]
  inside := by simp [LinkedContainer.alloc]

omit [DecidableEq α] in
theorem Versioned.version_eq (hv : Versioned c V) (hroom : (V : ℤ) < 2147483648) :
    c.version = V := by
  rw [hv.version]
  refine wrapInt_of_inInt ⟨le_trans (by decide) (Int.natCast_nonneg V), ?_⟩
  unfold intMax
  omega

theorem wrapInt_inj {a b : ℕ} (ha : (a : ℤ) ≤ 2147483648) (hb : (b : ℤ) ≤ 2147483648)
    (h : wrapInt a = wrapInt b) : a = b := by
  unfold wrapInt at h
  omega

/-! ## The calls on the container -/

/-- What a link does. -/
theorem link_effect {p : ℕ} {a : α} (h : ContainerStep hashFn c (.link p a) c') :
    c'.nBuckets = c.nBuckets ∧ c'.size = c.size ∧ c'.version = fetchAdd c.version 1 ∧
      (∀ j, ∀ r ∈ c.buckets j, r.1 ≠ p) ∧
      ∃ i < c.size, c'.buckets =
        Function.update c.buckets i (c.buckets i ++ [(p, ⟨c.version, a⟩)]) := by
  obtain ⟨hfresh, ⟨mem, mem', hlink⟩, i, r, hbuckets⟩ := h
  simp only [ao2Link, Option.bind_eq_bind, Option.bind_eq_some_iff] at hlink
  obtain ⟨obj, -, k, -, hlink⟩ := hlink
  by_cases hin : c.toContainer.Inside k
  · rw [if_pos hin, Option.bind_eq_some_iff] at hlink
    obtain ⟨⟨mem'', ret⟩, -, hlink⟩ := hlink
    have hc := (Prod.mk.inj (Option.some.inj hlink)).2
    have hb := congrArg Ao2Container.buckets hc
    refine ⟨(congrArg Ao2Container.nBuckets hc).symm, (congrArg Ao2Container.size hc).symm,
      (congrArg Ao2Container.version hc).symm, hfresh, i, ?_⟩
    simp only [LinkedContainer.toContainer, hbuckets] at hb
    have hbi := congrFun hb i
    simp only [Function.update_self] at hbi
    by_cases hik : i = k.toNat
    · rw [hik, Function.update_self, List.map_append, List.append_cancel_left_eq] at hbi
      have hr : (⟨c.version, a⟩ : BucketList α) = r := by simpa using hbi
      have hlt : k.toNat < c.size := by
        have := hin.2
        have := hin.1
        simp only [LinkedContainer.toContainer] at *
        omega
      exact ⟨hik ▸ hlt, by rw [hr, hbuckets]⟩
    · rw [Function.update_of_ne hik, List.map_append] at hbi
      have hlen := congrArg List.length hbi
      simp at hlen
  · rw [if_neg hin] at hlink
    cases hlink

/-- What a search does. -/
theorem callback_effect {k : ℕ} (h : ContainerStep hashFn c (.callback k) c') :
    c'.nBuckets = c.nBuckets ∧ c'.size = c.size ∧ c'.version = bump^[k] c.version ∧
      (∀ j, (c'.buckets j).Sublist (c.buckets j)) ∧ c.links = c'.links + k := by
  obtain ⟨⟨γ, fuel, mem, mem', flags, hash, cb, arg, arg', ret, h⟩, hsub, hlinks⟩ := h
  have hkey : c'.nBuckets = c.nBuckets ∧ c'.size = c.size ∧
      ∃ k', c'.version = bump^[k'] c.version ∧ c.links = c'.links + k' := by
    unfold ao2Callback at h
    split at h
    · have hc := (Prod.mk.inj (Prod.mk.inj (Option.some.inj h)).2).1
      have hb : c.toContainer.buckets = c'.toContainer.buckets := congrArg Ao2Container.buckets hc
      have hs : c.size = c'.size := congrArg Ao2Container.size hc
      refine ⟨(congrArg Ao2Container.nBuckets hc).symm, hs.symm, 0,
        (congrArg Ao2Container.version hc).symm, ?_⟩
      rw [LinkedContainer.links, LinkedContainer.links, hb, hs]
      rfl
    · simp only [Option.bind_eq_bind, Option.bind_eq_some_iff] at h
      obtain ⟨⟨start, i, last⟩, -, ⟨buckets, s⟩, hloop, h⟩ := h
      obtain ⟨-, k', hcard, hver⟩ := bucketLoop_version hloop
      have hc := (Prod.mk.inj (Prod.mk.inj (Option.some.inj h)).2).1
      have hb : buckets = c'.toContainer.buckets := congrArg Ao2Container.buckets hc
      have hs : c.size = c'.size := congrArg Ao2Container.size hc
      have hv : s.version = c'.version := congrArg Ao2Container.version hc
      refine ⟨(congrArg Ao2Container.nBuckets hc).symm, hs.symm, k', hv ▸ hver, ?_⟩
      rw [LinkedContainer.links, LinkedContainer.links, ← hs, ← hb]
      exact hcard
  obtain ⟨hnb, hsize, k', hver, hk'⟩ := hkey
  have hk : k' = k := by omega
  exact ⟨hnb, hsize, hk ▸ hver, hsub, hlinks⟩

/-- A search that takes nothing out leaves the buckets. -/
theorem callback_zero (hv : Versioned c V) (h : ContainerStep hashFn c (.callback 0) c') :
    c'.buckets = c.buckets := by
  obtain ⟨-, hsize, -, hsub, hlinks⟩ := callback_effect h
  have hsum : ∀ d : LinkedContainer α,
      d.links = ∑ j ∈ Finset.range d.size, (d.buckets j).length := by
    intro d
    unfold LinkedContainer.links total
    rw [Multiset.card_sum]
    refine Finset.sum_congr rfl fun j _ => ?_
    rw [card_objects]
    simp [LinkedContainer.toContainer]
  rw [hsum, hsum, hsize, Nat.add_zero] at hlinks
  have heq := (Finset.sum_eq_sum_iff_of_le fun j _ => (hsub j).length_le).1 hlinks.symm
  funext j
  by_cases hj : j < c.size
  · exact (hsub j).eq_of_length (heq j (Finset.mem_range.2 hj))
  · have hnil : c.buckets j = [] := by
      by_contra hne
      exact hj (hv.inside j hne)
    rw [hnil]
    exact List.sublist_nil.1 (hnil ▸ hsub j)

/-- **A call keeps the order of the versions.** -/
theorem Versioned.step (hv : Versioned c V) (hstep : ContainerStep hashFn c op c')
    (hroom : ((V + op.moves : ℕ) : ℤ) ≤ 2147483648) : Versioned c' (V + op.moves) := by
  cases op with
  | link p a =>
    simp only [ContainerOp.moves] at hroom ⊢
    obtain ⟨hnb, hsize, hver, hfresh, i, hi, hb⟩ := link_effect hstep
    have hcv := hv.version_eq (by omega)
    have hmem : ∀ j r, r ∈ c'.buckets j →
        r ∈ c.buckets j ∨ (j = i ∧ r = (p, ⟨c.version, a⟩)) := by
      intro j r hr
      rw [hb] at hr
      by_cases hj : j = i
      · rw [hj, Function.update_self, List.mem_append, List.mem_singleton] at hr
        rcases hr with hr | hr
        · exact .inl (hj ▸ hr)
        · exact .inr ⟨hj, hr⟩
      · rw [Function.update_of_ne hj] at hr
        exact .inl hr
    refine ⟨?_, by omega, hroom, by rw [hnb, hsize, hv.size], fun j => ?_, fun j r hr => ?_,
      fun x y r hr r' hr' heq => ?_, fun j hj => ?_⟩
    · rw [hver, hv.version, Nat.cast_succ]
      exact bump_wrapInt _
    · rw [hb]
      by_cases hj : j = i
      · rw [hj, Function.update_self, List.pairwise_append]
        refine ⟨hv.sorted i, List.pairwise_singleton _ _, fun r hr r' hr' => ?_⟩
        rw [List.mem_singleton.1 hr']
        have := (hv.range i r hr).2
        show r.2.version < c.version
        omega
      · rw [Function.update_of_ne hj]
        exact hv.sorted j
    · rcases hmem j r hr with hr | ⟨-, rfl⟩
      · have := hv.range j r hr
        omega
      · have := hv.pos
        show 1 ≤ c.version ∧ c.version < _
        omega
    · rcases hmem x r hr with hr | ⟨rfl, rfl⟩ <;> rcases hmem y r' hr' with hr' | ⟨rfl, rfl⟩
      · exact hv.unique x y r hr r' hr' heq
      · have hlt := (hv.range x r hr).2
        rcases heq with heq | heq
        · have heq' : r.2.version = c.version := heq
          omega
        · exact absurd heq (hfresh x r hr)
      · have hlt := (hv.range y r' hr').2
        rcases heq with heq | heq
        · have heq' : c.version = r'.2.version := heq
          omega
        · exact absurd heq.symm (hfresh y r' hr')
      · exact ⟨rfl, rfl⟩
    · rw [hsize]
      by_cases hji : j = i
      · rwa [hji]
      · rw [hb, Function.update_of_ne hji] at hj
        exact hv.inside j hj
  | callback k =>
    simp only [ContainerOp.moves] at hroom ⊢
    obtain ⟨hnb, hsize, hver, hsub, -⟩ := callback_effect hstep
    refine ⟨?_, by have := hv.pos; omega, hroom, by rw [hnb, hsize, hv.size],
      fun j => (hv.sorted j).sublist (hsub j), fun j r hr => ?_,
      fun x y r hr r' hr' heq => ?_, fun j hj => ?_⟩
    · rw [hver, hv.version, bump_iterate, Nat.cast_add]
    · have := hv.range j r ((hsub j).subset hr)
      omega
    · exact hv.unique x y r ((hsub x).subset hr) r' ((hsub y).subset hr') heq
    · rw [hsize]
      refine hv.inside j fun hnil => hj ?_
      exact List.sublist_nil.1 (hnil ▸ hsub j)

/-! ## What the iterator has passed -/

/-- The iterator at bucket `b` and version `v` has passed the record. -/
def Passed (b v : ℤ) (j : ℕ) (r : ℕ × BucketList α) : Prop :=
  (j : ℤ) < b ∨ ((j : ℤ) = b ∧ r.2.version ≤ v)

/-- **What was returned, against what is linked.** `c₀` is the container
the iteration began with. -/
structure Cursor (c₀ c : LinkedContainer α) (V : ℕ) (b v : ℤ) (ret : List (ℕ × BucketList α)) :
    Prop where
  bucket : 0 ≤ b ∧ b ≤ c.size
  visited : ∀ j, ∀ r ∈ c.buckets j, r ∈ ret → Passed b v j r
  complete : ∀ j, ∀ r ∈ c₀.buckets j, r ∈ c.buckets j → Passed b v j r → r ∈ ret
  nodup : ret.Nodup
  old : ∀ r ∈ ret, r.2.version < V
  first : ∀ j, ∀ r ∈ c₀.buckets j, r.2.version < V

variable {b v : ℤ} {ret : List (ℕ × BucketList α)} {r : ℕ × BucketList α}

theorem Cursor.start (hv : Versioned c V) : Cursor c c V 0 0 [] where
  bucket := ⟨le_rfl, Int.natCast_nonneg _⟩
  visited := by simp
  complete := by
    intro j r hr _ hp
    have hrange := (hv.range j r hr).1
    rcases hp with hp | ⟨-, hp⟩ <;> omega
  nodup := List.nodup_nil
  old := by simp
  first j r hr := (hv.range j r hr).2

omit [DecidableEq α] in
/-- **The bucket is done**, and the next one is entered. -/
theorem Cursor.nextBucket (h : Cursor c₀ c V b v ret) (hv : Versioned c V) (hb : b < c.size)
    (hdone : ∀ r ∈ c.buckets b.toNat, r.2.version ≤ v) : Cursor c₀ c V (b + 1) 0 ret where
  bucket := by
    have := h.bucket
    omega
  visited j r hr hret := by
    rcases h.visited j r hr hret with hp | ⟨hp, -⟩
    · exact .inl (by omega)
    · exact .inl (by omega)
  complete j r hr hrc hp := by
    refine h.complete j r hr hrc ?_
    rcases hp with hp | ⟨-, hp⟩
    · by_cases hlt : (j : ℤ) < b
      · exact .inl hlt
      · have hj : j = b.toNat := by
          have := h.bucket
          omega
        exact .inr ⟨by have := h.bucket; omega, hdone r (hj ▸ hrc)⟩
    · have := (hv.range j r hrc).1
      omega
  nodup := h.nodup
  old := h.old
  first := h.first

omit [DecidableEq α] in
/-- **A record is returned**: the first of its bucket that was not passed. -/
theorem Cursor.found (h : Cursor c₀ c V b v ret) (hv : Versioned c V)
    (hr : r ∈ c.buckets b.toNat) (hlt : v < r.2.version)
    (hfirst : ∀ r' ∈ c.buckets b.toNat, v < r'.2.version → r.2.version ≤ r'.2.version) :
    Cursor c₀ c V b r.2.version (ret ++ [r]) where
  bucket := h.bucket
  visited j r' hr' hret := by
    rcases List.mem_append.1 hret with hret | hret
    · rcases h.visited j r' hr' hret with hp | ⟨hp, hle⟩
      · exact .inl hp
      · exact .inr ⟨hp, by omega⟩
    · obtain rfl := List.mem_singleton.1 hret
      obtain ⟨hj, -⟩ := hv.unique _ _ _ hr' _ hr (.inl rfl)
      have := h.bucket
      exact .inr ⟨by omega, le_rfl⟩
  complete j r' hr' hrc hp := by
    rw [List.mem_append, List.mem_singleton]
    rcases hp with hp | ⟨hp, hle⟩
    · exact .inl (h.complete j r' hr' hrc (.inl hp))
    · by_cases hle' : r'.2.version ≤ v
      · exact .inl (h.complete j r' hr' hrc (.inr ⟨hp, hle'⟩))
      · have hj : j = b.toNat := by omega
        have hge := hfirst r' (hj ▸ hrc) (by omega)
        exact .inr (hv.unique _ _ _ hrc _ hr (.inl (by omega))).2
  nodup := by
    refine List.Nodup.append h.nodup (List.nodup_singleton _) fun r' hret hr' => ?_
    obtain rfl := List.mem_singleton.1 hr'
    rcases h.visited _ _ hr hret with hp | ⟨-, hp⟩
    · have := h.bucket
      omega
    · omega
  old r' hret := by
    rcases List.mem_append.1 hret with hret | hret
    · exact h.old r' hret
    · rw [List.mem_singleton.1 hret]
      exact (hv.range _ _ hr).2
  first := h.first

/-- **A call on the container leaves the cursor.** -/
theorem Cursor.step (h : Cursor c₀ c V b v ret) (hv : Versioned c V)
    (hstep : ContainerStep hashFn c op c') (hroom : ((V + op.moves : ℕ) : ℤ) ≤ 2147483648) :
    Cursor c₀ c' (V + op.moves) b v ret := by
  have hold : ∀ r ∈ ret, r.2.version < ((V + op.moves : ℕ) : ℤ) := fun r hr => by
    have := h.old r hr
    omega
  have hfirst : ∀ j, ∀ r ∈ c₀.buckets j, r.2.version < ((V + op.moves : ℕ) : ℤ) :=
    fun j r hr => by
      have := h.first j r hr
      omega
  cases op with
  | link p a =>
    obtain ⟨-, hsize, -, -, i, -, hb⟩ := link_effect hstep
    have hcv := hv.version_eq (by simp only [ContainerOp.moves] at hroom; omega)
    have hmem : ∀ j, ∀ r ∈ c'.buckets j, r ∈ c.buckets j ∨ r.2.version = V := by
      intro j r hr
      rw [hb] at hr
      by_cases hj : j = i
      · rw [hj, Function.update_self, List.mem_append, List.mem_singleton] at hr
        rcases hr with hr | hr
        · exact .inl (hj ▸ hr)
        · exact .inr (hr ▸ hcv)
      · rw [Function.update_of_ne hj] at hr
        exact .inl hr
    refine ⟨hsize ▸ h.bucket, fun j r hr hret => ?_, fun j r hr hrc hp => ?_, h.nodup, hold,
      hfirst⟩
    · rcases hmem j r hr with hr | hr
      · exact h.visited j r hr hret
      · have := h.old r hret
        omega
    · rcases hmem j r hrc with hrc | hrc
      · exact h.complete j r hr hrc hp
      · have := h.first j r hr
        omega
  | callback k =>
    obtain ⟨-, hsize, -, hsub, -⟩ := callback_effect hstep
    refine ⟨hsize ▸ h.bucket, fun j r hr => h.visited j r ((hsub j).subset hr),
      fun j r hr hrc => h.complete j r hr ((hsub j).subset hrc), h.nodup, hold, hfirst⟩

/-! ## One call of the iterator -/

omit [DecidableEq α] in
theorem nextIn_none {p : ℕ} {l : List (ℕ × BucketList α)} (h : ∀ r ∈ l, r.1 ≠ p) :
    nextIn p l = none := by
  induction l with
  | nil => rfl
  | cons x l ih =>
    rw [nextIn, if_neg (h x List.mem_cons_self)]
    exact ih fun r hr => h r (List.mem_cons_of_mem _ hr)

omit [DecidableEq α] in
theorem nextIn_append {p : ℕ} {x : BucketList α} {l l' : List (ℕ × BucketList α)}
    (h : ∀ r ∈ l, r.1 ≠ p) : nextIn p (l ++ (p, x) :: l') = some l'.head? := by
  induction l with
  | nil => rw [List.nil_append, nextIn, if_pos rfl]
  | cons y l ih =>
    rw [List.cons_append, nextIn, if_neg (h y List.mem_cons_self)]
    exact ih fun r hr => h r (List.mem_cons_of_mem _ hr)

omit [DecidableEq α] in
/-- The pointer to a linked record leads to what stands after it. -/
theorem listNext_eq (hv : Versioned c V) {p i : ℕ} {x : BucketList α}
    {l l' : List (ℕ × BucketList α)} (h : c.buckets i = l ++ (p, x) :: l') :
    listNext c p = some l'.head? := by
  have hmem : (p, x) ∈ c.buckets i := by simp [h]
  have hi : i < c.size := hv.inside i fun hnil => by simp [hnil] at hmem
  have hne : ∀ j < i, nextIn p (c.buckets j) = none := by
    intro j hj
    refine nextIn_none fun r hr heq => ?_
    have := (hv.unique j i r hr (p, x) hmem (.inr heq)).1
    omega
  have hnext : nextIn p (c.buckets i) = some l'.head? := by
    rw [h]
    refine nextIn_append fun r hr heq => ?_
    have hnd := hv.sorted i
    rw [h, List.pairwise_append] at hnd
    have hlt := hnd.2.2 r hr (p, x) List.mem_cons_self
    have := (hv.unique i i r (by simp [h, hr]) (p, x) hmem (.inr heq)).2
    rw [this] at hlt
    omega
  unfold listNext
  rw [List.findSome?_eq_some_iff]
  refine ⟨List.range i, i, List.range' (i + 1) (c.size - (i + 1)), ?_, hnext, fun j hj => ?_⟩
  · have happ := @List.range'_append_1 0 i (c.size - (i + 1) + 1)
    rw [Nat.zero_add, show i + (c.size - (i + 1) + 1) = c.size by omega] at happ
    rw [List.range_eq_range', List.range_eq_range', ← List.range'_succ, happ]
  · exact hne j (List.mem_range.1 hj)

omit [DecidableEq α] in
/-- The record after one in the order of the versions. -/
theorem head_version {l' : List (ℕ × BucketList α)} {x : ℕ × BucketList α}
    (hs : (x :: l').Pairwise fun r r' => r.2.version < r'.2.version)
    (h : l'.head? = some r) : x.2.version < r.2.version ∧
      ∀ r' ∈ l', r.2.version ≤ r'.2.version := by
  cases l' with
  | nil => cases h
  | cons y l =>
    obtain rfl := Option.some.inj h
    rw [List.pairwise_cons] at hs
    refine ⟨hs.1 y List.mem_cons_self, fun r' hr' => ?_⟩
    rcases List.mem_cons.1 hr' with rfl | hr'
    · exact le_rfl
    · exact ((List.pairwise_cons.1 hs.2).1 r' hr').le

omit [DecidableEq α] in
/-- The first record that was not passed comes before the others. -/
theorem find_first {l : List (ℕ × BucketList α)}
    (hs : l.Pairwise fun r r' => r.2.version < r'.2.version)
    (h : (l.find? fun r => v < r.2.version) = some r) :
    ∀ r' ∈ l, v < r'.2.version → r.2.version ≤ r'.2.version := by
  obtain ⟨hr, l₁, l₂, rfl, hl₁⟩ := List.find?_eq_some_iff_append.1 h
  rw [List.pairwise_append] at hs
  intro r' hr' hlt
  rcases List.mem_append.1 hr' with hr' | hr'
  · exact absurd hlt (by simpa using hl₁ r' hr')
  · rcases List.mem_cons.1 hr' with rfl | hr'
    · exact le_rfl
    · exact ((List.pairwise_cons.1 hs.2.1).1 r' hr').le

omit [DecidableEq α] in
/-- **The scan** stops at a record that was not passed, or after the last
bucket. -/
theorem iteratorScan_spec (hv : Versioned c V) {a : Ao2Iterator}
    (h : Cursor c₀ c V a.bucket a.version ret) :
    ∃ q a', iteratorScan c a = some (q, a') ∧ a'.obj = a.obj ∧ a'.cVersion = a.cVersion ∧
      Cursor c₀ c V a'.bucket a'.version ret ∧
      match q with
      | some r => r ∈ c.buckets a'.bucket.toNat ∧ a'.version < r.2.version ∧
          ∀ r' ∈ c.buckets a'.bucket.toNat, a'.version < r'.2.version →
            r.2.version ≤ r'.2.version
      | none => a'.bucket = c.size := by
  induction hm : (c.nBuckets - a.bucket).toNat using Nat.strong_induction_on generalizing a with
  | _ m ih =>
    rw [iteratorScan]
    have hb := h.bucket
    have hsize := hv.size
    by_cases hlt : a.bucket < c.nBuckets
    · rw [if_pos hlt, if_pos ⟨hb.1, by omega⟩]
      cases hf : (c.buckets a.bucket.toNat).find? fun r => a.version < r.2.version with
      | some r =>
        refine ⟨some r, a, rfl, rfl, rfl, h, List.mem_of_find?_eq_some hf, ?_,
          find_first (hv.sorted _) hf⟩
        simpa using List.find?_some hf
      | none =>
        have hdone : ∀ r ∈ c.buckets a.bucket.toNat, r.2.version ≤ a.version := by
          intro r hr
          have := List.find?_eq_none.1 hf r hr
          simpa using this
        have hnext := h.nextBucket hv (by omega) hdone
        exact ih (c.nBuckets - (a.bucket + 1)).toNat (by omega)
          (a := { a with bucket := a.bucket + 1, version := 0 }) hnext rfl
    · rw [if_neg hlt]
      exact ⟨none, a, rfl, rfl, rfl, h, by show a.bucket = c.size; omega⟩

/-- The iterator between two calls. The pointer is good while the version
of the container has not moved since. -/
structure Iterating (c₀ c : LinkedContainer α) (V : ℕ) (a : Ao2Iterator)
    (ret : List (ℕ × BucketList α)) : Prop where
  cursor : Cursor c₀ c V a.bucket a.version ret
  pointer : ∃ C ≤ V, a.cVersion = wrapInt C ∧ (C = V → ∀ p, a.obj = some p →
    ∃ x, (p, x) ∈ c.buckets a.bucket.toNat ∧ x.version = a.version)

variable {a a' : Ao2Iterator}

theorem Iterating.start (hv : Versioned c V) : Iterating c c V ao2IteratorInit [] where
  cursor := Cursor.start hv
  pointer := ⟨0, Nat.zero_le _, rfl, fun h => by have := hv.pos; omega⟩

theorem Iterating.step (h : Iterating c₀ c V a ret) (hv : Versioned c V)
    (hstep : ContainerStep hashFn c op c') (hroom : ((V + op.moves : ℕ) : ℤ) ≤ 2147483648) :
    Iterating c₀ c' (V + op.moves) a ret where
  cursor := h.cursor.step hv hstep hroom
  pointer := by
    obtain ⟨C, hC, hcv, hp⟩ := h.pointer
    refine ⟨C, by omega, hcv, fun heq => ?_⟩
    cases op with
    | link p a =>
      simp only [ContainerOp.moves] at heq
      omega
    | callback k =>
      simp only [ContainerOp.moves] at heq
      obtain rfl : k = 0 := by omega
      rw [callback_zero hv hstep]
      exact hp (by omega)

omit [DecidableEq α] in
/-- What is returned once a record was found. -/
theorem Iterating.found (h : Cursor c₀ c V a.bucket a.version ret) (hv : Versioned c V)
    (hr : r ∈ c.buckets a.bucket.toNat) (hlt : a.version < r.2.version)
    (hfirst : ∀ r' ∈ c.buckets a.bucket.toNat, a.version < r'.2.version →
      r.2.version ≤ r'.2.version) :
    Iterating c₀ c V (iteratorFound c (some r) a).2 (ret ++ [r]) where
  cursor := h.found hv hr hlt hfirst
  pointer := ⟨V, Nat.le_refl _, hv.version, fun _ p hp => ⟨r.2, by
    obtain rfl := Option.some.inj hp
    exact ⟨hr, rfl⟩⟩⟩

omit [DecidableEq α] in
/-- What the scan comes to, where the pointer is not used again. -/
theorem Iterating.scan (hv : Versioned c V) (h : Cursor c₀ c V a.bucket a.version ret)
    (hpointer : ∃ C ≤ V, a.cVersion = wrapInt C ∧ (C = V → a.obj = none)) :
    ∃ q a', iteratorScan c a = some (q, a') ∧
      Iterating c₀ c V (iteratorFound c q a').2 (ret ++ q.toList) ∧
      (q = none → (iteratorFound c q a').2.bucket = c.size) := by
  obtain ⟨q, a', hscan, hobj, hcv, hcur, hq⟩ := iteratorScan_spec hv h
  refine ⟨q, a', hscan, ?_, ?_⟩
  · cases q with
    | some r => exact Iterating.found hcur hv hq.1 hq.2.1 hq.2.2
    | none =>
      refine ⟨by simpa [iteratorFound] using hcur, ?_⟩
      obtain ⟨C, hC, hc, hnone⟩ := hpointer
      refine ⟨C, hC, hcv.trans hc, fun heq p hp => ?_⟩
      have hp' : a'.obj = some p := hp
      rw [hobj, hnone heq] at hp'
      cases hp'
  · rintro rfl
    exact hq

omit [DecidableEq α] in
/-- **One call returns the next record that was not passed**, and never
follows a pointer to what was freed. -/
theorem ao2IteratorNext_spec (hv : Versioned c V) (h : Iterating c₀ c V a ret) :
    ∃ q a', ao2IteratorNext c a = some (q, a') ∧ Iterating c₀ c V a' (ret ++ q.toList) ∧
      (q = none → a'.bucket = c.size) := by
  obtain ⟨C, hC, hcv, hp⟩ := h.pointer
  have hbound := hv.bound
  have heqv : c.version = a.cVersion ↔ V = C := by
    rw [hv.version, hcv]
    exact ⟨fun heq => wrapInt_inj hbound (by omega) heq, fun heq => by rw [heq]⟩
  cases hobj : (if c.version = a.cVersion then a.obj else none) with
  | none =>
    have hnone : C = V → a.obj = none := by
      intro heq
      rwa [if_pos (heqv.2 heq.symm)] at hobj
    obtain ⟨q, a', hscan, hit, hend⟩ := Iterating.scan hv h.cursor ⟨C, hC, hcv, hnone⟩
    refine ⟨(iteratorFound c q a').1, (iteratorFound c q a').2, ?_, ?_, ?_⟩
    · simp only [ao2IteratorNext, hobj, hscan, Option.bind_eq_bind, Option.bind_some]
      rfl
    · cases q <;> exact hit
    · cases q with
      | none => exact fun _ => hend rfl
      | some r => intro heq; cases heq
  | some p =>
    have hver : c.version = a.cVersion := by
      by_contra hne
      rw [if_neg hne] at hobj
      cases hobj
    rw [if_pos hver] at hobj
    obtain ⟨x, hx, hxv⟩ := hp (heqv.1 hver).symm p hobj
    obtain ⟨l, l', hl⟩ := List.append_of_mem hx
    have hnext := listNext_eq hv hl
    have hsorted := hv.sorted a.bucket.toNat
    rw [hl, List.pairwise_append] at hsorted
    have hbefore : ∀ r' ∈ l, r'.2.version < a.version := fun r' hr' =>
      hxv ▸ hsorted.2.2 r' hr' (p, x) List.mem_cons_self
    cases hq : l'.head? with
    | some r =>
      obtain ⟨hlt, hfirst⟩ := head_version hsorted.2.1 hq
      have hr : r ∈ c.buckets a.bucket.toNat := by
        rw [hl]
        exact List.mem_append_right _ (List.mem_cons_of_mem _ (List.mem_of_mem_head? hq))
      refine ⟨some r, (iteratorFound c (some r) a).2, ?_, ?_, fun h => by cases h⟩
      · simp only [ao2IteratorNext, hobj, if_pos hver, hnext, hq, Option.bind_eq_bind,
          Option.bind_some]
        rfl
      · refine Iterating.found h.cursor hv hr (hxv ▸ hlt) fun r' hr' hlt' => ?_
        rw [hl] at hr'
        rcases List.mem_append.1 hr' with hr' | hr'
        · have := hbefore r' hr'
          omega
        · rcases List.mem_cons.1 hr' with rfl | hr'
          · have hlt'' : a.version < x.version := hlt'
            omega
          · exact hfirst r' hr'
    | none =>
      obtain rfl := List.head?_eq_none_iff.1 hq
      have hb := h.cursor.bucket
      have hin : a.bucket.toNat < c.size := hv.inside _ fun hnil => by
        rw [hnil] at hx
        cases hx
      have hdone : ∀ r ∈ c.buckets a.bucket.toNat, r.2.version ≤ a.version := by
        intro r hr
        rw [hl] at hr
        rcases List.mem_append.1 hr with hr | hr
        · exact (hbefore r hr).le
        · obtain rfl := List.mem_singleton.1 hr
          exact hxv.le
      have hcur := h.cursor.nextBucket hv (by omega) hdone
      obtain ⟨q, a', hscan, hit, hend⟩ := Iterating.scan hv
        (a := { a with bucket := a.bucket + 1, version := 0, obj := none }) hcur
        ⟨C, hC, hcv, fun _ => rfl⟩
      refine ⟨(iteratorFound c q a').1, (iteratorFound c q a').2, ?_, ?_, ?_⟩
      · simp only [ao2IteratorNext, hobj, if_pos hver, hnext, hq, Option.bind_eq_bind,
          Option.bind_some, hscan]
        rfl
      · cases q <;> exact hit
      · cases q with
        | none => exact fun _ => hend rfl
        | some r => intro heq; cases heq

/-! ## Whole iterations -/

/-- A call on the container, or one of `ao2_iterator_next` with the record
it returned. -/
inductive IterOp (α : Type)
  | call (op : ContainerOp α)
  | next (q : Option (ℕ × BucketList α))

/-- How often the version of the container moves. -/
def IterOp.moves : IterOp α → ℕ
  | call op => op.moves
  | next _ => 0

/-- The record an event returned. -/
def IterOp.record : IterOp α → Option (ℕ × BucketList α)
  | call _ => none
  | next q => q

/-- **One event of an iteration.** -/
def IterStep (hashFn : κ → BitVec 32) (s : LinkedContainer α × Ao2Iterator) :
    IterOp α → LinkedContainer α × Ao2Iterator → Prop
  | .call op, s' => ContainerStep hashFn s.1 op s'.1 ∧ s'.2 = s.2
  | .next q, s' => s'.1 = s.1 ∧ ao2IteratorNext s.1 s.2 = some (q, s'.2)

theorem IterStep.of_call {a : Ao2Iterator} (h : ContainerStep hashFn c op c') :
    IterStep hashFn (c, a) (.call op) (c', a) := ⟨h, rfl⟩

theorem IterStep.of_next {a a' : Ao2Iterator} {q : Option (ℕ × BucketList α)}
    (h : ao2IteratorNext c a = some (q, a')) : IterStep hashFn (c, a) (.next q) (c, a') := ⟨rfl, h⟩

/-- The records that were returned, in order. -/
def returned (evs : List (IterOp α)) : List (ℕ × BucketList α) := evs.filterMap IterOp.record

/-- **An iteration is right.** `c₀` is the container at its creation, `s`
the present state. -/
structure IterationGood (c₀ : LinkedContainer α) (evs : List (IterOp α))
    (s : LinkedContainer α × Ao2Iterator) : Prop where
  /-- No link is returned twice. -/
  nodup : (returned evs).Nodup
  /-- The next call follows no pointer to what was freed. -/
  live : ao2IteratorNext s.1 s.2 ≠ none
  /-- At the end, every link that is still there was returned once. -/
  complete : ∀ a, ao2IteratorNext s.1 s.2 = some (none, a) →
    ∀ j, ∀ r ∈ c₀.buckets j, r ∈ s.1.buckets j → (returned evs).count r = 1

/-- Calls on a container move its version. -/
theorem versioned_of_trace {evs : List (ContainerOp α)} (hv : Versioned c V)
    (hrun : Trace (ContainerStep hashFn) c evs c')
    (hroom : ((V + (evs.map ContainerOp.moves).sum : ℕ) : ℤ) ≤ 2147483648) :
    Versioned c' (V + (evs.map ContainerOp.moves).sum) := by
  induction hrun with
  | nil => simpa using hv
  | snoc _ hstep ih =>
    rw [List.map_append, List.sum_append, List.map_singleton, List.sum_singleton,
      ← Nat.add_assoc] at hroom ⊢
    exact (ih (by omega)).step hstep hroom

/-- **An iteration keeps the cursor.** -/
theorem iterating_of_trace {evs : List (IterOp α)} {s : LinkedContainer α × Ao2Iterator}
    (hv : Versioned c₀ V) (hrun : Trace (IterStep hashFn) (c₀, ao2IteratorInit) evs s)
    (hroom : ((V + (evs.map IterOp.moves).sum : ℕ) : ℤ) ≤ 2147483648) :
    Versioned s.1 (V + (evs.map IterOp.moves).sum) ∧
      Iterating c₀ s.1 (V + (evs.map IterOp.moves).sum) s.2 (returned evs) := by
  induction hrun with
  | nil => exact ⟨by simpa using hv, by simpa [returned] using Iterating.start hv⟩
  | @snoc t u evs e _ hstep ih =>
    rw [List.map_append, List.sum_append, List.map_singleton, List.sum_singleton,
      ← Nat.add_assoc] at hroom ⊢
    have hret : returned (evs ++ [e]) = returned evs ++ e.record.toList := by
      rw [returned, List.filterMap_append]
      congr 1
    obtain ⟨hvt, hit⟩ := ih (by omega)
    cases e with
    | call op =>
      obtain ⟨hcall, ha⟩ := hstep
      simp only [IterOp.moves] at hroom ⊢
      rw [hret, ha]
      exact ⟨hvt.step hcall hroom, by simpa [IterOp.record] using hit.step hvt hcall hroom⟩
    | next q' =>
      obtain ⟨hc, hnext⟩ := hstep
      obtain ⟨q, a', heq, hit', -⟩ := ao2IteratorNext_spec hvt hit
      obtain ⟨rfl, ha⟩ : q = q' ∧ a' = u.2 := by
        rw [heq] at hnext
        simpa using hnext
      rw [hret, hc, ← ha]
      exact ⟨hvt, hit'⟩

variable {evs₀ : List (ContainerOp α)} {evs : List (IterOp α)}
  {s : LinkedContainer α × Ao2Iterator} {n : BitVec 32}

/-- A container of `n` buckets that uses the first one. -/
def single (n : BitVec 32) (elements version : ℤ) (l : List (ℕ × BucketList ℕ)) :
    LinkedContainer ℕ where
  nBuckets := n.toInt
  elements := elements
  version := version
  size := n.toNat
  buckets j := if j = 0 then l else []

theorem single_alloc : LinkedContainer.alloc ℕ n = single n 0 1 [] := by
  simp only [LinkedContainer.alloc, single, ite_self]

/-- Every object has five references. -/
def objects5 : Memory ℕ Unit := fun _ => some ⟨5, ()⟩

def hashZero : Unit → BitVec 32 := fun _ => 0

theorem update_single {β : Type} (l l' : List β) :
    (Function.update (fun j => if j = 0 then l else []) 0 l') =
      fun j : ℕ => if j = 0 then l' else [] := by
  funext j
  by_cases hj : j = 0
  · rw [hj, Function.update_self, if_pos rfl]
  · rw [Function.update_of_ne hj, if_neg hj, if_neg hj]

theorem single_toContainer (elements version : ℤ) (l : List (ℕ × BucketList ℕ)) :
    (single n elements version l).toContainer =
      ⟨n.toInt, elements, version, n.toNat, fun j => if j = 0 then l.map Prod.snd else []⟩ := by
  have hmap : (fun j : ℕ => (if j = 0 then l else []).map Prod.snd) =
      fun j => if j = 0 then l.map Prod.snd else [] := by
    funext j
    by_cases hj : j = 0
    · rw [if_pos hj, if_pos hj]
    · rw [if_neg hj, if_neg hj, List.map_nil]
  simp only [LinkedContainer.toContainer, single, hmap]

/-- A link into the first bucket. -/
theorem single_link (hn : 0 < n.toNat) {elements version : ℤ} {l : List (ℕ × BucketList ℕ)}
    {p : ℕ} (a : ℕ) (hp : ∀ r ∈ l, r.1 ≠ p) :
    ContainerStep hashZero (single n elements version l) (.link p a)
      (single n (fetchAdd elements 1) (fetchAdd version 1) (l ++ [(p, ⟨version, a⟩)])) := by
  refine ⟨fun j r hr => ?_, ⟨objects5, Function.update objects5 a (some ⟨6, ()⟩), ?_⟩,
    0, ⟨version, a⟩, ?_⟩
  · by_cases hj : j = 0
    · exact hp r (by simpa [single, hj] using hr)
    · simp [single, hj] at hr
  · rw [single_toContainer, single_toContainer, List.map_append]
    have hne : n.toInt ≠ 0 := by
      have := (toNat_of_toInt n).2
      intro h0
      have hz := (toNat_of_toInt n).1 (by omega)
      omega
    have hlink : linkIndex n.toInt (hashZero ()) = some 0 := by
      have habs : cAbs (hashZero ()).toInt = 0 := by decide
      rw [linkIndex, habs, cRem_of_nonneg le_rfl hne, Int.zero_emod]
    have hadd : fetchAdd 5 1 = 6 := by decide
    simp [ao2Link, objects5, hlink, Ao2Container.Inside, ao2Ref, hadd, update_single, hn]
  · exact (update_single l _).symm

/-- `OBJ_UNLINK | OBJ_NODATA | OBJ_POINTER` -/
def unlinkFlags : SearchFlags := ⟨true, true, false, true, false⟩

/-- The first record is taken out. -/
theorem single_unlink (elements version : ℤ) (l : List (ℕ × BucketList ℕ)) (p a : ℕ) (v : ℤ) :
    ContainerStep hashZero (single 1 elements version ((p, ⟨v, a⟩) :: l)) (.callback 1)
      (single 1 (fetchAdd elements (-1)) (fetchAdd version 1) l) := by
  refine ⟨⟨Unit, 3, objects5, Function.update objects5 a (some ⟨4, ()⟩),
    unlinkFlags, 0, ao2MatchByAddr a, (), (), none, ?_⟩, fun j => ?_, ?_⟩
  · have hone : (1 : BitVec 32).toInt = 1 := by decide
    have hone' : (1 : BitVec 32).toNat = 1 := by decide
    rw [single_toContainer, single_toContainer, hone, hone']
    have hrange : searchRange 1 unlinkFlags 0 = some (0, 0, 1) := by decide
    have hsub : fetchAdd 5 (-1) = 4 := by decide
    have hmatch : matchRecord unlinkFlags ⟨objects5, elements, version, (), none⟩ ⟨v, a⟩ =
        some ⟨Function.update objects5 a (some ⟨4, ()⟩), fetchAdd elements (-1),
          fetchAdd version 1, (), none⟩ := by
      simp [matchRecord, returnObject, unlinkObject, unlinkFlags, ao2Ref, objects5, hsub]
    have htrav : traverse unlinkFlags (ao2MatchByAddr a) (⟨v, a⟩ :: l.map Prod.snd)
        ⟨objects5, elements, version, (), none⟩ =
        some (l.map Prod.snd, ⟨Function.update objects5 a (some ⟨4, ()⟩),
          fetchAdd elements (-1), fetchAdd version 1, (), none⟩, true) := by
      have hm : (cmpMatch ||| cmpStop) &&& (cmpMatch ||| cmpStop) ≠ 0 := by decide
      have hm' : (cmpMatch ||| cmpStop) &&& (cmpMatch ||| cmpStop) ≠ cmpStop := by decide
      have hread : objects5 a = some ⟨5, ()⟩ := rfl
      rw [traverse]
      simp only [hread, Option.bind_eq_bind, Option.bind_some, ao2MatchByAddr, if_true, if_neg hm,
        if_neg hm', hmatch]
      rw [if_pos (.inr rfl)]
      rfl
    have hw : wrapInt 2 = 2 := by decide
    rw [ao2Callback, if_neg (by decide)]
    simp only [hrange, Option.bind_eq_bind, Option.bind_some, bucketLoop, List.map_cons,
      Int.toNat_zero, if_true, htrav]
    simp [update_single, hw, unlinkFlags]
  · by_cases hj : j = 0
    · simp [single, hj]
    · simp [single, hj]
  · rw [LinkedContainer.links, LinkedContainer.links, single_toContainer, single_toContainer]
    simp [single, total, objects]

end Ao2

end Trismedia
