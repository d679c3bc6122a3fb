import Trismedia.Ao2.Container
import Trismedia.Common.Trace
/-!
# Iterating over a container

`ao2_iterator_init` and `__ao2_iterator_next` of `main/astobj2.c`. The
iterator remembers a bucket, the version of the last record it returned,
a pointer to that record and the version the container had. Where the
container has not changed it follows the pointer, else it scans the bucket
for a later version.

The pointer makes the addresses of the records matter, so a bucket is here
the list of its records with the address each was allocated at; an address
may be used again after it was freed. The reference to the object that is
returned is taken by the caller and left out.
-/


namespace Trismedia

namespace Ao2

open CInt

variable {α κ γ : Type}

/-- `struct ao2_container`, with the addresses of the records. -/
structure LinkedContainer (α : Type) where
  nBuckets : ℤ
  elements : ℤ
  version : ℤ
  size : ℕ
  buckets : ℕ → List (ℕ × BucketList α)

/-- The container without the addresses. -/
def LinkedContainer.toContainer (c : LinkedContainer α) : Ao2Container α where
  nBuckets := c.nBuckets
  elements := c.elements
  version := c.version
  size := c.size
  buckets i := (c.buckets i).map Prod.snd

/-- `struct ao2_iterator` -/
structure Ao2Iterator where
  bucket : ℤ
  version : ℤ
  obj : Option ℕ
  cVersion : ℤ
  deriving DecidableEq, Repr

/-- `ao2_iterator_init` -/
def ao2IteratorInit : Ao2Iterator := ⟨0, 0, none, 0⟩

/-- What stands after the record at `p`, if it is in the list. -/
def nextIn (p : ℕ) : List (ℕ × BucketList α) → Option (Option (ℕ × BucketList α))
  | [] => none
  | r :: rest => if r.1 = p then some rest.head? else nextIn p rest

/-- `TRIS_LIST_NEXT(p, entry)`: `none` where no record is at `p`. -/
def listNext (c : LinkedContainer α) (p : ℕ) : Option (Option (ℕ × BucketList α)) :=
  (List.range c.size).findSome? fun j => nextIn p (c.buckets j)

/-- The loop over the buckets. `none` is an index outside the array. -/
def iteratorScan (c : LinkedContainer α) (a : Ao2Iterator) :
    Option (Option (ℕ × BucketList α) × Ao2Iterator) :=
  if a.bucket < c.nBuckets then
    if 0 ≤ a.bucket ∧ a.bucket < c.size then
      match (c.buckets a.bucket.toNat).find? fun r => a.version < r.2.version with
      | some r => some (some r, a)
      | none => iteratorScan c { a with bucket := a.bucket + 1, version := 0 }
    else
      none
  else
    some (none, a)
termination_by (c.nBuckets - a.bucket).toNat

/-- The label `found`. -/
def iteratorFound (c : LinkedContainer α) (q : Option (ℕ × BucketList α)) (a : Ao2Iterator) :
    Option (ℕ × BucketList α) × Ao2Iterator :=
  match q with
  | some r => (q, { a with version := r.2.version, obj := some r.1, cVersion := c.version })
  | none => (q, a)

/-- **`__ao2_iterator_next`**, the record it returns. `none` is a pointer
followed to what was freed. -/
def ao2IteratorNext (c : LinkedContainer α) (a : Ao2Iterator) :
    Option (Option (ℕ × BucketList α) × Ao2Iterator) :=
  match if c.version = a.cVersion then a.obj else none with
  | some p => do
    let q ← listNext c p
    match q with
    | some _ => return iteratorFound c q a
    | none => do
      -- nope, start from the next bucket
      let (q, a) ← iteratorScan c { a with bucket := a.bucket + 1, version := 0, obj := none }
      return iteratorFound c q a
  | none => do
    let (q, a) ← iteratorScan c a
    return iteratorFound c q a

/-! ## What happens to the container meanwhile -/

/-- The number of records. -/
def LinkedContainer.links (c : LinkedContainer α) : ℕ := (total c.size c.toContainer.buckets).card

/-- A call on the container: a link, whose record is allocated at `p`, or
a search that takes `k` records out. -/
inductive ContainerOp (α : Type)
  | link (p : ℕ) (userData : α)
  | callback (k : ℕ)

/-- How often the version of the container moves. -/
def ContainerOp.moves : ContainerOp α → ℕ
  | link _ _ => 1
  | callback k => k

variable [DecidableEq α]

/-- **A call on the container**, in some state of the objects. The records
that stay keep their addresses, and a new one is where nothing is. -/
def ContainerStep (hashFn : κ → BitVec 32) (c : LinkedContainer α) :
    ContainerOp α → LinkedContainer α → Prop
  | .link p userData, c' =>
    (∀ j, ∀ r ∈ c.buckets j, r.1 ≠ p) ∧
      (∃ mem mem', ao2Link hashFn mem c.toContainer userData = some (mem', c'.toContainer)) ∧
      ∃ i r, c'.buckets = Function.update c.buckets i (c.buckets i ++ [(p, r)])
  | .callback k, c' =>
    (∃ (γ : Type) (fuel : ℕ) (mem mem' : Memory α κ) (flags : SearchFlags) (hash : BitVec 32)
      (cb : Callback α κ γ) (arg arg' : γ) (ret : Option α),
      ao2Callback fuel mem c.toContainer flags hash cb arg =
        some (mem', c'.toContainer, arg', ret)) ∧
      (∀ j, (c'.buckets j).Sublist (c.buckets j)) ∧ c.links = c'.links + k

/-! ## The version of the container -/

/-- One step of the version. -/
def bump (v : ℤ) : ℤ := fetchAdd v 1

theorem bump_wrapInt (v : ℤ) : bump (wrapInt v) = wrapInt (v + 1) := by
  unfold bump fetchAdd wrapInt
  omega

theorem bump_iterate (v : ℤ) (k : ℕ) : bump^[k] (wrapInt v) = wrapInt (v + k) := by
  induction k with
  | zero => simp
  | succ k ih => rw [Function.iterate_succ_apply', ih, bump_wrapInt, Nat.cast_succ, add_assoc]

variable {flags : SearchFlags} {cb : Callback α κ γ} {s s' : Search α κ γ}

theorem returnObject_version {cur : BucketList α} (h : returnObject flags s cur = some s') :
    s'.version = s.version := by
  unfold returnObject at h
  split at h
  · rw [← Option.some.inj h]
  · rw [Option.bind_eq_bind, Option.bind_eq_some_iff] at h
    obtain ⟨r, -, h⟩ := h
    rw [← Option.some.inj h]

theorem unlinkObject_version {cur : BucketList α} (h : unlinkObject flags s cur = some s') :
    s'.version = if flags.objUnlink then bump s.version else s.version := by
  unfold unlinkObject at h
  by_cases hu : flags.objUnlink = true
  · rw [if_pos hu, Option.bind_eq_bind, Option.bind_eq_some_iff] at h
    obtain ⟨r, -, h⟩ := h
    rw [← Option.some.inj h, if_pos hu]
    rfl
  · rw [if_neg hu] at h
    rw [← Option.some.inj h, if_neg hu]

theorem matchRecord_version {cur : BucketList α} (h : matchRecord flags s cur = some s') :
    s'.version = if flags.objUnlink then bump s.version else s.version := by
  unfold matchRecord at h
  rw [Option.bind_eq_bind, Option.bind_eq_some_iff] at h
  obtain ⟨t, ht, h⟩ := h
  rw [unlinkObject_version h, returnObject_version ht]

/-- **A traversal moves the version once for each record it takes out.** -/
theorem traverse_version {entries kept : List (BucketList α)} {stop : Bool}
    (h : traverse flags cb entries s = some (kept, s', stop)) :
    kept.Sublist entries ∧
      ∃ k, entries.length = kept.length + k ∧ s'.version = bump^[k] s.version := by
  induction entries generalizing s kept stop with
  | nil =>
    simp only [traverse, Option.some.injEq, Prod.mk.injEq] at h
    obtain ⟨rfl, rfl, -⟩ := h
    exact ⟨.refl _, 0, rfl, rfl⟩
  | cons cur rest ih =>
    simp only [traverse, Option.bind_eq_bind, Option.bind_eq_some_iff] at h
    obtain ⟨obj, -, h⟩ := h
    split at h
    · rw [Option.bind_eq_some_iff] at h
      obtain ⟨⟨kept', t, stop'⟩, hrec, h⟩ := h
      simp only [Option.some.injEq, Prod.mk.injEq] at h
      obtain ⟨rfl, rfl, -⟩ := h
      obtain ⟨hsub, k, hlen, hver⟩ := ih hrec
      exact ⟨hsub.cons_cons _, k, by simp [hlen]; omega, hver⟩
    · split at h
      · simp only [Option.some.injEq, Prod.mk.injEq] at h
        obtain ⟨rfl, rfl, -⟩ := h
        exact ⟨.refl _, 0, rfl, rfl⟩
      · rw [Option.bind_eq_some_iff] at h
        obtain ⟨t, ht, h⟩ := h
        have hmatch := matchRecord_version ht
        split at h
        · simp only [Option.some.injEq, Prod.mk.injEq] at h
          obtain ⟨rfl, rfl, -⟩ := h
          by_cases hu : flags.objUnlink = true
          · rw [if_pos hu] at hmatch ⊢
            exact ⟨List.sublist_cons_self _ _, 1, rfl, hmatch⟩
          · rw [if_neg hu] at hmatch ⊢
            exact ⟨.refl _, 0, rfl, hmatch⟩
        · rw [Option.bind_eq_some_iff] at h
          obtain ⟨⟨kept', t', stop'⟩, hrec, h⟩ := h
          simp only [Option.some.injEq, Prod.mk.injEq] at h
          obtain ⟨rfl, rfl, -⟩ := h
          obtain ⟨hsub, k, hlen, hver⟩ := ih hrec
          rw [hmatch] at hver
          by_cases hu : flags.objUnlink = true
          · rw [if_pos hu] at hver ⊢
            exact ⟨hsub.cons _, k + 1, by simp [hlen]; omega, hver⟩
          · rw [if_neg hu] at hver ⊢
            exact ⟨hsub.cons_cons _, k, by simp [hlen]; omega, hver⟩

omit [DecidableEq α] in
theorem card_objects (l : List (BucketList α)) : (objects l).card = l.length := by
  simp [objects]

/-- The loop over the buckets does the same. -/
theorem bucketLoop_version {nb start : ℤ} {size fuel : ℕ} {i last : ℤ}
    {buckets buckets' : ℕ → List (BucketList α)}
    (h : bucketLoop flags cb nb size start fuel i last buckets s = some (buckets', s')) :
    (∀ j, (buckets' j).Sublist (buckets j)) ∧
      ∃ k, (total size buckets).card = (total size buckets').card + k ∧
        s'.version = bump^[k] s.version := by
  induction fuel generalizing i last buckets s with
  | zero => simp [bucketLoop] at h
  | succ fuel ih =>
    rw [bucketLoop] at h
    by_cases hi : i < last
    · rw [if_pos hi] at h
      by_cases hin : 0 ≤ i ∧ i < size
      · rw [if_pos hin, Option.bind_eq_bind, Option.bind_eq_some_iff] at h
        obtain ⟨⟨kept, t, stop⟩, htrav, h⟩ := h
        obtain ⟨hsub, k, hlen, hver⟩ := traverse_version htrav
        have hlt : i.toNat < size := by omega
        have hcard := congrArg Multiset.card (total_update buckets hlt kept)
        rw [Multiset.card_add, Multiset.card_add, card_objects, card_objects] at hcard
        have hupd : ∀ j, (Function.update buckets i.toNat kept j).Sublist (buckets j) := by
          intro j
          by_cases hj : j = i.toNat
          · rw [hj, Function.update_self]
            exact hsub
          · rw [Function.update_of_ne hj]
        have hstep : ∀ {r : (ℕ → List (BucketList α)) × Search α κ γ},
            ((∀ j, (r.1 j).Sublist (Function.update buckets i.toNat kept j)) ∧
              ∃ k', (total size (Function.update buckets i.toNat kept)).card =
                (total size r.1).card + k' ∧ r.2.version = bump^[k'] t.version) →
            (∀ j, (r.1 j).Sublist (buckets j)) ∧
              ∃ k, (total size buckets).card = (total size r.1).card + k ∧
                r.2.version = bump^[k] s.version := by
          rintro r ⟨hs, k', hk', hv'⟩
          refine ⟨fun j => (hs j).trans (hupd j), k' + k, by omega, ?_⟩
          rw [hv', hver, ← Function.iterate_add_apply]
        simp only at h
        generalize (if stop = true then last else i) = next at h
        by_cases hret : t.ret.isSome = true
        · rw [if_pos hret] at h
          obtain ⟨rfl, rfl⟩ := Prod.mk.inj (Option.some.inj h)
          exact hstep (r := (_, _)) ⟨fun _ => .refl _, 0, rfl, rfl⟩
        · rw [if_neg hret] at h
          split at h
          · exact hstep (r := (_, _)) (ih h)
          · exact hstep (r := (_, _)) (ih h)
      · rw [if_neg hin] at h
        cases h
    · rw [if_neg hi] at h
      obtain ⟨rfl, rfl⟩ := Prod.mk.inj (Option.some.inj h)
      exact ⟨fun _ => .refl _, 0, rfl, rfl⟩

end Ao2

end Trismedia
