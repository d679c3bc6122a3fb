import Mathlib.Data.Multiset.Filter
import Trismedia.Hashtab.Model
/-!
# What a hash table holds

`TableOver hash tab L` is the shape every operation keeps: `L` lists the
allocated buckets in the order of `tlist`, and the chain of each slot
lists those of them whose object hashes there. `Holds hash tab s` forgets
the addresses: the table holds the collection `s`. Each operation has one
specification in terms of `Holds`, which callers use instead of its body.
-/


namespace Trismedia

namespace Hashtab

open Dll

variable {α : Type} {compare : α → α → ℤ} {hash : α → ℕ} {tab tab' : TrisHashtab α}
variable {a b : Addr} {D D' L : List Addr} {o : α} {s : Multiset α}

/-! ## Growing reaches a prime -/

theorem isPrimeLoop_of_prime {num : ℕ} (hp : num.Prime) :
    ∀ tnum limit, 3 ≤ tnum → limit ≤ num → isPrimeLoop num tnum limit = true := by
  intro tnum limit
  induction tnum, limit using isPrimeLoop.induct num with
  | case1 tnum limit hlt hdvd =>
    intro h3 hle
    have hself := (Nat.dvd_prime hp).1 (Nat.dvd_of_mod_eq_zero hdvd)
    omega
  | case2 tnum limit hlt hndvd ih =>
    intro h3 hle
    rw [isPrimeLoop, if_pos hlt, if_neg hndvd]
    exact ih (by omega) (Nat.div_le_self _ _)
  | case3 tnum limit hge =>
    intro h3 hle
    rw [isPrimeLoop, if_neg hge]

theorem trisIsPrime_of_prime {p : ℕ} (hp : p.Prime) (h2 : 2 < p) : trisIsPrime p = true := by
  have hodd := hp.eq_two_or_odd
  rw [trisIsPrime, if_neg (by omega), Int.toNat_natCast]
  exact isPrimeLoop_of_prime hp 3 p le_rfl le_rfl

theorem le_nextPrimeLoop (n : ℕ) (i : ℤ) : i ≤ nextPrimeLoop n i := by
  induction n generalizing i with
  | zero => exact le_rfl
  | succ n ih =>
    have hrec := ih (i + 1)
    unfold nextPrimeLoop
    split <;> omega

theorem le_nextPrime (i : ℤ) : i ≤ nextPrime i := le_nextPrimeLoop _ i

theorem nextPrimeLoop_prime {p : ℤ} (hp : trisIsPrime p = true) :
    ∀ (n : ℕ) (i : ℤ), i ≤ p → p - i < n → trisIsPrime (nextPrimeLoop n i) = true := by
  intro n
  induction n with
  | zero =>
    intro i hle hlt
    omega
  | succ n ih =>
    intro i hle hlt
    unfold nextPrimeLoop
    split
    · assumption
    · rename_i hi
      have hne : i ≠ p := fun he => hi (he ▸ hp)
      exact ih (i + 1) (by omega) (by omega)

/-- **The search for the next size ends at a prime.** A negative number
is odd within two steps, and between a positive number and its double
there is a prime. -/
theorem trisIsPrime_nextPrime (i : ℤ) : trisIsPrime (nextPrime i) = true := by
  rcases lt_or_ge i 2 with hi | hi
  · rcases Int.emod_two_eq_zero_or_one i with he | ho
    · have hodd : trisIsPrime (i + 1) = true := by
        rw [trisIsPrime, if_neg (by omega), isPrimeLoop, if_neg (by omega)]
      exact nextPrimeLoop_prime hodd _ i (by omega) (by omega)
    · have hodd : trisIsPrime i = true := by
        rw [trisIsPrime, if_neg (by omega), isPrimeLoop, if_neg (by omega)]
      exact nextPrimeLoop_prime hodd _ i le_rfl (by omega)
  · obtain ⟨p, hp, hlt, hle⟩ := Nat.exists_prime_lt_and_le_two_mul i.toNat (by omega)
    exact nextPrimeLoop_prime (trisIsPrime_of_prime hp (by omega)) _ i (by omega) (by omega)

theorem callNewsize_pos (h : 0 < tab.hashTabSize) : 0 < callNewsize tab := by
  have h2 := le_nextPrime (tab.hashTabSize * 2 : ℕ)
  have h3 := le_nextPrime (tab.hashTabSize + tab.hashTabSize * 2 : ℕ)
  unfold callNewsize trisHashtabNewsizeJava trisHashtabNewsizeTight
  split <;> omega

/-! ## The shape -/

/-- The slot of the object in bucket `a`. -/
def bucketSlot (hash : α → ℕ) (tab : TrisHashtab α) (a : Addr) : ℕ :=
  (tab.object a).elim 0 (slotOf hash tab)

/-- Each slot's chain lists the buckets of `D` whose object hashes there. -/
def ChainsOver (hash : α → ℕ) (tab : TrisHashtab α) (D : List Addr) : Prop :=
  ∀ h < tab.hashTabSize, ∃ l, IsDll tab.next tab.prev none (tab.array h) l ∧
    ∀ a, a ∈ l ↔ a ∈ D ∧ bucketSlot hash tab a = h

/-- **A table over the buckets `L`**, newest first. -/
structure TableOver (hash : α → ℕ) (tab : TrisHashtab α) (L : List Addr) : Prop where
  size_pos : 0 < tab.hashTabSize
  tlist : IsDll tab.tnext tab.tprev none tab.tlist L
  chains : ChainsOver hash tab L
  live : ∀ a, a ∈ L ↔ ∃ o, tab.object a = some o
  elements : tab.hashTabElements = L.length

/-- The objects of the buckets `L`. -/
def objects (tab : TrisHashtab α) (L : List Addr) : Multiset α := (L.filterMap tab.object : List α)

/-- **The table holds the collection `s`.** -/
def Holds (hash : α → ℕ) (tab : TrisHashtab α) (s : Multiset α) : Prop :=
  ∃ L, TableOver hash tab L ∧ objects tab L = s

theorem bucketSlot_lt (h : 0 < tab.hashTabSize) : bucketSlot hash tab a < tab.hashTabSize := by
  unfold bucketSlot
  cases tab.object a with
  | none => exact h
  | some o => exact Nat.mod_lt _ h

theorem bucketSlot_of_object (h : tab.object a = some o) :
    bucketSlot hash tab a = slotOf hash tab o := by
  rw [bucketSlot, h]
  rfl

/-- Chains are read through their own buckets. -/
theorem ChainsOver.congr (hc : ChainsOver hash tab D) (hsize : tab'.hashTabSize = tab.hashTabSize)
    (harr : tab'.array = tab.array)
    (hag : ∀ a ∈ D, tab'.next a = tab.next a ∧ tab'.prev a = tab.prev a ∧
      tab'.object a = tab.object a) : ChainsOver hash tab' D := by
  intro h hh
  obtain ⟨l, hl, hmem⟩ := hc h (hsize ▸ hh)
  refine ⟨l, ?_, fun a => ?_⟩
  · rw [harr]
    exact hl.congr fun a ha => ⟨(hag a ((hmem a).1 ha).1).1, (hag a ((hmem a).1 ha).1).2.1⟩
  · rw [hmem a]
    refine and_congr_right fun ha => ?_
    rw [bucketSlot, bucketSlot, (hag a ha).2.2]
    unfold slotOf
    rw [hsize]

theorem ChainsOver.of_mem_iff (hc : ChainsOver hash tab D) (hD : ∀ a, a ∈ D ↔ a ∈ D') :
    ChainsOver hash tab D' := by
  intro h hh
  obtain ⟨l, hl, hmem⟩ := hc h hh
  refine ⟨l, hl, fun a => ?_⟩
  rw [hmem a, hD a]

/-- A chain is no longer than the list of all buckets. -/
theorem ChainsOver.length_le (hc : ChainsOver hash tab D) {h : ℕ} (hh : h < tab.hashTabSize) :
    ∃ l, IsDll tab.next tab.prev none (tab.array h) l ∧ l.length ≤ D.length ∧
      ∀ a, a ∈ l ↔ a ∈ D ∧ bucketSlot hash tab a = h := by
  obtain ⟨l, hl, hmem⟩ := hc h hh
  exact ⟨l, hl, (hl.nodup.subperm fun a ha => ((hmem a).1 ha).1).length_le, hmem⟩

/-- **A bucket put in front of its chain.** -/
theorem ChainsOver.linkBucket (hc : ChainsOver hash tab D) (ha : a ∉ D)
    (hprev : tab.prev a = none) {h : ℕ} (hh : bucketSlot hash tab a = h)
    (hlt : h < tab.hashTabSize) : ChainsOver hash (linkBucket tab a h) (a :: D) := by
  intro k hk
  obtain ⟨l, hl, hmem⟩ := hc k hk
  have hal : a ∉ l := fun hal => ha ((hmem a).1 hal).1
  rcases eq_or_ne k h with rfl | hkh
  · refine ⟨a :: l, ?_, fun c => ?_⟩
    · have hpush := hl.pushFront hal
      rw [← hprev, Function.update_eq_self, hprev] at hpush
      simpa only [Hashtab.linkBucket, Function.update_self] using hpush
    · rw [List.mem_cons, List.mem_cons, hmem c]
      constructor
      · rintro (rfl | ⟨hcD, hck⟩)
        · exact ⟨.inl rfl, hh⟩
        · exact ⟨.inr hcD, hck⟩
      · rintro ⟨rfl | hcD, hck⟩
        · exact .inl rfl
        · exact .inr ⟨hcD, hck⟩
  · refine ⟨l, ?_, fun c => ?_⟩
    · change IsDll (Function.update tab.next a _) (setAt tab.prev (tab.array h) (some a)) none
        (Function.update tab.array h (some a) k) l
      rw [Function.update_of_ne hkh]
      refine hl.congr fun c hcl => ⟨?_, setAt_of_ne fun hhead => ?_⟩
      · exact Function.update_of_ne (fun hca : c = a => hal (hca ▸ hcl)) _ _
      · -- the head of chain `h` is not in chain `k`
        obtain ⟨l', hl', hmem'⟩ := hc h hlt
        rw [hhead] at hl'
        exact hkh (((hmem c).1 hcl).2.symm.trans ((hmem' c).1 hl'.head_mem).2)
    · rw [List.mem_cons, hmem c]
      constructor
      · rintro ⟨hcD, hck⟩
        exact ⟨.inr hcD, hck⟩
      · rintro ⟨rfl | hcD, hck⟩
        · exact absurd (hck.symm.trans hh) hkh
        · exact ⟨hcD, hck⟩

/-- The chains and the array are rebuilt, the rest stays. -/
structure SameButChains (tab tab' : TrisHashtab α) : Prop where
  tlist : tab'.tlist = tab.tlist
  tnext : tab'.tnext = tab.tnext
  tprev : tab'.tprev = tab.tprev
  object : tab'.object = tab.object
  size : tab'.hashTabSize = tab.hashTabSize
  elements : tab'.hashTabElements = tab.hashTabElements

/-- **Rehashing.** The loop moves the buckets still to visit into the
chains of those already visited. -/
theorem rehashLoop_spec {todo : List Addr} {pr p : Option Addr} {n : ℕ}
    (hc : ChainsOver hash tab D) (hpos : 0 < tab.hashTabSize)
    (hl : IsDll tab.tnext tab.tprev pr p todo) (hn : todo.length ≤ n)
    (hdisj : ∀ a ∈ todo, a ∉ D) :
    ∃ tab', rehashLoop hash n p tab = some tab' ∧ ChainsOver hash tab' (todo.reverse ++ D) ∧
      SameButChains tab tab' := by
  induction todo generalizing tab pr p n D with
  | nil =>
    obtain rfl : p = none := hl
    exact ⟨tab, by cases n <;> rfl, hc, ⟨rfl, rfl, rfl, rfl, rfl, rfl⟩⟩
  | cons b todo ih =>
    have hnd := hl.nodup
    obtain ⟨rfl, -, hl⟩ := hl
    cases n with
    | zero => cases hn
    | succ n =>
      have hbD : b ∉ D := hdisj b List.mem_cons_self
      have hc' : ChainsOver hash { tab with prev := Function.update tab.prev b none } D :=
        hc.congr rfl rfl fun a ha =>
          ⟨rfl, Function.update_of_ne (fun hab : a = b => hbD (hab ▸ ha)) _ _, rfl⟩
      have hlink := hc'.linkBucket hbD (Function.update_self ..) rfl (bucketSlot_lt hpos)
      obtain ⟨tab', heq, hch, hsame⟩ := ih hlink hpos hl (Nat.le_of_succ_le_succ hn) fun a ha => by
          rw [List.mem_cons, not_or]
          exact ⟨fun hab => (List.nodup_cons.1 hnd).1 (hab ▸ ha),
            hdisj a (List.mem_cons_of_mem _ ha)⟩
      refine ⟨tab', heq, ?_, hsame.tlist, hsame.tnext, hsame.tprev, hsame.object, hsame.size,
        hsame.elements⟩
      rw [List.reverse_cons, List.append_assoc]
      exact hch

theorem largestLoop_isSome (hc : ChainsOver hash tab D) (hel : tab.hashTabElements = D.length) :
    ∀ n i largest, i + n ≤ tab.hashTabSize → ∃ m, largestLoop tab i largest n = some m := by
  intro n
  induction n with
  | zero => exact fun i largest _ => ⟨largest, rfl⟩
  | succ n ih =>
    intro i largest hi
    obtain ⟨l, hl, hlen, -⟩ := hc.length_le (h := i) (by omega)
    rw [largestLoop, hl.countLinks_eq (hel ▸ hlen)]
    exact ih (i + 1) _ (by omega)

/-- **A resize keeps the table**: the same buckets in the same `tlist`,
in the chains of the new size. -/
theorem trisHashtabResize_spec (ht : TableOver hash tab L) :
    ∃ tab', trisHashtabResize hash tab = some tab' ∧ TableOver hash tab' L ∧
      tab'.object = tab.object := by
  have hpos := callNewsize_pos ht.size_pos
  have hempty : ChainsOver hash { tab with
      array := fun _ => none
      resizeCount := tab.resizeCount + 1
      hashTabSize := callNewsize tab
      largestBucketSize := 0 } [] :=
    fun h _ => ⟨[], rfl, by simp⟩
  obtain ⟨tab', heq, hch, hsame⟩ :=
    rehashLoop_spec hempty hpos ht.tlist ht.elements.ge fun a _ => List.not_mem_nil
  have hch' : ChainsOver hash tab' L := hch.of_mem_iff (by simp)
  have hel : tab'.hashTabElements = L.length := hsame.elements.trans ht.elements
  obtain ⟨m, hm⟩ := largestLoop_isSome hch' hel tab'.hashTabSize 0 tab'.largestBucketSize (by omega)
  refine ⟨{ tab' with largestBucketSize := m }, ?_, ⟨?_, ?_, ?_, ?_, hel⟩, hsame.object⟩
  · rw [trisHashtabResize]
    simp only [heq, hm, Option.bind_eq_bind, Option.bind_some]
  · exact hsame.size ▸ hpos
  · change IsDll tab'.tnext tab'.tprev none tab'.tlist L
    rw [hsame.tnext, hsame.tprev, hsame.tlist]
    exact ht.tlist
  · exact hch'.congr rfl rfl fun _ _ => ⟨rfl, rfl, rfl⟩
  · intro a
    rw [ht.live a]
    exact exists_congr fun o => by rw [← hsame.object]

theorem resizeIfAsked_spec (ht : TableOver hash tab L) :
    ∃ tab', resizeIfAsked hash tab = some tab' ∧ TableOver hash tab' L ∧
      tab'.object = tab.object := by
  unfold resizeIfAsked
  split
  · exact trisHashtabResize_spec ht
  · exact ⟨tab, rfl, ht, rfl⟩

end Hashtab

end Trismedia
