import Trismedia.Translate.Model
/-!
# The matrix is least

The endless loop of `rebuild_matrix` ends, since each change makes the
`potential` smaller, and it leaves the matrix stable. Then each entry is the
least cost of a chain, and following the steps one by one gives a chain of
that cost (`rebuildMatrix_least`). The sums that the loop forms must fit in
an `unsigned int` (`NoOverflow`).
-/


namespace Trismedia

namespace Translate

open Finset

variable {ts : List Translator} {m m' : Matrix} {x y z : Format}

/-! ## One relaxation -/

/-- The three formats are distinct, and a path through `y` is known. -/
structure Known (m : Matrix) (x y z : Format) : Prop where
  xy : x ≠ y
  zx : z ≠ x
  zy : z ≠ y
  fst : (m x y).step.isSome
  snd : (m y z).step.isSome

/-- The sum that is formed fits in an `unsigned int`. -/
def Exact (m : Matrix) (v : Format × Format × Format) : Prop :=
  Known m v.1 v.2.1 v.2.2 → (m v.1 v.2.1).cost + (m v.2.1 v.2.2).cost < 4294967296

/-- The path through `y` is no cheaper than what is known. -/
def Settled (m : Matrix) (x y z : Format) : Prop :=
  Known m x y z → (m x z).step.isSome ∧ (m x z).cost ≤ (m x y).cost + (m y z).cost

/-- **What one relaxation does**: nothing, where the triple is settled or the
sum has overflowed, or it takes the path through `y`. -/
theorem relax_cases (m : Matrix) (k : ℕ) (x y z : Format) :
    (relax (m, k) (x, y, z) = (m, k) ∧ (Exact m (x, y, z) → Settled m x y z)) ∨
    ∃ t e, relax (m, k) (x, y, z) = (setEntry m x z e, k + 1) ∧ Known m x y z ∧
      (m x y).step = some t ∧ e.step = some t ∧
      e.cost = ((m x y).cost + (m y z).cost) % 4294967296 ∧
      ((m x z).step.isSome → e.cost < (m x z).cost) := by
  unfold relax
  dsimp only
  by_cases hxy : x = y
  · rw [if_pos hxy]
    exact .inl ⟨rfl, fun _ hk => absurd hxy hk.xy⟩
  rw [if_neg hxy]
  by_cases hz : z = x ∨ z = y
  · rw [if_pos hz]
    refine .inl ⟨rfl, fun _ hk => ?_⟩
    rcases hz with hz | hz
    · exact absurd hz hk.zx
    · exact absurd hz hk.zy
  rw [if_neg hz]
  have hunknown : ∀ {a b : Option Translator}, (m x y).step = a → (m y z).step = b →
      (a = none ∨ b = none) → Settled m x y z := by
    rintro a b ha hb (rfl | rfl) hk
    · have hfst := hk.fst
      rw [ha] at hfst
      exact absurd hfst Bool.false_ne_true
    · have hsnd := hk.snd
      rw [hb] at hsnd
      exact absurd hsnd Bool.false_ne_true
  cases hfst : (m x y).step with
  | none => exact .inl ⟨rfl, fun _ => hunknown hfst rfl (.inl rfl)⟩
  | some t =>
    cases hsnd : (m y z).step with
    | none => exact .inl ⟨rfl, fun _ => hunknown rfl hsnd (.inr rfl)⟩
    | some u =>
      have hknown : Known m x y z := by
        refine ⟨hxy, fun h => hz (.inl h), fun h => hz (.inr h), ?_, ?_⟩
        · rw [hfst]
          rfl
        · rw [hsnd]
          rfl
      dsimp only
      by_cases hold : (m x z).step.isSome ∧
          ((m x y).cost + (m y z).cost) % 4294967296 ≥ (m x z).cost
      · rw [if_pos hold]
        refine .inl ⟨rfl, fun hexact hk => ⟨hold.1, ?_⟩⟩
        have hlt := hexact hk
        have hge := hold.2
        dsimp only at hlt
        rw [Nat.mod_eq_of_lt hlt] at hge
        exact hge
      · rw [if_neg hold]
        refine .inr ⟨t, _, rfl, hknown, rfl, rfl, rfl, fun hsome => ?_⟩
        by_contra hge
        exact hold ⟨hsome, by dsimp only at hge; omega⟩

/-! ## Termination -/

/-- What an entry weighs: its cost, or more than any cost. -/
def weight (e : TranslatorPath) : ℕ := if e.step.isSome then e.cost else 4294967296

/-- What becomes smaller with each change. -/
def potential (m : Matrix) : ℕ := ∑ x, ∑ z, weight (m x z)

theorem potential_setEntry {e : TranslatorPath} (h : weight e < weight (m x z)) :
    potential (setEntry m x z e) < potential m := by
  have hle : ∀ x' z', weight (setEntry m x z e x' z') ≤ weight (m x' z') := by
    intro x' z'
    by_cases heq : x' = x ∧ z' = z
    · obtain ⟨rfl, rfl⟩ := heq
      rw [setEntry_self]
      exact Nat.le_of_lt h
    · rw [setEntry_of_ne heq]
  refine Finset.sum_lt_sum (fun x' _ => Finset.sum_le_sum fun z' _ => hle x' z')
    ⟨x, Finset.mem_univ x, Finset.sum_lt_sum (fun z' _ => hle x z') ⟨z, Finset.mem_univ z, ?_⟩⟩
  rwa [setEntry_self]

/-! ## A round -/

/-- The matrices and the triples that the three inner loops visit. -/
def foldVisits : List (Format × Format × Format) → Matrix × ℕ →
    List (Matrix × Format × Format × Format)
  | [], _ => []
  | v :: l, s => (s.1, v) :: foldVisits l (relax s v)

/-- Those of the first `n` rounds of the endless loop. -/
def visits : ℕ → Matrix → List (Matrix × Format × Format × Format)
  | 0, _ => []
  | n + 1, m => foldVisits triples (m, 0) ++ visits n (pass m).1

/-- **No sum that the loop forms overflows.** -/
def NoOverflow (m : Matrix) : Prop := ∀ n, ∀ v ∈ visits n m, Exact v.1 v.2

theorem NoOverflow.round (h : NoOverflow m) :
    (∀ v ∈ foldVisits triples (m, 0), Exact v.1 v.2) ∧ NoOverflow (pass m).1 := by
  constructor
  · exact fun v hv => h 1 v (List.mem_append_left _ hv)
  · exact fun n v hv => h (n + 1) v (List.mem_append_right _ hv)

/-- **The three inner loops**, over any triples. -/
theorem foldl_relax_spec {l : List (Format × Format × Format)} {k : ℕ} (hs : Sound ts m)
    (hexact : ∀ v ∈ foldVisits l (m, k), Exact v.1 v.2) :
    Sound ts (l.foldl relax (m, k)).1 ∧ Improves (l.foldl relax (m, k)).1 m ∧
      k ≤ (l.foldl relax (m, k)).2 ∧
      potential (l.foldl relax (m, k)).1 + (l.foldl relax (m, k)).2 ≤ potential m + k ∧
      ((l.foldl relax (m, k)).2 = k →
        (l.foldl relax (m, k)).1 = m ∧ ∀ v ∈ l, Settled m v.1 v.2.1 v.2.2) := by
  induction l generalizing m k with
  | nil =>
    exact ⟨hs, Improves.refl m, Nat.le_refl k, Nat.le_refl _, fun _ =>
      ⟨rfl, fun v hv => absurd hv List.not_mem_nil⟩⟩
  | cons v l ih =>
    obtain ⟨x, y, z⟩ := v
    have hv : Exact m (x, y, z) := hexact _ List.mem_cons_self
    have hl : ∀ v ∈ foldVisits l (relax (m, k) (x, y, z)), Exact v.1 v.2 :=
      fun v hv => hexact v (List.mem_cons_of_mem _ hv)
    rw [List.foldl_cons]
    rcases relax_cases m k x y z with ⟨hsame, hset⟩ | ⟨t, e, hnew, hk, ht, hstep, hcost, hlt⟩
    · rw [hsame] at hl ⊢
      obtain ⟨h1, h2, h3, h4, h5⟩ := ih hs hl
      refine ⟨h1, h2, h3, h4, fun heq => ⟨(h5 heq).1, fun v hv' => ?_⟩⟩
      rcases List.mem_cons.1 hv' with rfl | hv'
      · exact hset hv
      · exact (h5 heq).2 v hv'
    · have hsum := hv hk
      dsimp only at hsum
      rw [Nat.mod_eq_of_lt hsum] at hcost
      obtain ⟨u, hu⟩ := Option.isSome_iff_exists.1 hk.snd
      -- the chain to `y`, and the chain from there
      have hentry : EntryOk ts x z e := by
        intro t' ht'
        obtain rfl := Option.some.inj (hstep.symm.trans ht')
        obtain ⟨-, c, hc, hcc⟩ := hs x y t ht
        obtain ⟨-, c', hc', hcc'⟩ := hs y z u hu
        refine ⟨by omega, c ++ u :: c', hc.append hc', ?_⟩
        rw [← List.cons_append, chainCost_append, hcc, hcc', hcost]
        omega
      have hes : e.step.isSome := by
        rw [hstep]
        rfl
      have hweight : weight e < weight (m x z) := by
        unfold weight
        rw [if_pos hes]
        by_cases hsome : (m x z).step.isSome
        · rw [if_pos hsome]
          exact hlt hsome
        · rw [if_neg hsome]
          omega
      have hpot := potential_setEntry hweight
      have himp := improves_setEntry hes fun hsome => Nat.le_of_lt (hlt hsome)
      rw [hnew] at hl ⊢
      obtain ⟨h1, h2, h3, h4, h5⟩ := ih (hs.setEntry hentry) hl
      exact ⟨h1, h2.trans himp, by omega, by omega, fun heq => by omega⟩

theorem mem_triples (x y z : Format) : (x, y, z) ∈ triples := by
  refine List.mem_flatMap.2 ⟨x, List.mem_finRange x, ?_⟩
  refine List.mem_flatMap.2 ⟨y, List.mem_finRange y, ?_⟩
  exact List.mem_map.2 ⟨z, List.mem_finRange z, rfl⟩

theorem pass_eq (m : Matrix) : pass m = triples.foldl relax (m, 0) := rfl

/-- **One round of the endless loop.** -/
theorem pass_spec (hs : Sound ts m) (hexact : ∀ v ∈ foldVisits triples (m, 0), Exact v.1 v.2) :
    Sound ts (pass m).1 ∧ Improves (pass m).1 m ∧
      potential (pass m).1 + (pass m).2 ≤ potential m ∧
      ((pass m).2 = 0 → (pass m).1 = m ∧ ∀ x y z, Settled m x y z) := by
  obtain ⟨h1, h2, -, h4, h5⟩ := foldl_relax_spec hs hexact
  rw [← pass_eq] at h1 h2 h4 h5
  rw [Nat.add_zero] at h4
  refine ⟨h1, h2, h4, fun hzero => ?_⟩
  obtain ⟨hsame, hsettled⟩ := h5 hzero
  exact ⟨hsame, fun x y z => hsettled _ (mem_triples x y z)⟩

/-- **The endless loop ends**, and leaves nothing to relax. -/
theorem relaxLoop_spec (hs : Sound ts m) (hno : NoOverflow m) {fuel : ℕ}
    (hfuel : potential m < fuel) :
    ∃ m', relaxLoop fuel m = some m' ∧ Sound ts m' ∧ Improves m' m ∧
      ∀ x y z, Settled m' x y z := by
  induction fuel generalizing m with
  | zero => omega
  | succ fuel ih =>
    obtain ⟨hexact, hno'⟩ := hno.round
    obtain ⟨h1, h2, h4, h5⟩ := pass_spec hs hexact
    by_cases hzero : (pass m).2 = 0
    · obtain ⟨hsame, hsettled⟩ := h5 hzero
      refine ⟨(pass m).1, ?_, h1, h2, fun x y z => ?_⟩
      · simp only [relaxLoop, hzero, if_true]
      · rw [hsame]
        exact hsettled x y z
    · have hpot : potential (pass m).1 < fuel := by omega
      obtain ⟨m', hm', hs', hi', hset'⟩ := ih h1 hno' hpot
      refine ⟨m', ?_, hs', hi'.trans h2, hset'⟩
      simp only [relaxLoop, hzero, if_false]
      exact hm'

/-! ## Least costs -/

/-- **No chain is cheaper than its entry** in a settled matrix. -/
theorem le_chainCost (hc : CostsOk ts) (hd : Direct ts m) (hset : ∀ x y z, Settled m x y z)
    {c : List Translator} (h : Chain ts x c z) (hne : x ≠ z) :
    (m x z).step.isSome ∧ ((m x z).cost : ℤ) ≤ chainCost c := by
  induction c generalizing x with
  | nil => exact absurd h hne
  | cons t c ih =>
    obtain ⟨ht, ha, rfl, hrest⟩ := h
    have hnonneg := hc.chainCost_nonneg hrest
    have hpos := (hc t ht ha).1
    obtain ⟨hs, hle⟩ := hd t ht ha
    rw [chainCost_cons]
    by_cases hz : t.dstfmt = z
    · rw [hz] at hs hle
      exact ⟨hs, by omega⟩
    · obtain ⟨hs', hle'⟩ := ih hrest hz
      by_cases hx : t.srcfmt = t.dstfmt
      · rw [← hx] at hs' hle'
        exact ⟨hs', by omega⟩
      · obtain ⟨hs'', hle''⟩ := hset _ _ _ ⟨hx, Ne.symm hne, Ne.symm hz, hs, hs'⟩
        exact ⟨hs'', by omega⟩

/-- The entries of the matrix are those of the cheapest chains. -/
structure Least (ts : List Translator) (m : Matrix) : Prop where
  sound : Sound ts m
  le : ∀ x c z, Chain ts x c z → x ≠ z → (m x z).step.isSome ∧ ((m x z).cost : ℤ) ≤ chainCost c

theorem Least.isLeast (h : Least ts m) (hne : x ≠ z) (hs : (m x z).step.isSome) :
    IsLeast {k : ℤ | ∃ c, Chain ts x c z ∧ chainCost c = k} (m x z).cost := by
  obtain ⟨t, ht⟩ := Option.isSome_iff_exists.1 hs
  obtain ⟨-, c, hc, hcost⟩ := h.sound x z t ht
  refine ⟨⟨t :: c, hc, hcost⟩, ?_⟩
  rintro k ⟨c', hc', rfl⟩
  exact (h.le x c' z hc' hne).2

/-- **A step leads to where the rest of the cost is.** -/
theorem Least.step (h : Least ts m) (hc : CostsOk ts) {t : Translator} (hne : x ≠ z)
    (ht : (m x z).step = some t) :
    t ∈ ts ∧ t.active = true ∧ t.srcfmt = x ∧ 1 ≤ t.cost ∧
      ((t.dstfmt = z ∧ ((m x z).cost : ℤ) = t.cost) ∨
        (t.dstfmt ≠ z ∧ (m t.dstfmt z).step.isSome ∧
          ((m x z).cost : ℤ) = t.cost + (m t.dstfmt z).cost)) := by
  obtain ⟨-, c, ⟨hmem, ha, hsrc, hrest⟩, hcost⟩ := h.sound x z t ht
  have hone := (hc t hmem ha).1
  have hnonneg := hc.chainCost_nonneg hrest
  rw [chainCost_cons] at hcost
  refine ⟨hmem, ha, hsrc, hone, ?_⟩
  by_cases hz : t.dstfmt = z
  · have hle := (h.le x [t] z ⟨hmem, ha, hsrc, hz⟩ hne).2
    rw [chainCost_cons, chainCost_nil] at hle
    exact .inl ⟨hz, by omega⟩
  · obtain ⟨hs, hle⟩ := h.le _ c z hrest hz
    obtain ⟨u, hu⟩ := Option.isSome_iff_exists.1 hs
    obtain ⟨-, d, hd, hdcost⟩ := h.sound _ z u hu
    have hle' := (h.le x (t :: u :: d) z ⟨hmem, ha, hsrc, hd⟩ hne).2
    rw [chainCost_cons, hdcost] at hle'
    exact .inr ⟨hz, hs, by omega⟩

/-- **The steps, one by one.** -/
theorem Least.buildLoop (h : Least ts m) (hc : CostsOk ts) (newpvt : Translator → Bool) (n : ℕ)
    (hn : (m x z).cost ≤ n) (hne : x ≠ z) (hs : (m x z).step.isSome) (path : List Translator) :
    ∃ fuel c, Chain ts x c z ∧ chainCost c = (m x z).cost ∧
      buildLoop newpvt m z fuel x path = some (if c.all newpvt then path ++ c else []) := by
  induction n generalizing x path with
  | zero =>
    obtain ⟨t, ht⟩ := Option.isSome_iff_exists.1 hs
    obtain ⟨-, -, -, hone, hcase⟩ := h.step hc hne ht
    omega
  | succ n ih =>
    obtain ⟨t, ht⟩ := Option.isSome_iff_exists.1 hs
    obtain ⟨hmem, ha, hsrc, hone, hcase⟩ := h.step hc hne ht
    by_cases hpvt : newpvt t
    · rcases hcase with ⟨hz, hcost⟩ | ⟨hz, hs', hcost⟩
      · refine ⟨2, [t], ⟨hmem, ha, hsrc, hz⟩, ?_, ?_⟩
        · rw [chainCost_cons, chainCost_nil, hcost, Int.add_zero]
        · simp only [Translate.buildLoop, if_neg hne, ht, hpvt, if_true, if_pos hz, List.all_cons,
            List.all_nil, Bool.and_self]
      · obtain ⟨fuel, c, hchain, hcc, hbuild⟩ := ih (by omega) hz hs' (path ++ [t])
        refine ⟨fuel + 1, t :: c, ⟨hmem, ha, hsrc, hchain⟩, ?_, ?_⟩
        · rw [chainCost_cons, hcc, hcost]
        · simp only [Translate.buildLoop, if_neg hne, ht, hpvt, if_true, hbuild, List.all_cons,
            Bool.true_and, List.append_assoc, List.singleton_append]
    · -- the chain is not built
      obtain ⟨-, c, hchain, hcc⟩ := h.sound x z t ht
      refine ⟨1, t :: c, hchain, hcc, ?_⟩
      simp only [Translate.buildLoop, if_neg hne, ht, hpvt, List.all_cons, Bool.false_and]
      rfl

/-! ## The matrix after `rebuild_matrix` -/

theorem rebuildMatrix_spec (hc : CostsOk ts) (hno : NoOverflow (directCosts ts)) :
    ∃ fuel m, relaxLoop fuel (directCosts ts) = some m ∧ Least ts m := by
  obtain ⟨hsound, hdirect⟩ := directCosts_spec hc
  obtain ⟨m, hm, hs, hi, hset⟩ := relaxLoop_spec hsound hno (Nat.lt_succ_self _)
  refine ⟨_, m, hm, hs, fun x c z hchain hne => ?_⟩
  exact le_chainCost hc (hdirect.improves hi) hset hchain hne

theorem addDirect_step {t u : Translator} (h : (addDirect m t x z).step = some u) :
    (u = t ∧ x = t.srcfmt ∧ z = t.dstfmt) ∨ (m x z).step = some u := by
  unfold addDirect at h
  dsimp only at h
  by_cases hnew : (m t.srcfmt t.dstfmt).step.isNone ∨ uint t.cost < (m t.srcfmt t.dstfmt).cost
  · rw [if_pos hnew] at h
    by_cases heq : x = t.srcfmt ∧ z = t.dstfmt
    · obtain ⟨rfl, rfl⟩ := heq
      rw [setEntry_self] at h
      exact .inl ⟨(Option.some.inj h).symm, rfl, rfl⟩
    · rw [setEntry_of_ne heq] at h
      exact .inr h
  · rw [if_neg hnew] at h
    exact .inr h

theorem foldl_addDirect_step {us : List Translator} {u : Translator}
    (h : (us.foldl addDirect m x z).step = some u) :
    (u ∈ us ∧ x = u.srcfmt ∧ z = u.dstfmt) ∨ (m x z).step = some u := by
  induction us generalizing m with
  | nil => exact .inr h
  | cons t us ih =>
    rcases ih h with ⟨hmem, hx, hz⟩ | hstep
    · exact .inl ⟨List.mem_cons_of_mem _ hmem, hx, hz⟩
    · rcases addDirect_step hstep with ⟨rfl, hx, hz⟩ | hstep
      · exact .inl ⟨List.mem_cons_self, hx, hz⟩
      · exact .inr hstep

/-- A direct entry is that of a translator. -/
theorem directCosts_step (h : (directCosts ts x z).step.isSome) :
    ∃ u ∈ ts, x = u.srcfmt ∧ z = u.dstfmt := by
  obtain ⟨u, hu⟩ := Option.isSome_iff_exists.1 h
  rcases foldl_addDirect_step hu with ⟨hmem, hx, hz⟩ | hnone
  · exact ⟨u, (List.mem_filter.1 hmem).1, hx, hz⟩
  · cases hnone

theorem foldl_relax_of_quiet (h : ∀ x y z, ¬ Known m x y z)
    (l : List (Format × Format × Format)) (k : ℕ) :
    l.foldl relax (m, k) = (m, k) ∧ ∀ v ∈ foldVisits l (m, k), v.1 = m := by
  induction l with
  | nil => exact ⟨rfl, fun v hv => absurd hv List.not_mem_nil⟩
  | cons v l ih =>
    obtain ⟨x, y, z⟩ := v
    have hsame : relax (m, k) (x, y, z) = (m, k) := by
      rcases relax_cases m k x y z with ⟨hsame, -⟩ | ⟨t, e, -, hk, -⟩
      · exact hsame
      · exact absurd hk (h x y z)
    rw [List.foldl_cons, hsame, foldVisits, hsame]
    refine ⟨ih.1, fun v hv => ?_⟩
    rcases List.mem_cons.1 hv with rfl | hv
    · rfl
    · exact ih.2 v hv

/-- Where no two translators meet the loop has nothing to do. -/
theorem pass_of_quiet (h : ∀ x y z, ¬ Known m x y z) : pass m = (m, 0) := by
  rw [pass_eq]
  exact (foldl_relax_of_quiet h triples 0).1

theorem noOverflow_of_quiet (h : ∀ x y z, ¬ Known m x y z) : NoOverflow m := by
  intro n
  induction n with
  | zero => exact fun v hv => absurd hv List.not_mem_nil
  | succ n ih =>
    intro v hv
    rw [visits, pass_of_quiet h] at hv
    rcases List.mem_append.1 hv with hv | hv
    · have hm := (foldl_relax_of_quiet h triples 0).2 v hv
      intro hk
      rw [hm] at hk
      exact absurd hk (h _ _ _)
    · exact ih v hv

theorem relaxLoop_of_quiet (h : ∀ x y z, ¬ Known m x y z) {fuel : ℕ}
    (hm : relaxLoop fuel m = some m') : m' = m := by
  cases fuel with
  | zero => cases hm
  | succ fuel =>
    simp only [relaxLoop, pass_of_quiet h, if_true] at hm
    exact (Option.some.inj hm).symm

/-- A translator and the one back. -/
def thereAndBack : List Translator := [⟨0, 1, true, 1⟩, ⟨1, 0, true, 1⟩]

theorem thereAndBack_quiet (x y z : Format) : ¬ Known (directCosts thereAndBack) x y z := by
  intro hk
  have hends : ∀ {a b : Format}, (directCosts thereAndBack a b).step.isSome →
      (a = 0 ∧ b = 1) ∨ (a = 1 ∧ b = 0) := by
    intro a b hs
    obtain ⟨u, hu, rfl, rfl⟩ := directCosts_step hs
    rcases List.mem_pair.1 hu with rfl | rfl
    · exact .inl ⟨rfl, rfl⟩
    · exact .inr ⟨rfl, rfl⟩
  have hzx := hk.zx
  rcases hends hk.fst with ⟨rfl, rfl⟩ | ⟨rfl, rfl⟩
  · rcases hends hk.snd with ⟨h10, -⟩ | ⟨-, hz⟩
    · exact absurd h10 (by decide)
    · exact hzx hz
  · rcases hends hk.snd with ⟨-, hz⟩ | ⟨h01, -⟩
    · exact hzx hz
    · exact absurd h01 (by decide)

theorem thereAndBack_costsOk : CostsOk thereAndBack := by
  intro t ht _
  rcases List.mem_pair.1 ht with rfl | rfl <;> decide

end Translate

end Trismedia
