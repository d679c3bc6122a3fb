import Mathlib.Algebra.BigOperators.Fin
import Mathlib.Algebra.BigOperators.Group.List.Basic
import Mathlib.Algebra.GroupWithZero.Nat
import Mathlib.Algebra.Order.BigOperators.Group.Finset
import Mathlib.Data.Fin.Basic
import Mathlib.Data.List.FinRange
import Mathlib.Logic.Function.Basic
import Mathlib.Order.Bounds.Basic
/-!
# The translation matrix

`rebuild_matrix` and `tris_translator_build_path` of `main/translate.c`.
The costs in the matrix are `unsigned int`s, and a sum of two of them is
taken modulo 2 to the 32. Of a translator only what the two functions read
is kept; `calcCost` is what `calc_cost` measures, and `newpvt` tells whether
a descriptor can be made. The log is left out.
-/


namespace Trismedia

namespace Translate

/-- `MAX_FORMAT` -/
abbrev maxFormat : ℕ := 32

instance : NeZero maxFormat := ⟨Nat.succ_ne_zero 31⟩

/-- The index of a format. -/
abbrev Format := Fin maxFormat

/-- `struct tris_translator`, after its registration. -/
structure Translator where
  srcfmt : Format
  dstfmt : Format
  active : Bool
  cost : ℤ
  deriving DecidableEq, Repr

/-- `struct translator_path` -/
structure TranslatorPath where
  step : Option Translator
  cost : ℕ
  multistep : ℕ
  deriving DecidableEq, Repr

/-- `tr_matrix` -/
abbrev Matrix := Format → Format → TranslatorPath

/-- The conversion to `unsigned int`. -/
def uint (x : ℤ) : ℕ := (x % 4294967296).toNat

/-- `memset(tr_matrix, '\0', sizeof(tr_matrix))` -/
def emptyMatrix : Matrix := fun _ _ => ⟨none, 0, 0⟩

def setEntry (m : Matrix) (x z : Format) (e : TranslatorPath) : Matrix :=
  Function.update m x (Function.update (m x) z e)

/-- One round of the first loop, for an active translator. -/
def addDirect (m : Matrix) (t : Translator) : Matrix :=
  let x := t.srcfmt
  let z := t.dstfmt
  if (m x z).step.isNone ∨ uint t.cost < (m x z).cost then
    setEntry m x z { m x z with step := some t, cost := uint t.cost }
  else m

/-- The first loop, over translators whose costs are up to date. -/
def directCosts (ts : List Translator) : Matrix :=
  (ts.filter (·.active)).foldl addDirect emptyMatrix

/-- The body of the three inner loops, with `changed`. -/
def relax (s : Matrix × ℕ) (xyz : Format × Format × Format) : Matrix × ℕ :=
  let (m, changed) := s
  let (x, y, z) := xyz
  if x = y then s
  else if z = x ∨ z = y then s
  else
    match (m x y).step, (m y z).step with
    | some step, some _ =>
      let newcost := ((m x y).cost + (m y z).cost) % 4294967296
      if (m x z).step.isSome ∧ newcost ≥ (m x z).cost then s
      else (setEntry m x z ⟨some step, newcost, 1⟩, changed + 1)
    | _, _ => s

/-- The triples in the order of the three loops. -/
def triples : List (Format × Format × Format) :=
  (List.finRange maxFormat).flatMap fun x =>
    (List.finRange maxFormat).flatMap fun y =>
      (List.finRange maxFormat).map fun z => (x, y, z)

/-- One round of the endless loop. -/
def pass (m : Matrix) : Matrix × ℕ := triples.foldl relax (m, 0)

/-- The endless loop; `none` when it has not ended in `fuel` rounds. -/
def relaxLoop : ℕ → Matrix → Option Matrix
  | 0, _ => none
  | fuel + 1, m =>
    let round := pass m
    if round.2 = 0 then some round.1 else relaxLoop fuel round.1

/-- `calc_cost`, where `rebuild_matrix` calls it. -/
def recalc (calcCost : ℤ → Translator → ℤ) (samples : ℤ) (t : Translator) : Translator :=
  if t.active ∧ samples ≠ 0 then { t with cost := calcCost samples t } else t

/-- `rebuild_matrix`: the translators with their costs, and the matrix. -/
def rebuildMatrix (calcCost : ℤ → Translator → ℤ) (fuel : ℕ) (ts : List Translator) (samples : ℤ) :
    Option (List Translator × Matrix) := do
  let ts := ts.map (recalc calcCost samples)
  let m ← relaxLoop fuel (directCosts ts)
  some (ts, m)

/-- `powerof`: the index of the lowest bit, `none` for -1. -/
def powerof (d : BitVec 32) : Option Format := (List.finRange maxFormat).find? fun x => d.getLsbD x

/-- The loop of `tris_translator_build_path`. What has been built is freed
where it fails, which leaves a null pointer, the empty chain. -/
def buildLoop (newpvt : Translator → Bool) (m : Matrix) (dest : Format) :
    ℕ → Format → List Translator → Option (List Translator)
  | 0, _, _ => none
  | fuel + 1, source, path =>
    if source = dest then some path
    else
      match (m source dest).step with
      -- `head` is not freed here
      | none => some []
      | some t =>
        if newpvt t then buildLoop newpvt m dest fuel t.dstfmt (path ++ [t]) else some []

/-- `tris_translator_build_path`, as the translators of the chain. -/
def trisTranslatorBuildPath (newpvt : Translator → Bool) (m : Matrix) (fuel : ℕ)
    (dest source : BitVec 32) : Option (List Translator) :=
  match powerof source, powerof dest with
  | some source, some dest => buildLoop newpvt m dest fuel source []
  | _, _ => some []

end Translate

/-!
## Chains of translators

A chain leads from a format to another by active translators. Each entry of
the matrix stands for a chain that begins with its step (`Sound`), and each
change makes an entry cheaper or finds one, which can happen only so many
times. When a round changes nothing, no chain is cheaper than its entry.
-/

namespace Translate

/-- **A chain of translators** from a format to another. -/
def Chain (ts : List Translator) : Format → List Translator → Format → Prop
  | x, [], z => x = z
  | x, t :: c, z => t ∈ ts ∧ t.active = true ∧ t.srcfmt = x ∧ Chain ts t.dstfmt c z

/-- The total cost of a chain. -/
def chainCost (c : List Translator) : ℤ := (c.map Translator.cost).sum

variable {ts : List Translator} {x y z : Format} {c c' : List Translator} {t : Translator}

@[simp] theorem chainCost_nil : chainCost [] = 0 := rfl

@[simp] theorem chainCost_cons : chainCost (t :: c) = t.cost + chainCost c := List.sum_cons

@[simp] theorem chainCost_append : chainCost (c ++ c') = chainCost c + chainCost c' := by
  rw [chainCost, List.map_append, List.sum_append]
  rfl

theorem Chain.append (h : Chain ts x c y) (h' : Chain ts y c' z) : Chain ts x (c ++ c') z := by
  induction c generalizing x with
  | nil =>
    obtain rfl : x = y := h
    exact h'
  | cons t c ih => exact ⟨h.1, h.2.1, h.2.2.1, ih h.2.2.2⟩

/-- The costs of the active translators are those of an `int`, at least 1. -/
def CostsOk (ts : List Translator) : Prop :=
  ∀ t ∈ ts, t.active = true → 1 ≤ t.cost ∧ t.cost ≤ 2147483647

theorem CostsOk.chainCost_nonneg (h : CostsOk ts) (hc : Chain ts x c z) : 0 ≤ chainCost c := by
  induction c generalizing x with
  | nil => exact Int.le_refl 0
  | cons t c ih =>
    have ht := (h t hc.1 hc.2.1).1
    have hrest := ih hc.2.2.2
    rw [chainCost_cons]
    omega

theorem uint_eq {n : ℤ} (h0 : 0 ≤ n) (h1 : n ≤ 2147483647) : (uint n : ℤ) = n := by
  unfold uint
  omega

/-! ## The matrix -/

/-- An entry stands for a chain that begins with its step. -/
def EntryOk (ts : List Translator) (x z : Format) (e : TranslatorPath) : Prop :=
  ∀ t, e.step = some t → e.cost < 4294967296 ∧
    ∃ c, Chain ts x (t :: c) z ∧ chainCost (t :: c) = e.cost

/-- **Every entry stands for a chain.** -/
def Sound (ts : List Translator) (m : Matrix) : Prop := ∀ x z, EntryOk ts x z (m x z)

/-- `m'` has found what `m` has, and no dearer. -/
def Improves (m' m : Matrix) : Prop :=
  ∀ x z, (m x z).step.isSome → (m' x z).step.isSome ∧ (m' x z).cost ≤ (m x z).cost

variable {m m' m'' : Matrix} {e : TranslatorPath}

@[simp] theorem setEntry_self : setEntry m x z e x z = e := by
  rw [setEntry, Function.update_self, Function.update_self]

theorem setEntry_of_ne {x' z' : Format} (h : ¬ (x' = x ∧ z' = z)) :
    setEntry m x z e x' z' = m x' z' := by
  rw [setEntry]
  by_cases hx : x' = x
  · subst hx
    rw [Function.update_self, Function.update_of_ne fun hz => h ⟨rfl, hz⟩]
  · rw [Function.update_of_ne hx]

theorem Sound.setEntry (h : Sound ts m) (he : EntryOk ts x z e) : Sound ts (setEntry m x z e) := by
  intro x' z'
  by_cases heq : x' = x ∧ z' = z
  · obtain ⟨rfl, rfl⟩ := heq
    rw [setEntry_self]
    exact he
  · rw [setEntry_of_ne heq]
    exact h x' z'

theorem Improves.refl (m : Matrix) : Improves m m := fun _ _ h => ⟨h, Nat.le_refl _⟩

theorem Improves.trans (h : Improves m'' m') (h' : Improves m' m) : Improves m'' m := by
  intro x z hs
  obtain ⟨hs', hle'⟩ := h' x z hs
  obtain ⟨hs'', hle''⟩ := h x z hs'
  exact ⟨hs'', Nat.le_trans hle'' hle'⟩

theorem improves_setEntry (hs : e.step.isSome)
    (hle : (m x z).step.isSome → e.cost ≤ (m x z).cost) : Improves (setEntry m x z e) m := by
  intro x' z' hsome
  by_cases heq : x' = x ∧ z' = z
  · obtain ⟨rfl, rfl⟩ := heq
    rw [setEntry_self]
    exact ⟨hs, hle hsome⟩
  · rw [setEntry_of_ne heq]
    exact ⟨hsome, Nat.le_refl _⟩

/-! ## Direct costs -/

/-- The entry of a direct translation is no dearer than any translator. -/
def Direct (ts : List Translator) (m : Matrix) : Prop :=
  ∀ t ∈ ts, t.active = true →
    (m t.srcfmt t.dstfmt).step.isSome ∧ ((m t.srcfmt t.dstfmt).cost : ℤ) ≤ t.cost

theorem Direct.improves (h : Direct ts m) (hi : Improves m' m) : Direct ts m' := by
  intro t ht ha
  obtain ⟨hs, hle⟩ := h t ht ha
  obtain ⟨hs', hle'⟩ := hi _ _ hs
  exact ⟨hs', by omega⟩

/-- **One translator** of the first loop. -/
theorem addDirect_spec (hc : CostsOk ts) (ht : t ∈ ts) (ha : t.active = true) (h : Sound ts m) :
    Sound ts (addDirect m t) ∧ Improves (addDirect m t) m ∧
      (addDirect m t t.srcfmt t.dstfmt).step.isSome ∧
        ((addDirect m t t.srcfmt t.dstfmt).cost : ℤ) ≤ t.cost := by
  obtain ⟨h1, h2⟩ := hc t ht ha
  have hcost : (uint t.cost : ℤ) = t.cost := uint_eq (by omega) h2
  unfold addDirect
  dsimp only
  by_cases hnew : (m t.srcfmt t.dstfmt).step.isNone ∨ uint t.cost < (m t.srcfmt t.dstfmt).cost
  · rw [if_pos hnew, setEntry_self]
    refine ⟨h.setEntry ?_, improves_setEntry rfl fun hsome => ?_, rfl, Int.le_of_eq hcost⟩
    · intro u hu
      obtain rfl := Option.some.inj hu
      refine ⟨by change uint t.cost < 4294967296; omega, [], ⟨ht, ha, rfl, rfl⟩, ?_⟩
      rw [chainCost_cons, chainCost_nil, Int.add_zero]
      exact hcost.symm
    · rcases hnew with hnone | hlt
      · rw [Option.isNone_iff_eq_none] at hnone
        rw [hnone] at hsome
        cases hsome
      · exact Nat.le_of_lt hlt
  · rw [if_neg hnew]
    have hsome : (m t.srcfmt t.dstfmt).step.isSome := by
      by_contra hno
      exact hnew (.inl (by simpa using hno))
    have hge : (m t.srcfmt t.dstfmt).cost ≤ uint t.cost := by
      by_contra hlt
      exact hnew (.inr (by omega))
    exact ⟨h, Improves.refl m, hsome, by omega⟩

theorem foldl_addDirect_spec (hc : CostsOk ts) {us : List Translator}
    (hus : ∀ t ∈ us, t ∈ ts ∧ t.active = true) (h : Sound ts m) :
    Sound ts (us.foldl addDirect m) ∧ Improves (us.foldl addDirect m) m ∧
      Direct us (us.foldl addDirect m) := by
  induction us generalizing m with
  | nil => exact ⟨h, Improves.refl m, fun t ht => absurd ht List.not_mem_nil⟩
  | cons u us ih =>
    obtain ⟨hu, ha⟩ := hus u List.mem_cons_self
    obtain ⟨hsound, himp, hsome, hle⟩ := addDirect_spec hc hu ha h
    obtain ⟨hsound', himp', hdirect⟩ :=
      ih (fun t ht => hus t (List.mem_cons_of_mem _ ht)) hsound
    refine ⟨hsound', himp'.trans himp, fun t ht hat => ?_⟩
    rcases List.mem_cons.1 ht with rfl | ht
    · obtain ⟨hs, hle'⟩ := himp' _ _ hsome
      exact ⟨hs, by rw [List.foldl_cons]; omega⟩
    · exact hdirect t ht hat

theorem directCosts_spec (hc : CostsOk ts) :
    Sound ts (directCosts ts) ∧ Direct ts (directCosts ts) := by
  have hempty : Sound ts emptyMatrix := fun x z t ht => by cases ht
  have hmem : ∀ t ∈ ts.filter (·.active), t ∈ ts ∧ t.active = true := by
    intro t ht
    exact List.mem_filter.1 ht
  obtain ⟨hsound, -, hdirect⟩ := foldl_addDirect_spec hc hmem hempty
  exact ⟨hsound, fun t ht ha => hdirect t (List.mem_filter.2 ⟨ht, ha⟩) ha⟩

end Translate

end Trismedia
