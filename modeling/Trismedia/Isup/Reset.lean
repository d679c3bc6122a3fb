import Trismedia.Isup.Blocking
import Trismedia.Isup.Sent
/-!
# Resetting all circuits

`send_init_grs` of `channels/ss7/l4isup.c` goes through the circuits of a
linkset once and sends a reset for each row of circuits that are equipped: a
group reset for two up to 32 of them, and a reset of the circuit for one.
-/


namespace Trismedia

namespace Isup

namespace Group

open Mtp2 Isup.Union

/-! ## The procedure -/

/-- `linkset->cic_list[i] && linkset->cic_list[i]->equipped` -/
def Circuits.equippedAt (s : Circuits) (i : ℕ) : Bool := ((s.cicList i).map Pvt.equipped).getD false

/-- `isup_send_grs` -/
def isupSendGrs (ls : Linkset) (s : Circuits) (cic count : ℕ) (doTimers : Bool) : Circuits :=
  if (s.cicList cic).isNone then s
  else if count < 2 then s
  else
    let s := s.enqueue (grsMessage ls cic count)
    if doTimers then s.modify cic fun pvt => (pvt.start .t22).start .t23 else s

/-- `reset_circuit` -/
def resetCircuit (ls : Linkset) (s : Circuits) (cic : ℕ) : Circuits :=
  (s.enqueue (rscMessage ls cic)).modify cic (Pvt.start .t16)

/-- The end of a row of circuits from `first` to `i`. -/
def endRow (ls : Linkset) (s : Circuits) (first i : ℕ) : Circuits :=
  let range := i - first
  if range = 0 then
    resetCircuit ls (s.modify first fun pvt => { pvt with state := .sentRel }) first
  else
    isupSendGrs ls (s.modify first fun pvt => { pvt with grsCount := range + 1 }) first (range + 1)
      true

/-- A round of `send_init_grs`; `none` is a `first_equipped` of -1. -/
def initGrsRound (ls : Linkset) (st : Circuits × Option ℕ) (i : ℕ) : Circuits × Option ℕ :=
  let here := st.1.equippedAt i
  let s := if here then st.1.modify i fun pvt => { pvt with blocked := 0 } else st.1
  let firstEquipped := if here && st.2.isNone then some i else st.2
  match firstEquipped with
  | none => (s, none)
  | some first =>
    if i = ls.lastCic || !s.equippedAt (i + 1) || first + 31 = i then (endRow ls s first i, none)
    else (s, some first)

/-- The circuits from `first_cic` to `last_cic`. -/
def Linkset.cics (ls : Linkset) : List ℕ := List.range' ls.firstCic (ls.lastCic + 1 - ls.firstCic)

/-- `send_init_grs` -/
def sendInitGrs (ls : Linkset) (s : Circuits) : Circuits :=
  if ls.grs then (ls.cics.foldl (initGrsRound ls) (s, none)).1
  else
    ls.cics.foldl (fun s i =>
      if s.equippedAt i then
        resetCircuit ls (s.modify i fun pvt => { pvt with blocked := 0, state := .sentRel }) i
      else s) s

/-! ## What is asked of it -/

/-- What a message resets: its type, its first circuit, and how many. -/
def resetOf (variant : Ss7Variant) (msg : List Octet) : Option (MsgType × ℕ × ℕ) :=
  (received variant msg).bind fun r =>
    match r.typ with
    | .rsc => some (.rsc, r.header.cic, 1)
    | .grs => some (.grs, r.header.cic, intAt r.union grsRange.base + 1)
    | _ => none

/-- The message resets a circuit. -/
def covers (variant : Ss7Variant) (i : ℕ) (msg : List Octet) : Bool :=
  match resetOf variant msg with
  | none => false
  | some (_, cic, count) => cic ≤ i ∧ i < cic + count

/-- What `process_gra` expects of the range. -/
def graExpected (pvt : Pvt) (range : ℕ) : Bool :=
  !(pvt.grsCount = -1 || (range : ℤ) + 1 ≠ pvt.grsCount)

/-- A circuit that is to be reset. -/
def ToReset (ls : Linkset) (s : Circuits) (i : ℕ) : Prop :=
  ls.firstCic ≤ i ∧ i ≤ ls.lastCic ∧ s.equippedAt i = true

/-- **A reset as it should be**: of one circuit, or of two up to 32 with their
number kept at the first, and of none that is not to be reset. -/
def GoodReset (ls : Linkset) (s s' : Circuits) (msg : List Octet) : Prop :=
  ∃ typ cic count, resetOf ls.variant msg = some (typ, cic, count) ∧
    (typ = .rsc ∧ count = 1 ∨ typ = .grs ∧ 2 ≤ count ∧ count ≤ 32 ∧
      ∃ pvt, s'.cicList cic = some pvt ∧ pvt.grsCount = count ∧ graExpected pvt (count - 1) = true) ∧
    ∀ i, cic ≤ i → i < cic + count → ToReset ls s i

/-- **The resets are right**: each is as it should be, and every circuit that is
to be reset is reset once. -/
def ResetsRight (ls : Linkset) (s s' : Circuits) : Prop :=
  ∃ msgs : List (List Octet), s'.out = s.out ++ msgs.map Output.message ∧
    (∀ msg ∈ msgs, GoodReset ls s s' msg) ∧
      ∀ i, ToReset ls s i → msgs.countP (covers ls.variant i) = 1

/-! ## Rows of circuits -/

variable {ls : Linkset} {s t t' : Circuits} {first : Option ℕ} {rows : List (ℕ × ℕ)} {bound f i : ℕ}

/-- The message of a row: its first circuit, and how many. -/
def rowMessage (ls : Linkset) (row : ℕ × ℕ) : List Octet :=
  if row.2 = 1 then rscMessage ls row.1 else grsMessage ls row.1 row.2

def inRow (i : ℕ) (row : ℕ × ℕ) : Bool := row.1 ≤ i ∧ i < row.1 + row.2

/-- **A message resets its row.** -/
theorem resetOf_rowMessage {row : ℕ × ℕ} (hcic : row.1 < maxCic) (hpos : 1 ≤ row.2)
    (hle : row.2 ≤ 32) : resetOf ls.variant (rowMessage ls row) =
      some (if row.2 = 1 then .rsc else .grs, row.1, row.2) := by
  obtain ⟨cic, count⟩ := row
  unfold rowMessage resetOf
  by_cases hone : count = 1
  · obtain ⟨r, hr, htyp, hat⟩ := @received_rsc ls cic hcic
    rw [if_pos hone, if_pos hone, hr, Option.bind_some, htyp, hone, hat]
  · obtain ⟨n, rfl⟩ : ∃ n, count = n + 1 := ⟨count - 1, by omega⟩
    obtain ⟨r, hr, htyp, hat, hrange⟩ := @received_grs ls cic n hcic (by omega)
    rw [if_neg hone, if_neg hone, hr, Option.bind_some, htyp, hat, hrange]

/-- **Where the pass is** after the circuits below `bound`: the rows that are
closed cover each circuit once, those in front of the open row, and the circuits
of the open row reach up to `bound`. -/
structure Rows (ls : Linkset) (s : Circuits) (bound : ℕ) (t : Circuits) (first : Option ℕ)
    (rows : List (ℕ × ℕ)) : Prop where
  out : t.out = s.out ++ rows.map fun row => .message (rowMessage ls row)
  equipped : t.equippedAt = s.equippedAt
  size : ∀ row ∈ rows, 1 ≤ row.2 ∧ row.2 ≤ 32
  inside : ∀ row ∈ rows, ∀ i, inRow i row = true → ToReset ls s i ∧ i < first.getD bound
  once : ∀ i, ToReset ls s i → i < first.getD bound → rows.countP (inRow i) = 1
  count : ∀ row ∈ rows, 2 ≤ row.2 → ∃ pvt, t.cicList row.1 = some pvt ∧ pvt.grsCount = row.2
  openRow : ∀ f ∈ first, f < bound ∧ bound < f + 32 ∧ (∀ i, f ≤ i → i < bound → ToReset ls s i) ∧
    ToReset ls s bound

theorem inRow_iff {row : ℕ × ℕ} : inRow i row = true ↔ row.1 ≤ i ∧ i < row.1 + row.2 :=
  decide_eq_true_iff

/-- A circuit is written to, and stays equipped. -/
theorem equippedAt_modify {g : Pvt → Pvt} (hg : ∀ pvt, (g pvt).equipped = pvt.equipped) :
    (s.modify i g).equippedAt = s.equippedAt := by
  funext j
  unfold Circuits.equippedAt
  rw [modify_cicList]
  by_cases hj : j = i
  · rw [hj, Function.update_self, Option.map_map]
    congr 2
    funext pvt
    exact hg pvt
  · rw [Function.update_of_ne hj]

/-- **The end of a row**: its message goes out, and its first circuit keeps how
many there are. -/
theorem endRow_spec (hsome : (s.cicList f).isSome) (hle : f ≤ i) :
    ∃ g : Pvt → Pvt, (∀ pvt, (g pvt).equipped = pvt.equipped) ∧
      (f < i → ∀ pvt, (g pvt).grsCount = ((i - f : ℕ) + 1 : ℤ)) ∧
        (endRow ls s f i).cicList = (s.modify f g).cicList ∧
          (endRow ls s f i).out = s.out ++ [.message (rowMessage ls (f, i - f + 1))] := by
  unfold endRow
  dsimp only
  by_cases hrange : i - f = 0
  · refine ⟨fun pvt => { pvt with state := .sentRel }.start .t16, fun pvt => rfl,
      fun hlt => absurd hrange (by omega), ?_, ?_⟩
    · rw [if_pos hrange]
      exact update_map_map s.cicList (fun pvt => { pvt with state := .sentRel }) (Pvt.start .t16)
    · rw [if_pos hrange, rowMessage, if_pos (by omega)]
      rfl
  · refine ⟨fun pvt => ({ pvt with grsCount := ((i - f : ℕ) + 1 : ℤ) }.start .t22).start .t23,
      fun pvt => rfl, fun _ pvt => rfl, ?_, ?_⟩
    all_goals
      have hnone : ((s.modify f fun pvt => { pvt with grsCount := ((i - f : ℕ) + 1 : ℤ) }).cicList
          f).isNone = false := by
        obtain ⟨pvt, hpvt⟩ := Option.isSome_iff_exists.1 hsome
        rw [modify_cicList, Function.update_self, hpvt]
        rfl
      rw [if_neg hrange]
      unfold isupSendGrs
      rw [hnone, if_neg Bool.false_ne_true, if_neg (by omega), if_pos rfl]
    · exact update_map_map s.cicList (fun pvt => { pvt with grsCount := (i - f : ℕ) + 1 })
        fun pvt => (pvt.start .t22).start .t23
    · rw [rowMessage, if_neg (by omega)]
      rfl

theorem equippedAt_eq_true : s.equippedAt i = true → (s.cicList i).isSome := by
  unfold Circuits.equippedAt
  intro h
  rcases hpvt : s.cicList i with _ | pvt
  · rw [hpvt] at h
    exact absurd h Bool.false_ne_true
  · rfl

theorem equippedAt_congr (h : t.cicList = t'.cicList) : t.equippedAt = t'.equippedAt := by
  funext j
  unfold Circuits.equippedAt
  rw [h]

/-- The kept numbers stay where other circuits are written to. -/
theorem count_modify {g : Pvt → Pvt} {row : ℕ × ℕ} (hg : row.1 = f → ∀ pvt, (g pvt).grsCount = pvt.grsCount)
    (h : ∃ pvt, t.cicList row.1 = some pvt ∧ pvt.grsCount = row.2) :
    ∃ pvt, (t.modify f g).cicList row.1 = some pvt ∧ pvt.grsCount = row.2 := by
  obtain ⟨pvt, hpvt, hcount⟩ := h
  rw [modify_cicList]
  by_cases hrow : row.1 = f
  · rw [hrow] at hpvt
    refine ⟨g pvt, ?_, (hg hrow pvt).trans hcount⟩
    rw [hrow, Function.update_self, hpvt]
    rfl
  · exact ⟨pvt, by rw [Function.update_of_ne hrow, hpvt], hcount⟩

/-- A circuit that is not equipped is passed by, between two rows. -/
theorem Rows.skip (h : Rows ls s i t none rows) (hnot : s.equippedAt i = false) :
    Rows ls s (i + 1) t none rows where
  out := h.out
  equipped := h.equipped
  size := h.size
  inside := fun row hrow j hj => ⟨(h.inside row hrow j hj).1, Nat.lt_succ_of_lt (h.inside row hrow j hj).2⟩
  once := by
    intro j hj hlt
    have hne : j ≠ i := by
      rintro rfl
      exact absurd (hnot.symm.trans hj.2.2) Bool.false_ne_true
    have hbelow : j < i + 1 := hlt
    refine h.once j hj ?_
    show j < i
    omega
  count := h.count
  openRow := fun f hf => absurd hf (Option.not_mem_none f)

/-- **The open row**, from its first circuit to one that is equipped: the rows in
front of it, and its own circuits. -/
theorem Rows.opened (h : Rows ls s i t first rows) (hi : ToReset ls s i) :
    first.getD i ≤ i ∧ i < first.getD i + 32 ∧ ∀ j, first.getD i ≤ j → j ≤ i → ToReset ls s j := by
  rcases hfirst : first with _ | f
  · refine ⟨Nat.le_refl i, Nat.lt_add_of_pos_right (by omega), fun j hle hge => ?_⟩
    rwa [Nat.le_antisymm hge hle]
  · obtain ⟨hlt, hsize, hrow, -⟩ := h.openRow f hfirst
    refine ⟨hlt.le, hsize, fun j hle hge => ?_⟩
    rcases Nat.lt_or_ge j i with hlt | hge'
    · exact hrow j hle hlt
    · rwa [Nat.le_antisymm hge hge']

/-- **The open row goes on.** -/
theorem Rows.extend (h : Rows ls s i t first rows) (hi : ToReset ls s i) (hnext : ToReset ls s (i + 1))
    (hsize : first.getD i + 31 ≠ i) {g : Pvt → Pvt} (hg : ∀ pvt, (g pvt).equipped = pvt.equipped)
    (hcount : ∀ pvt, (g pvt).grsCount = pvt.grsCount) :
    Rows ls s (i + 1) (t.modify i g) (some (first.getD i)) rows := by
  obtain ⟨hle, hlt, hrow⟩ := h.opened hi
  exact {
    out := h.out
    equipped := (equippedAt_modify hg).trans h.equipped
    size := h.size
    inside := h.inside
    once := h.once
    count := fun row hrow htwo => count_modify (fun _ => hcount) (h.count row hrow htwo)
    openRow := by
      intro f hf
      rw [← Option.some.inj hf]
      exact ⟨Nat.lt_succ_of_le hle, by omega, fun j hge hlt => hrow j hge (Nat.le_of_lt_succ hlt), hnext⟩ }

/-- **The open row is closed.** -/
theorem Rows.close (h : Rows ls s i t first rows) (hi : ToReset ls s i) {g : Pvt → Pvt}
    (hg : ∀ pvt, (g pvt).equipped = pvt.equipped) (hcount : ∀ pvt, (g pvt).grsCount = pvt.grsCount) :
    Rows ls s (i + 1) (endRow ls (t.modify i g) (first.getD i) i) none
      (rows ++ [(first.getD i, i - first.getD i + 1)]) := by
  obtain ⟨hle, hlt, hrow⟩ := h.opened hi
  have hequipped : (t.modify i g).equippedAt = s.equippedAt := (equippedAt_modify hg).trans h.equipped
  have hsome : ((t.modify i g).cicList (first.getD i)).isSome := by
    apply equippedAt_eq_true
    rw [hequipped]
    exact (hrow _ (Nat.le_refl _) hle).2.2
  obtain ⟨g', hg', hcount', hlist, hout⟩ := @endRow_spec ls _ _ _ hsome hle
  have hinside := h.inside
  have honce := h.once
  generalize first.getD i = f at *
  have hcover : ∀ j, inRow j (f, i - f + 1) = true ↔ f ≤ j ∧ j ≤ i := by
    intro j
    rw [inRow_iff]
    dsimp only
    omega
  refine ⟨?_, ?_, ?_, ?_, ?_, ?_, fun f hf => absurd hf (Option.not_mem_none f)⟩
  · rw [hout, List.map_append, ← List.append_assoc, ← h.out]
    rfl
  · rw [equippedAt_congr hlist, equippedAt_modify hg', hequipped]
  · intro row hmem
    rcases List.mem_append.1 hmem with hmem | hmem
    · exact h.size row hmem
    · rw [List.mem_singleton.1 hmem]
      dsimp only
      omega
  · intro row hmem j hj
    show _ ∧ j < i + 1
    rcases List.mem_append.1 hmem with hmem | hmem
    · obtain ⟨hto, hbelow⟩ := hinside row hmem j hj
      exact ⟨hto, by omega⟩
    · rw [List.mem_singleton.1 hmem, hcover] at hj
      exact ⟨hrow j hj.1 hj.2, Nat.lt_succ_of_le hj.2⟩
  · intro j hj hlt
    have hbelow : j < i + 1 := hlt
    rw [List.countP_append, List.countP_singleton]
    rcases Nat.lt_or_ge j f with hlow | hhigh
    · rw [honce j hj hlow, if_neg (fun hin => absurd ((hcover j).1 hin).1 (Nat.not_le.2 hlow))]
    · rw [if_pos ((hcover j).2 ⟨hhigh, Nat.le_of_lt_succ hbelow⟩),
        List.countP_eq_zero.2 fun row hmem hin => Nat.not_lt.2 hhigh (hinside row hmem j hin).2]
  · intro row hmem htwo
    rw [hlist]
    rcases List.mem_append.1 hmem with hmem | hmem
    · have hbelow : row.1 < f := (hinside row hmem row.1 (inRow_iff.2 ⟨Nat.le_refl _, by omega⟩)).2
      exact count_modify (fun heq => absurd heq (Nat.ne_of_lt hbelow))
        (count_modify (fun _ => hcount) (h.count row hmem htwo))
    · rw [List.mem_singleton.1 hmem] at htwo ⊢
      dsimp only at htwo ⊢
      obtain ⟨pvt, hpvt⟩ := Option.isSome_iff_exists.1 hsome
      refine ⟨g' pvt, ?_, ?_⟩
      · rw [modify_cicList, Function.update_self, hpvt]
        rfl
      · rw [hcount' (by omega), Nat.cast_succ]

/-! ## The pass -/

theorem equippedAt_eq_false (h : ¬s.equippedAt i = true) : s.equippedAt i = false :=
  Bool.eq_false_iff.2 h

/-- **A round** goes on with the rows. -/
theorem initGrsRound_rows (hfirst : ls.firstCic ≤ i) (hlast : i ≤ ls.lastCic)
    (h : Rows ls s i t first rows) :
    ∃ rows', Rows ls s (i + 1) (initGrsRound ls (t, first) i).1 (initGrsRound ls (t, first) i).2
      rows' := by
  by_cases hhere : t.equippedAt i = true
  · have hto : ToReset ls s i := ⟨hfirst, hlast, h.equipped ▸ hhere⟩
    have hopen : (if t.equippedAt i && first.isNone then some i else first) = some (first.getD i) := by
      rw [hhere, Bool.true_and]
      cases first with
      | none => rfl
      | some f => rfl
    have hequipped : (t.modify i fun pvt => { pvt with blocked := 0 }).equippedAt = s.equippedAt :=
      (equippedAt_modify (g := fun pvt => { pvt with blocked := 0 }) fun pvt => rfl).trans h.equipped
    unfold initGrsRound
    dsimp only
    rw [if_pos hhere, hopen]
    dsimp only
    rw [hequipped]
    by_cases hend : i = ls.lastCic ∨ s.equippedAt (i + 1) = false ∨ first.getD i + 31 = i
    · rw [if_pos (by simpa [or_assoc] using hend)]
      exact ⟨_, h.close hto (fun pvt => rfl) fun pvt => rfl⟩
    · rw [if_neg (by simpa [or_assoc] using hend)]
      obtain ⟨hne, hnext, hsize⟩ : i ≠ ls.lastCic ∧ ¬s.equippedAt (i + 1) = false ∧
          first.getD i + 31 ≠ i := by
        simpa only [not_or] using hend
      have hafter : ToReset ls s (i + 1) :=
        ⟨by omega, by omega, Bool.eq_true_of_not_eq_false hnext⟩
      exact ⟨rows, h.extend hto hafter hsize (fun pvt => rfl) fun pvt => rfl⟩
  · -- the row that is open goes up to here, and here there is no circuit
    have hnone : first = none := by
      rw [Option.eq_none_iff_forall_not_mem]
      intro f hf
      exact hhere (h.equipped ▸ (h.openRow f hf).2.2.2.2.2)
    subst hnone
    have hround : initGrsRound ls (t, none) i = (t, none) := by
      unfold initGrsRound
      dsimp only
      rw [if_neg hhere, equippedAt_eq_false hhere]
      rfl
    rw [hround]
    exact ⟨rows, h.skip (h.equipped ▸ equippedAt_eq_false hhere)⟩

/-- **The pass up to a circuit.** -/
theorem initGrs_rows (n : ℕ) (h : ls.firstCic + n ≤ ls.lastCic + 1) :
    ∃ rows, Rows ls s (ls.firstCic + n)
      ((List.range' ls.firstCic n).foldl (initGrsRound ls) (s, none)).1
      ((List.range' ls.firstCic n).foldl (initGrsRound ls) (s, none)).2 rows := by
  induction n with
  | zero =>
    refine ⟨[], (List.append_nil s.out).symm, rfl, fun row hrow => absurd hrow List.not_mem_nil,
      fun row hrow => absurd hrow List.not_mem_nil, fun i hi hlt => absurd hi.1 (Nat.not_le.2 hlt),
      fun row hrow => absurd hrow List.not_mem_nil, fun f hf => absurd hf (Option.not_mem_none f)⟩
  | succ n ih =>
    obtain ⟨rows, hrows⟩ := ih (by omega)
    rw [List.range'_1_concat, List.foldl_append]
    exact initGrsRound_rows (Nat.le_add_right _ _) (show ls.firstCic + n ≤ ls.lastCic by omega) hrows

/-- **The rows at the end are right.** -/
theorem Rows.right {bound : ℕ} (h : Rows ls s bound t none rows) (hall : ls.lastCic < bound) :
    ResetsRight ls s t := by
  have hat : ∀ row ∈ rows, resetOf ls.variant (rowMessage ls row) =
      some (if row.2 = 1 then .rsc else .grs, row.1, row.2) := by
    intro row hrow
    obtain ⟨hpos, hle⟩ := h.size row hrow
    have hin := (h.inside row hrow row.1 (inRow_iff.2 ⟨Nat.le_refl _, by omega⟩)).1
    exact resetOf_rowMessage (Nat.lt_of_le_of_lt hin.2.1 ls.lastCic_lt) hpos hle
  refine ⟨rows.map (rowMessage ls), ?_, ?_, ?_⟩
  · rw [h.out, List.map_map]
    rfl
  · intro msg hmsg
    obtain ⟨row, hrow, rfl⟩ := List.mem_map.1 hmsg
    obtain ⟨hpos, hle⟩ := h.size row hrow
    refine ⟨_, _, _, hat row hrow, ?_, fun i hge hlt => (h.inside row hrow i (inRow_iff.2 ⟨hge, hlt⟩)).1⟩
    by_cases hone : row.2 = 1
    · exact Or.inl ⟨if_pos hone, hone⟩
    · obtain ⟨pvt, hpvt, hcount⟩ := h.count row hrow (by omega)
      refine Or.inr ⟨if_neg hone, by omega, hle, pvt, hpvt, hcount, ?_⟩
      unfold graExpected
      rw [hcount]
      simp only [Bool.not_eq_true', Bool.or_eq_false_iff, decide_eq_false_iff_not]
      omega
  · intro i hi
    rw [List.countP_map, ← h.once i hi (Nat.lt_of_le_of_lt hi.2.1 hall)]
    refine List.countP_congr fun row hrow => ?_
    rw [Function.comp_apply, covers, hat row hrow]
    exact Iff.rfl

/-- **Every circuit is reset once**: with group resets, each reset that is sent is
of circuits that are equipped, one or up to 32 of them, their number is kept for
the acknowledgement, and each equipped circuit is in one of them. -/
theorem sendInitGrs_resets (ls : Linkset) (s : Circuits) (hgrs : ls.grs = true) :
    ResetsRight ls s (sendInitGrs ls s) := by
  unfold sendInitGrs Linkset.cics
  rw [if_pos hgrs]
  rcases Nat.lt_or_ge ls.lastCic ls.firstCic with hempty | hle
  · have hnone : ls.lastCic + 1 - ls.firstCic = 0 := by omega
    rw [hnone]
    exact ⟨[], (List.append_nil s.out).symm, fun msg hmsg => absurd hmsg List.not_mem_nil,
      fun i hi => absurd (hi.1.trans hi.2.1) (Nat.not_le.2 hempty)⟩
  · obtain ⟨rows, hrows⟩ := @initGrs_rows ls s (ls.lastCic + 1 - ls.firstCic) (by omega)
    rcases hfirst : (List.foldl (initGrsRound ls) (s, none)
        (List.range' ls.firstCic (ls.lastCic + 1 - ls.firstCic))).2 with _ | f
    · rw [hfirst] at hrows
      exact hrows.right (by omega)
    · have hafter := (hrows.openRow f (hfirst ▸ Option.mem_some_self f)).2.2.2.2.1
      omega

theorem sendInitGrs_resets_one : someLinkset.grs = true ∧
    ResetsRight someLinkset oneEquipped (sendInitGrs someLinkset oneEquipped) :=
  ⟨rfl, sendInitGrs_resets someLinkset oneEquipped rfl⟩

end Group

end Isup

end Trismedia
