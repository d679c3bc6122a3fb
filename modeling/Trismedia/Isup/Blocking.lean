import Mathlib.Data.Nat.Bitwise
import Trismedia.Isup.Group
/-!
# What a group message changes

Each handler goes through the circuits of its range once, and what it does with
one of them depends on that circuit and on its bit of the status.
-/


namespace Trismedia

namespace Isup

namespace Group

open Mtp2 Isup.Union

/-- **The bit of the status** for a circuit of the range. -/
def marked (status : ℕ → Octet) (k : ℕ) : Bool := (status (k / 8)).toNat.testBit (k % 8)

variable {σ : Type*} {status : ℕ → Octet} {body : ℕ → Bool → σ → Option σ} {cic n k i : ℕ}
variable {s s' : Circuits} {inmsg : Received} {ls : Linkset} {pvt pvt' : Pvt}

/-! ## The loop -/

theorem and_two_pow_ne_zero {m : ℕ} : decide (n &&& 2 ^ m ≠ 0) = n.testBit m := by
  rw [Nat.and_two_pow]
  have hpos : 2 ^ m ≠ 0 := (Nat.two_pow_pos m).ne'
  cases n.testBit m with
  | true => exact decide_eq_true (by rw [Bool.toNat_true, Nat.one_mul]; exact hpos)
  | false => exact decide_eq_false (by rw [Bool.toNat_false, Nat.zero_mul, not_not])

/-- **The loop keeps what its body keeps**, from the `k`-th circuit on. -/
theorem forCircuits_from {P : ℕ → σ → Prop}
    (hbody : ∀ k < n, ∀ s, P k s → ∃ s', body (cic + k) (marked status k) s = some s' ∧ P (k + 1) s') :
    ∀ left k s, k + left = n → P k s →
      ∃ s', forCircuits status body left (cic + k) (k / 8) (2 ^ (k % 8)) s = some s' ∧ P n s' := by
  intro left
  induction left with
  | zero =>
    intro k s hk hP
    obtain rfl : k = n := hk
    exact ⟨s, rfl, hP⟩
  | succ left ih =>
    intro k s hk hP
    obtain ⟨s₁, hs₁, hP₁⟩ := hbody k (by omega) s hP
    obtain ⟨s', hs', hP'⟩ := ih (k + 1) s₁ (by omega) hP₁
    refine ⟨s', ?_, hP'⟩
    rw [forCircuits, and_two_pow_ne_zero, show (status (k / 8)).toNat.testBit (k % 8) =
      marked status k from rfl, hs₁, Option.bind_some]
    dsimp only
    rw [Nat.shiftLeft_eq, ← Nat.pow_succ]
    by_cases hlast : k % 8 = 7
    · -- the last bit of an octet
      have hdiv : (k + 1) / 8 = k / 8 + 1 := by omega
      have hmod : (k + 1) % 8 = 0 := by omega
      rw [hdiv, hmod] at hs'
      rw [hlast, if_pos (by decide)]
      exact hs'
    · have hdiv : (k + 1) / 8 = k / 8 := by omega
      have hmod : (k + 1) % 8 = k % 8 + 1 := by omega
      rw [hdiv, hmod] at hs'
      rw [if_neg]
      · exact hs'
      · intro heq
        have hpow : k % 8 + 1 = 8 := Nat.pow_right_injective (Nat.le_refl 2) heq
        omega

/-- **What becomes of each circuit**: the body does `f` to the one it is at. -/
theorem forCircuits_touched {body : ℕ → Bool → Circuits → Option Circuits} {f : ℕ → Pvt → Pvt}
    (hbody : ∀ k < n, ∀ s, ∃ s', body (cic + k) (marked status k) s = some s' ∧
      s'.cicList = Function.update s.cicList (cic + k) ((s.cicList (cic + k)).map (f k))) :
    ∃ s', forCircuits status body n cic 0 1 s = some s' ∧
      ∀ i, s'.cicList i =
        if cic ≤ i ∧ i < cic + n then (s.cicList i).map (f (i - cic)) else s.cicList i := by
  have hstep : ∀ k < n, ∀ t : Circuits,
      (∀ i, t.cicList i =
        if cic ≤ i ∧ i < cic + k then (s.cicList i).map (f (i - cic)) else s.cicList i) →
      ∃ t', body (cic + k) (marked status k) t = some t' ∧ ∀ i, t'.cicList i =
        if cic ≤ i ∧ i < cic + (k + 1) then (s.cicList i).map (f (i - cic)) else s.cicList i := by
    intro k hk t ht
    obtain ⟨t', ht', hlist⟩ := hbody k hk t
    refine ⟨t', ht', fun i => ?_⟩
    rw [hlist]
    by_cases hi : i = cic + k
    · rw [hi, Function.update_self, ht, if_neg (by omega), if_pos (by omega), Nat.add_sub_cancel_left]
    · rw [Function.update_of_ne hi, ht]
      exact if_congr (by omega) rfl rfl
  exact forCircuits_from hstep n 0 s (Nat.zero_add n) fun i => by rw [if_neg (by omega)]

/-! ## One circuit -/

/-- **What is asked of `blocked`** of a circuit in the range: the bit that the
type names is set or cleared where the circuit is marked, if it is equipped
where this end is to obey, and a GRA tells of circuits that are not reset yet. -/
def blockedAfter (cgsmti : ℕ) (isMarked : Bool) (pvt : Pvt) : MsgType → BitVec 32
  | .gra =>
    let blocked := pvt.blocked &&& ~~~(blUnequipped ||| blLh ||| blRh)
    if isMarked ∧ !pvt.resetDone then blocked ||| blRm else blocked
  | .cgb =>
    if isMarked ∧ pvt.equipped then pvt.blocked ||| (if cgsmti = 0 then blRm else blRh)
    else pvt.blocked
  | .cgu =>
    if isMarked ∧ pvt.equipped then pvt.blocked &&& ~~~(if cgsmti = 0 then blRm else blRh)
    else pvt.blocked
  | .cga => if isMarked then pvt.blocked ||| (if cgsmti = 0 then blLm else blLh) else pvt.blocked
  | .cua => if isMarked then pvt.blocked &&& ~~~(if cgsmti = 0 then blLm else blLh) else pvt.blocked
  | _ => pvt.blocked

/-- The range and the status of a message. -/
def rangeStatus : MsgType → ℕ
  | .gra => graRangeStatus.base
  | _ => cgbRangeStatus.base

/-- A circuit of the range. -/
def InRange (inmsg : Received) (i : ℕ) : Prop :=
  inmsg.header.cic ≤ i ∧ i < inmsg.header.cic + (rangeAt inmsg.union (rangeStatus inmsg.typ) + 1)

instance (inmsg : Received) (i : ℕ) : Decidable (InRange inmsg i) := inferInstanceAs (Decidable (_ ∧ _))

/-- The bit for a circuit of the range. -/
def markedIn (inmsg : Received) (i : ℕ) : Bool :=
  marked (statusAt inmsg.union (rangeStatus inmsg.typ)) (i - inmsg.header.cic)

/-- **What a group message changes**: `blocked` as above, and for a GRA that the
circuits of its range are reset. -/
structure GroupEffect (inmsg : Received) (s s' : Circuits) : Prop where
  exist : ∀ i, (s'.cicList i).isSome = (s.cicList i).isSome
  blocked : ∀ i pvt pvt', s.cicList i = some pvt → s'.cicList i = some pvt' →
    pvt'.blocked = if InRange inmsg i then
      blockedAfter (intAt inmsg.union cgbCgsmti.base) (markedIn inmsg i) pvt inmsg.typ
      else pvt.blocked
  equipped : ∀ i pvt pvt', s.cicList i = some pvt → s'.cicList i = some pvt' →
    pvt'.equipped = pvt.equipped
  reset : ∀ i pvt pvt', s.cicList i = some pvt → s'.cicList i = some pvt' →
    pvt'.resetDone = (pvt.resetDone || (inmsg.typ = .gra && InRange inmsg i))
  others : ∀ i, i ≠ inmsg.header.cic →
    ¬(InRange inmsg i ∧ (inmsg.typ = .gra ∨ markedIn inmsg i = true)) →
      s'.cicList i = s.cicList i

/-- **A message that is discarded**: its circuit is not there, or is not what the
type needs, or the range is not one for its type. -/
def Discarded (s : Circuits) (inmsg : Received) : Prop :=
  ∀ pvt, s.cicList inmsg.header.cic = some pvt →
    (pvt.equipped = false ∧ (inmsg.typ = .cgb ∨ inmsg.typ = .cgu)) ∨
    (pvt.equipped = true ∧ pvt.resetDone = false ∧ inmsg.typ ≠ .gra) ∨
    (inmsg.typ ≠ .gra ∧ (1 < intAt inmsg.union cgbCgsmti.base ∨
      groupRefused inmsg.header.cic (rangeAt inmsg.union (rangeStatus inmsg.typ))
        (statusAt inmsg.union (rangeStatus inmsg.typ)) = true))

/-- The effect, from what becomes of each circuit. -/
theorem groupEffect_of_map {h : ℕ → Pvt → Pvt} (hlist : ∀ i, s'.cicList i = (s.cicList i).map (h i))
    (hblocked : ∀ i pvt, (h i pvt).blocked = if InRange inmsg i then
      blockedAfter (intAt inmsg.union cgbCgsmti.base) (markedIn inmsg i) pvt inmsg.typ
      else pvt.blocked)
    (hequipped : ∀ i pvt, (h i pvt).equipped = pvt.equipped)
    (hreset : ∀ i pvt, (h i pvt).resetDone = (pvt.resetDone || (inmsg.typ = .gra && InRange inmsg i)))
    (hothers : ∀ i pvt, i ≠ inmsg.header.cic →
      ¬(InRange inmsg i ∧ (inmsg.typ = .gra ∨ markedIn inmsg i = true)) → h i pvt = pvt) :
    GroupEffect inmsg s s' := by
  have heq : ∀ i pvt pvt', s.cicList i = some pvt → s'.cicList i = some pvt' → pvt' = h i pvt := by
    intro i pvt pvt' hpvt hpvt'
    rw [hlist, hpvt] at hpvt'
    exact (Option.some.inj hpvt').symm
  refine ⟨fun i => ?_, ?_, ?_, ?_, fun i hi hnot => ?_⟩
  · rw [hlist, Option.isSome_map]
  · intro i pvt pvt' hpvt hpvt'
    rw [heq i pvt pvt' hpvt hpvt', hblocked]
  · intro i pvt pvt' hpvt hpvt'
    rw [heq i pvt pvt' hpvt hpvt', hequipped]
  · intro i pvt pvt' hpvt hpvt'
    rw [heq i pvt pvt' hpvt hpvt', hreset]
  · rw [hlist]
    rcases hpvt : s.cicList i with _ | pvt
    · rfl
    · rw [Option.map_some, hothers i pvt hi hnot]

/-! ## The circuits behind an operation -/

@[simp] theorem modify_cicList (f : Pvt → Pvt) :
    (s.modify i f).cicList = Function.update s.cicList i ((s.cicList i).map f) := rfl

/-- A write to one circuit, as it is for each of them. -/
def onlyAt (cic : ℕ) (g : Pvt → Pvt) (i : ℕ) (pvt : Pvt) : Pvt := if i = cic then g pvt else pvt

theorem modify_cicList_apply (g : Pvt → Pvt) :
    (s.modify cic g).cicList i = (s.cicList i).map (onlyAt cic g i) := by
  rw [modify_cicList]
  by_cases hi : i = cic
  · have hat : onlyAt cic g i = g := funext fun pvt => if_pos hi
    rw [hat, hi, Function.update_self]
  · have hat : onlyAt cic g i = id := funext fun pvt => if_neg hi
    rw [hat, Function.update_of_ne hi, Option.map_id_fun, id]

@[simp] theorem requestHangup_cicList (owner : Option ℕ) :
    (s.requestHangup owner).cicList = s.cicList := by
  cases owner <;> rfl

theorem lookup_of_lt (h : i < maxCic) : s.lookup i = some (s.cicList i) := if_pos h

/-- Two writes to one circuit. -/
theorem update_map_map (l : ℕ → Option Pvt) (f g : Pvt → Pvt) :
    Function.update (Function.update l i ((l i).map f)) i
        ((Function.update l i ((l i).map f) i).map g) =
      Function.update l i ((l i).map fun pvt => g (f pvt)) := by
  rw [Function.update_idem, Function.update_self, Option.map_map]
  rfl

theorem update_map_self (l : ℕ → Option Pvt) {f : Pvt → Pvt} (hf : ∀ pvt, l i = some pvt → f pvt = pvt) :
    Function.update l i ((l i).map f) = l := by
  rcases hpvt : l i with _ | pvt
  · rw [Option.map_none, ← hpvt, Function.update_eq_self]
  · rw [Option.map_some, hf pvt hpvt, ← hpvt, Function.update_eq_self]

/-- The timers that `release_circuit` clears. -/
def releaseTimers : List Timer :=
  [.t1, .t2, .t5, .t6, .t7, .t9, .t16, .t17, .t18, .t19, .t20, .t21, .t35]

theorem releaseCircuit_cicList : (s.releaseCircuit i).cicList =
    Function.update s.cicList i
      ((s.cicList i).map fun pvt => Pvt.clear releaseTimers { pvt with state := .idle }) := by
  unfold Circuits.releaseCircuit
  rcases hpvt : s.cicList i with _ | pvt
  · dsimp only
    rw [Option.map_none, ← hpvt, Function.update_eq_self]
  · dsimp only
    by_cases hidle : pvt.state ≠ .idle
    · rw [if_pos hidle, modify_cicList, requestHangup_cicList, modify_cicList, update_map_map, hpvt]
      rfl
    · have hstate : { pvt with state := .idle } = pvt := by rw [← not_not.1 hidle]
      rw [if_neg hidle, modify_cicList, hpvt, Option.map_some, Option.map_some, hstate]
      rfl

theorem freeCic_cicList : (s.freeCic i).cicList =
    Function.update s.cicList i
      ((s.cicList i).map fun pvt => { pvt with state := .idle, owner := none }) := by
  unfold Circuits.freeCic Circuits.addToIdlelist
  split_ifs <;> rfl

/-! ## The handlers -/

/-- What `process_gra` does to a circuit of its range. -/
def graPvt (isMarked : Bool) (pvt : Pvt) : Pvt :=
  let pvt := { pvt with blocked := pvt.blocked &&& ~~~(blUnequipped ||| blLh ||| blRh) }
  if pvt.resetDone then pvt
  else
    { pvt with
      blocked := if isMarked then pvt.blocked ||| blRm else pvt.blocked
      resetDone := true }

/-- What `process_cgb` does to a marked circuit that is equipped. -/
def cgbPvt (blockmask : BitVec 32) (pvt : Pvt) : Pvt :=
  let pvt := { pvt with blocked := pvt.blocked ||| blockmask }
  if pvt.state = .sentIam then { Pvt.clear releaseTimers pvt with state := .idle, owner := none }
  else pvt

theorem graPvt_blocked (isMarked : Bool) : (graPvt isMarked pvt).blocked =
    if isMarked ∧ !pvt.resetDone then
      pvt.blocked &&& ~~~(blUnequipped ||| blLh ||| blRh) ||| blRm
    else pvt.blocked &&& ~~~(blUnequipped ||| blLh ||| blRh) := by
  unfold graPvt
  dsimp only
  cases pvt.resetDone <;> cases isMarked <;> rfl

theorem graPvt_resetDone (isMarked : Bool) : (graPvt isMarked pvt).resetDone = true := by
  unfold graPvt
  dsimp only
  cases hreset : pvt.resetDone with
  | true => rfl
  | false => cases isMarked <;> rfl

theorem graPvt_equipped (isMarked : Bool) : (graPvt isMarked pvt).equipped = pvt.equipped := by
  unfold graPvt
  dsimp only
  split_ifs <;> rfl

/-- **A GRA** whose range ends in the list. -/
theorem processGra_effect (htyp : inmsg.typ = .gra)
    (hrange : inmsg.header.cic + rangeAt inmsg.union graRangeStatus.base < maxCic) :
    ∃ s', processGra s inmsg = some (some s') ∧ GroupEffect inmsg s s' := by
  have hstatus : rangeStatus inmsg.typ = graRangeStatus.base := by rw [htyp]; rfl
  obtain ⟨s', hloop, hlist⟩ := @forCircuits_touched (statusAt inmsg.union graRangeStatus.base)
    inmsg.header.cic (rangeAt inmsg.union graRangeStatus.base + 1)
    (s.modify inmsg.header.cic fun pvt => { pvt.clear [.t22, .t23] with grsCount := -1 })
    graBody (fun k => graPvt (marked (statusAt inmsg.union graRangeStatus.base) k)) (by
      intro k hk t
      refine ⟨t.modify (inmsg.header.cic + k) (graPvt _), ?_, rfl⟩
      rw [graBody, lookup_of_lt (by omega)]
      rfl)
  have hrun : processGra s inmsg = some (some s') := by
    unfold processGra
    rw [if_neg (by omega), show some (some s') = (some s').map some from rfl, ← hloop]
  -- the circuit of the message is written to in front of the loop as well
  let first : ℕ → Pvt → Pvt :=
    onlyAt inmsg.header.cic fun pvt => { pvt.clear [.t22, .t23] with grsCount := -1 }
  have hkeeps : ∀ i pvt, (first i pvt).blocked = pvt.blocked ∧
      (first i pvt).equipped = pvt.equipped ∧ (first i pvt).resetDone = pvt.resetDone := by
    intro i pvt
    dsimp only [first, onlyAt]
    split_ifs <;> exact ⟨rfl, rfl, rfl⟩
  refine ⟨s', hrun, groupEffect_of_map (h := fun i pvt =>
    if InRange inmsg i then graPvt (markedIn inmsg i) (first i pvt) else first i pvt)
    (fun i => ?_) (fun i pvt => ?_) (fun i pvt => ?_) (fun i pvt => ?_) fun i pvt hi hnot => ?_⟩
  · have hin : InRange inmsg i ↔ inmsg.header.cic ≤ i ∧
        i < inmsg.header.cic + (rangeAt inmsg.union graRangeStatus.base + 1) := by
      rw [InRange, hstatus]
    rw [hlist, modify_cicList_apply]
    simp only [hin]
    by_cases hrange : inmsg.header.cic ≤ i ∧
        i < inmsg.header.cic + (rangeAt inmsg.union graRangeStatus.base + 1)
    · simp only [if_pos hrange, markedIn, hstatus, Option.map_map]
      rfl
    · simp only [if_neg hrange]
      rfl
  · obtain ⟨hblocked, -, hreset⟩ := hkeeps i pvt
    by_cases hin : InRange inmsg i
    · rw [if_pos hin, if_pos hin, graPvt_blocked, hblocked, hreset, htyp]
      rfl
    · rw [if_neg hin, if_neg hin, hblocked]
  · obtain ⟨-, hequipped, -⟩ := hkeeps i pvt
    split_ifs
    · rw [graPvt_equipped, hequipped]
    · exact hequipped
  · obtain ⟨-, -, hreset⟩ := hkeeps i pvt
    by_cases hin : InRange inmsg i
    · rw [if_pos hin, graPvt_resetDone, htyp, decide_eq_true hin, decide_eq_true rfl, Bool.and_true,
        Bool.or_true]
    · rw [if_neg hin, hreset, decide_eq_false hin, Bool.and_false, Bool.or_false]
  · rw [if_neg fun hin => hnot ⟨hin, Or.inl htyp⟩]
    exact if_neg hi

/-- **The other handlers**: `f` is what they do to a marked circuit, `g` what
they do to the circuit of the message behind the loop. -/
theorem groupEffect_of_marked {f g : Pvt → Pvt} {body : ℕ → Bool → Circuits → Option Circuits}
    (htyp : inmsg.typ ≠ .gra)
    (hrange : inmsg.header.cic + rangeAt inmsg.union (rangeStatus inmsg.typ) < maxCic)
    (hbody : ∀ i < maxCic, ∀ isMarked s, ∃ s', body i isMarked s = some s' ∧
      s'.cicList = Function.update s.cicList i
        ((s.cicList i).map fun pvt => if isMarked then f pvt else pvt))
    (hf : ∀ pvt, (f pvt).blocked =
        blockedAfter (intAt inmsg.union cgbCgsmti.base) true pvt inmsg.typ ∧
      (f pvt).equipped = pvt.equipped ∧ (f pvt).resetDone = pvt.resetDone)
    (hg : ∀ pvt, (g pvt).blocked = pvt.blocked ∧ (g pvt).equipped = pvt.equipped ∧
      (g pvt).resetDone = pvt.resetDone) :
    ∃ s', forCircuits (statusAt inmsg.union (rangeStatus inmsg.typ)) body
        (rangeAt inmsg.union (rangeStatus inmsg.typ) + 1) inmsg.header.cic 0 1 s = some s' ∧
      ∀ t : Circuits, t.cicList = (s'.modify inmsg.header.cic g).cicList → GroupEffect inmsg s t := by
  obtain ⟨s', hloop, hlist⟩ := @forCircuits_touched (statusAt inmsg.union (rangeStatus inmsg.typ))
    inmsg.header.cic (rangeAt inmsg.union (rangeStatus inmsg.typ) + 1) s body
    (fun k pvt => if marked (statusAt inmsg.union (rangeStatus inmsg.typ)) k then f pvt else pvt)
    fun k hk t => hbody _ (by omega) _ t
  have hunmarked : ∀ cgsmti pvt, blockedAfter cgsmti false pvt inmsg.typ = pvt.blocked := by
    intro cgsmti pvt
    cases hcase : inmsg.typ
    case gra => exact absurd hcase htyp
    all_goals rfl
  let step : ℕ → Pvt → Pvt := fun i pvt =>
    if InRange inmsg i ∧ markedIn inmsg i = true then f pvt else pvt
  have hkeeps : ∀ i pvt, (step i pvt).equipped = pvt.equipped ∧
      (step i pvt).resetDone = pvt.resetDone := by
    intro i pvt
    dsimp only [step]
    split_ifs
    · exact (hf pvt).2
    · exact ⟨rfl, rfl⟩
  have hat : ∀ i pvt, (onlyAt inmsg.header.cic g i pvt).blocked = pvt.blocked ∧
      (onlyAt inmsg.header.cic g i pvt).equipped = pvt.equipped ∧
        (onlyAt inmsg.header.cic g i pvt).resetDone = pvt.resetDone := by
    intro i pvt
    unfold onlyAt
    split_ifs
    · exact hg pvt
    · exact ⟨rfl, rfl, rfl⟩
  refine ⟨s', hloop, fun t ht => groupEffect_of_map
    (h := fun i pvt => onlyAt inmsg.header.cic g i (step i pvt)) (fun i => ?_) (fun i pvt => ?_)
    (fun i pvt => ?_) (fun i pvt => ?_) fun i pvt hi hnot => ?_⟩
  · have hin : s'.cicList i = if InRange inmsg i then
        (s.cicList i).map (fun pvt => if markedIn inmsg i = true then f pvt else pvt)
        else s.cicList i := hlist i
    have hstep : s'.cicList i = (s.cicList i).map (step i) := by
      rw [hin]
      by_cases hin : InRange inmsg i
      · have hall : step i = fun pvt => if markedIn inmsg i = true then f pvt else pvt :=
          funext fun pvt => if_congr (and_iff_right hin) rfl rfl
        rw [if_pos hin, hall]
      · have hall : step i = id := funext fun pvt => if_neg fun h => hin h.1
        rw [if_neg hin, hall, Option.map_id_fun, id]
    rw [ht, modify_cicList_apply, hstep, Option.map_map]
    rfl
  · rw [(hat i _).1]
    dsimp only [step]
    by_cases hin : InRange inmsg i
    · by_cases hmark : markedIn inmsg i = true
      · rw [if_pos ⟨hin, hmark⟩, if_pos hin, hmark, (hf pvt).1]
      · rw [if_neg fun h => hmark h.2, if_pos hin, Bool.eq_false_of_not_eq_true hmark, hunmarked]
    · rw [if_neg fun h => hin h.1, if_neg hin]
  · rw [(hat i _).2.1, (hkeeps i pvt).1]
  · rw [(hat i _).2.2, (hkeeps i pvt).2, decide_eq_false htyp, Bool.false_and, Bool.or_false]
  · have hsame : step i pvt = pvt := if_neg fun h => hnot ⟨h.1, Or.inr h.2⟩
    rw [hsame]
    exact if_neg hi

theorem cgbPvt_keeps (blockmask : BitVec 32) : (cgbPvt blockmask pvt).blocked = pvt.blocked ||| blockmask ∧
    (cgbPvt blockmask pvt).equipped = pvt.equipped ∧
      (cgbPvt blockmask pvt).resetDone = pvt.resetDone := by
  unfold cgbPvt
  dsimp only
  split_ifs <;> exact ⟨rfl, rfl, rfl⟩

/-- The indicator of a group is one of two. -/
theorem masks_of_le {cgsmti : ℕ} (h : cgsmti ≤ 1) :
    remoteMask cgsmti = some (if cgsmti = 0 then blRm else blRh) ∧
      localMask cgsmti = some (if cgsmti = 0 then blLm else blLh) := by
  obtain rfl | rfl : cgsmti = 0 ∨ cgsmti = 1 := by omega
  · exact ⟨rfl, rfl⟩
  · exact ⟨rfl, rfl⟩

theorem masks_of_lt {cgsmti : ℕ} (h : 1 < cgsmti) :
    remoteMask cgsmti = none ∧ localMask cgsmti = none := by
  obtain ⟨k, rfl⟩ : ∃ k, cgsmti = k + 2 := ⟨cgsmti - 2, by omega⟩
  exact ⟨rfl, rfl⟩

theorem lt_of_not_refused {range : ℕ} (h : ¬groupRefused cic range status = true) :
    cic + range < maxCic := by
  by_contra hge
  refine h (decide_eq_true ?_)
  exact Or.inr (Or.inr (Or.inl (by omega)))

/-- A body that does nothing to the circuits. -/
theorem cicList_eq_update {f : Pvt → Pvt} (hf : ∀ pvt, s.cicList i = some pvt → f pvt = pvt) :
    s.cicList = Function.update s.cicList i ((s.cicList i).map f) :=
  (update_map_self s.cicList hf).symm

/-- What a GRA does not have to pass. -/
def Passes (inmsg : Received) : Prop :=
  intAt inmsg.union cgbCgsmti.base ≤ 1 ∧
    groupRefused inmsg.header.cic (rangeAt inmsg.union (rangeStatus inmsg.typ))
      (statusAt inmsg.union (rangeStatus inmsg.typ)) ≠ true

theorem cgbBody_spec (blockmask : BitVec 32) (hi : i < maxCic) (isMarked : Bool) :
    ∃ s', cgbBody blockmask i isMarked s = some s' ∧
      s'.cicList = Function.update s.cicList i ((s.cicList i).map fun pvt =>
        if isMarked then if pvt.equipped then cgbPvt blockmask pvt else pvt else pvt) := by
  unfold cgbBody
  cases isMarked with
  | false => exact ⟨s, rfl, cicList_eq_update fun _ _ => rfl⟩
  | true =>
    rw [if_pos rfl, lookup_of_lt hi, Option.map_some]
    refine ⟨_, rfl, ?_⟩
    rcases hpvt : s.cicList i with _ | pvt
    · dsimp only
      rw [Option.map_none, ← hpvt, Function.update_eq_self]
    dsimp only
    rw [Option.map_some, if_pos rfl]
    by_cases hequipped : pvt.equipped = true
    · rw [hequipped, Bool.not_true, if_neg Bool.false_ne_true, if_pos rfl, cgbPvt]
      by_cases hstate : pvt.state = .sentIam
      · rw [if_pos hstate, if_pos hstate, freeCic_cicList, releaseCircuit_cicList,
          requestHangup_cicList, modify_cicList, update_map_map, update_map_map, hpvt]
        rfl
      · rw [if_neg hstate, if_neg hstate, modify_cicList, hpvt]
        rfl
    · rw [Bool.eq_false_of_not_eq_true hequipped, Bool.not_false, if_pos rfl,
        if_neg Bool.false_ne_true, ← hpvt, Function.update_eq_self]

theorem cguBody_spec (blockmask : BitVec 32) (hi : i < maxCic) (isMarked : Bool) :
    ∃ s', cguBody blockmask i isMarked s = some s' ∧
      s'.cicList = Function.update s.cicList i ((s.cicList i).map fun pvt =>
        if isMarked then
          if pvt.equipped then { pvt with blocked := pvt.blocked &&& ~~~blockmask } else pvt
        else pvt) := by
  unfold cguBody
  cases isMarked with
  | false => exact ⟨s, rfl, cicList_eq_update fun _ _ => rfl⟩
  | true =>
    rw [if_pos rfl, lookup_of_lt hi, Option.map_some]
    refine ⟨_, rfl, ?_⟩
    rcases hpvt : s.cicList i with _ | pvt
    · dsimp only
      rw [Option.map_none, ← hpvt, Function.update_eq_self]
    dsimp only
    rw [Option.map_some, if_pos rfl]
    by_cases hequipped : pvt.equipped = true
    · rw [if_neg (by rw [hequipped]; exact Bool.false_ne_true), if_pos hequipped, modify_cicList,
        hpvt]
      rfl
    · rw [Bool.eq_false_of_not_eq_true hequipped, Bool.not_false, if_pos rfl,
        if_neg Bool.false_ne_true, ← hpvt, Function.update_eq_self]

theorem ackBody_spec (change : BitVec 32 → BitVec 32) (hi : i < maxCic) (isMarked : Bool) :
    ∃ s', ackBody change i isMarked s = some s' ∧
      s'.cicList = Function.update s.cicList i ((s.cicList i).map fun pvt =>
        if isMarked then { pvt with blocked := change pvt.blocked } else pvt) := by
  unfold ackBody
  cases isMarked with
  | false => exact ⟨s, rfl, cicList_eq_update fun _ _ => rfl⟩
  | true =>
    rw [if_pos rfl, lookup_of_lt hi, Option.map_some]
    exact ⟨_, rfl, rfl⟩

theorem checked_of_passes {mask : Option (BitVec 32)} {refused : Bool} {handle : BitVec 32 → Handled}
    {blockmask : BitVec 32} (hmask : mask = some blockmask) (hrefused : refused ≠ true) :
    checked mask refused handle = handle blockmask := by
  rw [hmask]
  exact if_neg hrefused

theorem processCgb_effect (htyp : inmsg.typ = .cgb) (hpasses : Passes inmsg) :
    ∃ s', processCgb ls s inmsg = some (some s') ∧ GroupEffect inmsg s s' := by
  obtain ⟨hcgsmti, hrefused⟩ := hpasses
  obtain ⟨hmask, -⟩ := masks_of_le hcgsmti
  have hstatus : rangeStatus inmsg.typ = cgbRangeStatus.base := by rw [htyp]; rfl
  obtain ⟨s', hloop, heffect⟩ := groupEffect_of_marked (s := s) (g := id)
    (by rw [htyp]; decide) (lt_of_not_refused hrefused)
    (fun i hi isMarked t => @cgbBody_spec i t
      (if intAt inmsg.union cgbCgsmti.base = 0 then blRm else blRh) hi isMarked)
    (fun pvt => by
      rw [htyp]
      obtain ⟨hblocked, hequipped, hreset⟩ := @cgbPvt_keeps pvt
        (if intAt inmsg.union cgbCgsmti.base = 0 then blRm else blRh)
      by_cases hpvt : pvt.equipped = true
      · rw [if_pos hpvt]
        exact ⟨hblocked.trans (if_pos ⟨rfl, hpvt⟩).symm, hequipped, hreset⟩
      · rw [if_neg hpvt]
        exact ⟨(if_neg fun h => hpvt h.2).symm, rfl, rfl⟩)
    (fun pvt => ⟨rfl, rfl, rfl⟩)
  rw [hstatus] at hloop hrefused
  have hreply : ∀ msg, (s'.enqueue msg).cicList = (s'.modify inmsg.header.cic id).cicList :=
    fun _ => cicList_eq_update fun _ _ => rfl
  refine ⟨s'.enqueue (groupReply ls .cga inmsg (rangeAt inmsg.union cgbRangeStatus.base)
    (intAt inmsg.union cgbCgsmti.base) (statusAt inmsg.union cgbRangeStatus.base)), ?_,
    heffect _ (hreply _)⟩
  unfold processCgb
  rw [checked_of_passes hmask hrefused, hloop]
  rfl

theorem processCgu_effect (htyp : inmsg.typ = .cgu) (hpasses : Passes inmsg) :
    ∃ s', processCgu ls s inmsg = some (some s') ∧ GroupEffect inmsg s s' := by
  obtain ⟨hcgsmti, hrefused⟩ := hpasses
  obtain ⟨hmask, -⟩ := masks_of_le hcgsmti
  have hstatus : rangeStatus inmsg.typ = cgbRangeStatus.base := by rw [htyp]; rfl
  obtain ⟨s', hloop, heffect⟩ := groupEffect_of_marked (s := s) (g := id)
    (by rw [htyp]; decide) (lt_of_not_refused hrefused)
    (fun i hi isMarked t => @cguBody_spec i t
      (if intAt inmsg.union cgbCgsmti.base = 0 then blRm else blRh) hi isMarked)
    (fun pvt => by
      rw [htyp]
      by_cases hpvt : pvt.equipped = true
      · rw [if_pos hpvt]
        exact ⟨(if_pos ⟨rfl, hpvt⟩).symm, rfl, rfl⟩
      · rw [if_neg hpvt]
        exact ⟨(if_neg fun h => hpvt h.2).symm, rfl, rfl⟩)
    (fun pvt => ⟨rfl, rfl, rfl⟩)
  rw [hstatus] at hloop hrefused
  have hreply : ∀ msg, (s'.enqueue msg).cicList = (s'.modify inmsg.header.cic id).cicList :=
    fun _ => cicList_eq_update fun _ _ => rfl
  refine ⟨s'.enqueue (groupReply ls .cua inmsg (rangeAt inmsg.union cgbRangeStatus.base)
    (intAt inmsg.union cgbCgsmti.base) (statusAt inmsg.union cgbRangeStatus.base)), ?_,
    heffect _ (hreply _)⟩
  refine (checked_of_passes hmask hrefused).trans ?_
  rw [show cguRangeStatus.base = cgbRangeStatus.base from rfl, hloop]
  rfl

/-- **The acknowledgements** of a blocking and of an unblocking. -/
theorem processAck_effect {change : BitVec 32 → BitVec 32 → BitVec 32} {ts : List Timer}
    (htyp : inmsg.typ = .cga ∧ change = (· ||| ·) ∨ inmsg.typ = .cua ∧ change = fun b m => b &&& ~~~m)
    (hpasses : Passes inmsg) :
    ∃ s', processAck change ts s inmsg = some (some s') ∧ GroupEffect inmsg s s' := by
  obtain ⟨hcgsmti, hrefused⟩ := hpasses
  obtain ⟨-, hmask⟩ := masks_of_le hcgsmti
  have hstatus : rangeStatus inmsg.typ = cgbRangeStatus.base := by
    rcases htyp with ⟨htyp, -⟩ | ⟨htyp, -⟩ <;> rw [htyp] <;> rfl
  obtain ⟨s', hloop, heffect⟩ := groupEffect_of_marked (s := s) (g := Pvt.clear ts)
    (by rcases htyp with ⟨htyp, -⟩ | ⟨htyp, -⟩ <;> rw [htyp] <;> decide) (lt_of_not_refused hrefused)
    (fun i hi isMarked t => @ackBody_spec i t
      (change · (if intAt inmsg.union cgbCgsmti.base = 0 then blLm else blLh)) hi isMarked)
    (fun pvt => by
      rcases htyp with ⟨htyp, rfl⟩ | ⟨htyp, rfl⟩ <;> rw [htyp] <;> exact ⟨rfl, rfl, rfl⟩)
    (fun pvt => ⟨rfl, rfl, rfl⟩)
  rw [hstatus] at hloop hrefused
  refine ⟨s'.modify inmsg.header.cic (Pvt.clear ts), ?_, heffect _ rfl⟩
  unfold processAck
  rw [checked_of_passes hmask hrefused, hloop]
  rfl

/-- Each of the four either passes or discards the message. -/
theorem refused_of_not_passes (h : ¬Passes inmsg) : 1 < intAt inmsg.union cgbCgsmti.base ∨
    groupRefused inmsg.header.cic (rangeAt inmsg.union (rangeStatus inmsg.typ))
      (statusAt inmsg.union (rangeStatus inmsg.typ)) = true := by
  by_contra hnot
  rw [not_or] at hnot
  exact h ⟨Nat.le_of_not_lt hnot.1, hnot.2⟩

theorem checked_of_not {mask : Option (BitVec 32)} {refused : Bool} {handle : BitVec 32 → Handled}
    (h : mask = none ∨ refused = true) : checked mask refused handle = some none := by
  cases mask with
  | none => rfl
  | some blockmask =>
    rcases h with h | h
    · exact absurd h (Option.some_ne_none _)
    · exact if_pos h

/-- The handler of each type passes what its checks pass. -/
theorem groupHandler_effect (htyp : inmsg.typ ∈ [MsgType.cgb, .cgu, .cga, .cua])
    (hpasses : Passes inmsg) :
    ∃ s', groupHandler ls s inmsg = some (some s') ∧ GroupEffect inmsg s s' := by
  simp only [List.mem_cons, List.not_mem_nil, or_false] at htyp
  unfold groupHandler
  rcases htyp with htyp | htyp | htyp | htyp <;> rw [htyp]
  · exact processCgb_effect htyp hpasses
  · exact processCgu_effect htyp hpasses
  · exact processAck_effect (Or.inl ⟨htyp, rfl⟩) hpasses
  · exact processAck_effect (Or.inr ⟨htyp, rfl⟩) hpasses

/-- And discards the rest. -/
theorem groupHandler_discards (htyp : inmsg.typ ∈ [MsgType.cgb, .cgu, .cga, .cua])
    (hpasses : ¬Passes inmsg) : groupHandler ls s inmsg = some none := by
  have hrefused := refused_of_not_passes hpasses
  have hmask : (remoteMask (intAt inmsg.union cgbCgsmti.base) = none ∧
      localMask (intAt inmsg.union cgbCgsmti.base) = none) ∨
      groupRefused inmsg.header.cic (rangeAt inmsg.union (rangeStatus inmsg.typ))
        (statusAt inmsg.union (rangeStatus inmsg.typ)) = true := hrefused.imp_left masks_of_lt
  simp only [List.mem_cons, List.not_mem_nil, or_false] at htyp
  unfold groupHandler
  rcases htyp with htyp | htyp | htyp | htyp <;> rw [htyp] at hmask ⊢
  · exact checked_of_not (hmask.imp_left And.left)
  · exact checked_of_not (hmask.imp_left And.left)
  · exact checked_of_not (hmask.imp_left And.right)
  · exact checked_of_not (hmask.imp_left And.right)

/-- A circuit that is equipped and reset, and one that is not equipped. -/
def oneEquipped : Circuits where
  cicList cic :=
    if cic = 0 then some ⟨none, true, true, 0, .idle, -1, 0, fun _ => false⟩
    else if cic = 1 then some ⟨none, false, false, 0, .idle, -1, 0, fun _ => false⟩
    else none
  idleList := [0]
  out := []

theorem one_lt_itu : 1 < 2 ^ (if Ss7Variant.itu = .itu then 14 else 24) := by decide

theorem two_lt_itu : 2 < 2 ^ (if Ss7Variant.itu = .itu then 14 else 24) := by decide

theorem one_lt_maxCic : 1 < maxCic := by decide

/-- A linkset, and a message to block the circuits 0 and 1. -/
def someLinkset : Linkset where
  variant := .itu
  opc := 1
  dpc := 2
  grs := true
  firstCic := 0
  lastCic := 1
  opc_lt := one_lt_itu
  dpc_lt := two_lt_itu
  lastCic_lt := one_lt_maxCic

def cgbBoth : List Octet := [0, 0, 0, 0, 0, 0, 0x18, 0, 1, 2, 1, 3]

/-- What is received of it. -/
def cgbReceived : Received := ((received .itu cgbBoth).getD ⟨⟨0, 0, 0, 0, 0⟩, .iam, fun _ => 0⟩)

theorem cgbReceived_typ : cgbReceived.typ = .cgb := by decide +kernel

end Group

end Isup

end Trismedia
