import Mathlib.Algebra.Order.Ring.Int
import Mathlib.Tactic.Ring
import Trismedia.Common.CInt
/-!
# Times of day

`struct timeval` and the functions of `trismedia/time.h` and
`main/utils.c` the scheduler computes with. `micros` reads a `timeval` as
a number of microseconds; on normalised values the comparison and the sum
of the source are those of the numbers.
-/


namespace Trismedia

namespace Sched

/-- `struct timeval` -/
structure Timeval where
  tvSec : ℤ
  tvUsec : ℤ
  deriving DecidableEq, Repr

def oneMillion : ℤ := 1000000

def trisTv (sec usec : ℤ) : Timeval := ⟨sec, usec⟩

/-- `tvfix`: too many microseconds are carried over, too few forgotten. -/
def tvfix (a : Timeval) : Timeval :=
  if a.tvUsec ≥ oneMillion then
    ⟨a.tvSec + a.tvUsec / oneMillion, a.tvUsec % oneMillion⟩
  else if a.tvUsec < 0 then { a with tvUsec := 0 }
  else a

def trisTvadd (a b : Timeval) : Timeval :=
  let a := tvfix a
  let b := tvfix b
  let sum : Timeval := ⟨a.tvSec + b.tvSec, a.tvUsec + b.tvUsec⟩
  if sum.tvUsec ≥ oneMillion then ⟨sum.tvSec + 1, sum.tvUsec - oneMillion⟩ else sum

def trisTvcmp (a b : Timeval) : ℤ :=
  if a.tvSec < b.tvSec then -1
  else if a.tvSec > b.tvSec then 1
  else if a.tvUsec < b.tvUsec then -1
  else if a.tvUsec > b.tvUsec then 1
  else 0

def trisTvzero (t : Timeval) : Bool := t.tvSec = 0 ∧ t.tvUsec = 0

/-- `tris_samp2tv`. The product stays below `4000000`, so none of the
`unsigned` operations wraps. -/
def trisSamp2tv (nsamp rate : ℕ) : Timeval :=
  trisTv (nsamp / rate : ℕ) ((nsamp % rate * (4000000 / rate)) / 4 : ℕ)

/-- `tris_tvdiff_ms`: the difference is a `long`, and returned as an `int`. -/
def trisTvdiffMs (finish start : Timeval) : ℤ :=
  CInt.wrapInt ((finish.tvSec - start.tvSec) * 1000 +
    ((1000000 + finish.tvUsec - start.tvUsec).tdiv 1000 - 1000))

/-- An `int` passed for an `unsigned int`. -/
def toUnsigned (n : ℤ) : ℕ := (n % 2 ^ 32).toNat

/-- The microseconds are below a million. -/
structure Timeval.Normal (t : Timeval) : Prop where
  nonneg : 0 ≤ t.tvUsec
  lt : t.tvUsec < oneMillion

/-- **What `gettimeofday` gives**: a normalised time since the epoch. -/
structure Clock where
  tv : Timeval
  normal : tv.Normal
  sec_nonneg : 0 ≤ tv.tvSec

def Timeval.micros (t : Timeval) : ℤ := t.tvSec * oneMillion + t.tvUsec

variable {a b : Timeval}

theorem Clock.micros_nonneg (now : Clock) : 0 ≤ now.tv.micros := by
  have h1 := now.normal.nonneg
  have h2 := now.sec_nonneg
  unfold Timeval.micros oneMillion
  omega

/-! ## The comparison -/

theorem trisTvcmp_flip (a b : Timeval) : trisTvcmp a b < 0 ↔ 0 < trisTvcmp b a := by
  unfold trisTvcmp
  split_ifs <;> omega

theorem trisTvcmp_trans (a b c : Timeval) (hab : trisTvcmp a b ≤ 0) (hbc : trisTvcmp b c ≤ 0) :
    trisTvcmp a c ≤ 0 := by
  unfold trisTvcmp at *
  split_ifs at * <;> omega

theorem trisTvcmp_lt_of_le_of_lt {a b c : Timeval} (hab : trisTvcmp a b ≤ 0)
    (hbc : trisTvcmp b c < 0) : trisTvcmp a c < 0 := by
  unfold trisTvcmp at *
  split_ifs at * <;> omega

/-- The comparison says `-1` exactly when it is negative. -/
theorem trisTvcmp_eq_neg_one : trisTvcmp a b = -1 ↔ trisTvcmp a b < 0 := by
  unfold trisTvcmp
  split_ifs <;> simp

theorem trisTvcmp_neg_iff (ha : a.Normal) (hb : b.Normal) :
    trisTvcmp a b < 0 ↔ a.micros < b.micros := by
  have ha0 := ha.nonneg
  have ha1 := ha.lt
  have hb0 := hb.nonneg
  have hb1 := hb.lt
  unfold Timeval.micros oneMillion at *
  unfold trisTvcmp
  split_ifs <;> omega

theorem trisTvcmp_nonpos_iff (ha : a.Normal) (hb : b.Normal) :
    trisTvcmp a b ≤ 0 ↔ a.micros ≤ b.micros := by
  have hflip := trisTvcmp_flip b a
  have hneg := trisTvcmp_neg_iff hb ha
  omega

theorem trisTvzero_iff (ha : a.Normal) : trisTvzero a = true ↔ a.micros = 0 := by
  have ha0 := ha.nonneg
  have ha1 := ha.lt
  unfold Timeval.micros oneMillion at *
  unfold trisTvzero
  rw [decide_eq_true_iff]
  omega

/-! ## The sum -/

theorem tvfix_of_normal (ha : a.Normal) : tvfix a = a := by
  have ha0 := ha.nonneg
  have ha1 := ha.lt
  rw [tvfix, if_neg (by omega), if_neg (by omega)]

theorem trisTvadd_normal (ha : a.Normal) (hb : b.Normal) : (trisTvadd a b).Normal := by
  have ha0 := ha.nonneg
  have ha1 := ha.lt
  have hb0 := hb.nonneg
  have hb1 := hb.lt
  simp only [trisTvadd, tvfix_of_normal ha, tvfix_of_normal hb]
  unfold oneMillion at *
  split_ifs
  · exact ⟨by dsimp only; omega, by unfold oneMillion; dsimp only; omega⟩
  · exact ⟨by dsimp only; omega, by unfold oneMillion; dsimp only; omega⟩

theorem trisTvadd_sec_nonneg (ha : a.Normal) (ha0 : 0 ≤ a.tvSec) (hb : b.Normal)
    (hb0 : 0 ≤ b.tvSec) : 0 ≤ (trisTvadd a b).tvSec := by
  simp only [trisTvadd, tvfix_of_normal ha, tvfix_of_normal hb]
  split_ifs
  · dsimp only
    omega
  · dsimp only
    omega

theorem trisTvadd_micros (ha : a.Normal) (hb : b.Normal) :
    (trisTvadd a b).micros = a.micros + b.micros := by
  simp only [trisTvadd, tvfix_of_normal ha, tvfix_of_normal hb]
  unfold Timeval.micros oneMillion
  split_ifs <;> dsimp only <;> ring

/-! ## Milliseconds -/

theorem trisSamp2tv_normal (n : ℕ) : (trisSamp2tv n 1000).Normal := by
  constructor <;> unfold trisSamp2tv trisTv <;> dsimp only
  · omega
  · unfold oneMillion
    omega

theorem trisSamp2tv_sec_nonneg (n : ℕ) : 0 ≤ (trisSamp2tv n 1000).tvSec := by
  unfold trisSamp2tv trisTv
  dsimp only
  omega

/-- At the rate `1000` the samples are milliseconds. -/
theorem trisSamp2tv_micros (n : ℕ) : (trisSamp2tv n 1000).micros = 1000 * n := by
  unfold trisSamp2tv trisTv Timeval.micros oneMillion
  dsimp only
  omega

/-- The milliseconds are rounded down. -/
theorem trisTvdiffMs_eq (ha : a.Normal) (hb : b.Normal) :
    trisTvdiffMs a b = CInt.wrapInt ((a.micros - b.micros) / 1000) := by
  have ha0 := ha.nonneg
  have hb1 := hb.lt
  unfold Timeval.micros oneMillion at *
  rw [trisTvdiffMs, Int.tdiv_eq_ediv_of_nonneg (by omega)]
  exact congrArg CInt.wrapInt (by omega)

theorem toUnsigned_of_nonneg {n : ℤ} (h0 : 0 ≤ n) (h : n < 2 ^ 31) : (toUnsigned n : ℤ) = n := by
  unfold toUnsigned
  omega

/-- A negative `int` is taken for a large number. -/
theorem toUnsigned_of_neg {n : ℤ} (h0 : n < 0) (h : -2 ^ 31 ≤ n) :
    (toUnsigned n : ℤ) = n + 2 ^ 32 := by
  unfold toUnsigned
  omega

end Sched

end Trismedia
