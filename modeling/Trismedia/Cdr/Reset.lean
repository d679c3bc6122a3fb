import Mathlib.Data.List.Forall2
import Trismedia.Sched.Time
/-!
# The reset of a chain of call detail records

`tris_cdr_reset` of `main/cdr.c`, with `tris_cdr_end`, `tris_cdr_start` and
`tris_cdr_dup`. For each record that it resets it calls the first two, and
these go over all that is behind the record too: they end records that are
not reset, and they start anew records that are still to be posted. There is
memory for the copies. A duplicate is what `tris_cdr_detach` is given.
-/


namespace Trismedia

namespace Cdr

open Sched

/-! ## The code -/

def flagKeepVars : ℕ := 0
def flagPosted : ℕ := 1
def flagLocked : ℕ := 2
def flagPostDisabled : ℕ := 4
def flagDontTouch : ℕ := 9
def flagPostEnable : ℕ := 10

/-- `tris_test_flag` of `TRIS_CDR_FLAG_*`, by the number of the bit. -/
def testFlag (flags : BitVec 32) (bit : ℕ) : Bool := flags.getLsbD bit

/-- `tris_set_flag` -/
def setFlag (flags : BitVec 32) (bit : ℕ) : BitVec 32 := flags ||| BitVec.twoPow 32 bit

/-- `tris_clear_flag` -/
def clearFlag (flags : BitVec 32) (bit : ℕ) : BitVec 32 := flags &&& ~~~(BitVec.twoPow 32 bit)

/-- `TRIS_CDR_NOANSWER` -/
def noanswer : ℤ := 0

/-- `TRIS_CDR_FAILED` -/
def failed : ℤ := 2

/-- `TRIS_CDR_ANSWERED` -/
def answered : ℤ := 8

/-- `struct tris_var_t` -/
structure Var where
  name : List UInt8
  value : List UInt8
  deriving DecidableEq

/-- The strings of a `struct tris_cdr`. -/
structure Texts where
  clid : List UInt8
  src : List UInt8
  dst : List UInt8
  dcontext : List UInt8
  channel : List UInt8
  dstchannel : List UInt8
  lastapp : List UInt8
  lastdata : List UInt8
  accountcode : List UInt8
  uniqueid : List UInt8
  userfield : List UInt8
  deriving DecidableEq

/-- `struct tris_cdr`, less its link. -/
structure Record where
  texts : Texts
  start : Timeval
  answer : Timeval
  endTime : Timeval
  duration : ℤ
  billsec : ℤ
  disposition : ℤ
  amaflags : ℤ
  flags : BitVec 32
  vars : List Var
  deriving DecidableEq

/-- `tris_var_name` -/
def varName (v : Var) : List UInt8 :=
  match v.name with
  | 95 :: 95 :: name => name
  | 95 :: name => name
  | name => name

/-- A variable with a name and a value. -/
def Var.Filled (v : Var) : Prop := varName v ≠ [] ∧ v.value ≠ []

instance (v : Var) : Decidable v.Filled := inferInstanceAs (Decidable (_ ∧ _))

/-- `tris_cdr_copy_vars`, into a record that has none. -/
def copyVars (vars : List Var) : List Var :=
  vars.foldl (fun headpb v => if v.Filled then ⟨varName v, v.value⟩ :: headpb else headpb) []

/-- `tris_cdr_dup` -/
def dup (cdr : Record) : Record := { cdr with vars := copyVars cdr.vars }

/-- `TRIS_CDR_FLAG_DONT_TOUCH` and `TRIS_CDR_FLAG_LOCKED`. -/
def Record.untouchable (cdr : Record) : Bool :=
  testFlag cdr.flags flagDontTouch && testFlag cdr.flags flagLocked

/-- What `tris_tvnow` returns: not the start of the epoch. -/
structure Now where
  tv : Timeval
  nonzero : trisTvzero tv = false

/-- A record in the loop of `tris_cdr_end`; `initiated` is
`TRIS_OPT_FLAG_INITIATED_SECONDS`. -/
def endOne (initiated : Bool) (now : Now) (cdr : Record) : Record :=
  if cdr.untouchable then cdr
  else
    let cdr := if trisTvzero cdr.endTime then { cdr with endTime := now.tv } else cdr
    let cdr :=
      if trisTvzero cdr.start then { cdr with disposition := failed }
      else { cdr with duration := cdr.endTime.tvSec - cdr.start.tvSec }
    if trisTvzero cdr.answer then
      if cdr.disposition = answered then { cdr with disposition := failed } else cdr
    else
      { cdr with
        billsec := cdr.endTime.tvSec - cdr.answer.tvSec +
          if initiated ∧ cdr.endTime.tvUsec > cdr.answer.tvUsec then 1 else 0 }

/-- A record in the loop of `tris_cdr_start`. -/
def startOne (now : Now) (cdr : Record) : Record :=
  if testFlag cdr.flags flagLocked then cdr else { cdr with start := now.tv }

/-- What the clock says, in each of the calls of `tris_cdr_end` and
`tris_cdr_start`, for each record that is left of the chain. -/
structure Clock where
  atEnd : ℕ → ℕ → Now
  atStart : ℕ → ℕ → Now

/-- A loop over the records from the one at a place on. -/
def overChain (f : ℕ → Record → Record) : ℕ → List Record → List Record
  | _, [] => []
  | j, cdr :: chain => f j cdr :: overChain f (j + 1) chain

/-- `TRIS_CDR_FLAG_LOCKED` of the flags, or not of the record. -/
def affected (flags : BitVec 32) (cdr : Record) : Bool :=
  testFlag flags flagLocked || !testFlag cdr.flags flagLocked

/-- The record after the reset to its initial state. -/
def initial (flags : BitVec 32) (cdr : Record) : Record :=
  { cdr with
    vars := if testFlag flags flagKeepVars then cdr.vars else []
    flags := 0
    start := trisTv 0 0
    endTime := trisTv 0 0
    answer := trisTv 0 0
    billsec := 0
    duration := 0 }

/-- The loop of `tris_cdr_reset`, in its round `i`: the chain it leaves, and
the duplicates. It is run for as many rounds as there are records. -/
def resetLoop (initiated : Bool) (clk : Clock) (flags : BitVec 32) :
    ℕ → ℕ → List Record → List Record × List Record
  | 0, _, chain => (chain, [])
  | _ + 1, _, [] => ([], [])
  | n + 1, i, cdr :: chain =>
    if affected flags cdr then
      let post := testFlag flags flagPosted
      let ended := endOne initiated (clk.atEnd i 0) cdr
      let cdr := if post then { ended with flags := setFlag ended.flags flagPosted } else cdr
      let chain := if post then overChain (fun j => endOne initiated (clk.atEnd i j)) 1 chain else chain
      let duplicates := if post then [dup ended] else []
      if testFlag flags flagPostEnable then
        let rest := resetLoop initiated clk flags n (i + 1) chain
        ({ cdr with flags := clearFlag cdr.flags flagPostDisabled } :: rest.1, duplicates ++ rest.2)
      else
        let cdr := startOne (clk.atStart i 0) (initial flags cdr)
        let chain := overChain (fun j => startOne (clk.atStart i j)) 1 chain
        let rest := resetLoop initiated clk flags n (i + 1) chain
        ({ cdr with disposition := noanswer } :: rest.1, duplicates ++ rest.2)
    else
      let rest := resetLoop initiated clk flags n (i + 1) chain
      (cdr :: rest.1, rest.2)

/-- `tris_cdr_reset` -/
def reset (initiated : Bool) (clk : Clock) (flags : BitVec 32) (chain : List Record) :
    List Record × List Record :=
  resetLoop initiated clk flags chain.length 0 chain

/-! ## What is asked of it -/

/-- A reading of the clock at the end of a record. -/
def Clock.Reads (clk : Clock) (t : Timeval) : Prop := ∃ i j, t = (clk.atEnd i j).tv

/-- The end is the one of the record, or a reading of the clock where it has
none. -/
def EndsAt (clk : Clock) (cdr : Record) (t : Timeval) : Prop :=
  if trisTvzero cdr.endTime then clk.Reads t else t = cdr.endTime

/-- What `tris_cdr_end` makes of the disposition: a record that has not
started has failed, and so has one that is answered at no time. -/
def Record.endDisposition (cdr : Record) : ℤ :=
  if cdr.untouchable then cdr.disposition
  else if trisTvzero cdr.start ∨ trisTvzero cdr.answer ∧ cdr.disposition = answered then failed
  else cdr.disposition

/-- The seconds billed from the answer to the end. -/
def billed (initiated : Bool) (answer endTime : Timeval) : ℤ :=
  endTime.tvSec - answer.tvSec + if initiated ∧ endTime.tvUsec > answer.tvUsec then 1 else 0

/-- **The duplicate of a record** as it was before the reset, but for its
start and its duration. -/
structure Duplicate (initiated : Bool) (clk : Clock) (cdr d : Record) : Prop where
  texts : d.texts = cdr.texts
  amaflags : d.amaflags = cdr.amaflags
  answer : d.answer = cdr.answer
  vars : d.vars = ((cdr.vars.filter fun v => v.Filled).map fun v => ⟨varName v, v.value⟩).reverse
  disposition : d.disposition = cdr.endDisposition
  endTime : if cdr.untouchable then d.endTime = cdr.endTime else EndsAt clk cdr d.endTime
  billsec : d.billsec =
    if cdr.untouchable ∨ trisTvzero cdr.answer then cdr.billsec
    else billed initiated cdr.answer d.endTime

/-- Its start is that of the record, and its duration is from there. -/
structure StartKept (cdr d : Record) : Prop where
  start : d.start = cdr.start
  duration : d.duration =
    if cdr.untouchable ∨ trisTvzero cdr.start then cdr.duration
    else d.endTime.tvSec - cdr.start.tvSec

/-- **A record that is not reset** keeps what it is, but may be ended. -/
structure Kept (cdr r : Record) : Prop where
  start : r.start = cdr.start
  answer : r.answer = cdr.answer
  vars : r.vars = cdr.vars
  flags : r.flags = cdr.flags
  disposition : r.disposition = cdr.disposition ∨ r.disposition = cdr.endDisposition

/-! ## One record -/

variable {initiated b : Bool} {clk : Clock} {flags : BitVec 32} {c c' d : Record} {now : Now}
  {l l' chain : List Record} {n i : ℕ}

theorem copyVars_eq (vars : List Var) :
    copyVars vars = ((vars.filter fun v => v.Filled).map fun v => ⟨varName v, v.value⟩).reverse := by
  have hfold : ∀ acc : List Var,
      vars.foldl (fun headpb v => if v.Filled then ⟨varName v, v.value⟩ :: headpb else headpb) acc =
        ((vars.filter fun v => v.Filled).map fun v => ⟨varName v, v.value⟩).reverse ++ acc := by
    induction vars with
    | nil => exact fun acc => rfl
    | cons v vars ih =>
      intro acc
      rw [List.foldl_cons, ih]
      by_cases hv : v.Filled
      · rw [if_pos hv, List.filter_cons_of_pos (by simpa using hv), List.map_cons,
          List.reverse_cons, List.append_assoc]
        rfl
      · rw [if_neg hv, List.filter_cons_of_neg (by simpa using hv)]
  rw [copyVars, hfold, List.append_nil]

theorem failed_ne_answered : failed ≠ answered := by decide

/-- The end of a record that is ended. -/
def Record.ending (now : Now) (cdr : Record) : Timeval :=
  if trisTvzero cdr.endTime then now.tv else cdr.endTime

theorem endOne_untouchable (h : c.untouchable = true) : endOne initiated now c = c := by
  rw [endOne, if_pos h]

/-- **What `tris_cdr_end` makes of a record**: all else is as it was. -/
theorem endOne_eq (h : c.untouchable = false) :
    endOne initiated now c = { c with
      endTime := c.ending now
      duration := if trisTvzero c.start then c.duration else (c.ending now).tvSec - c.start.tvSec
      billsec := if trisTvzero c.answer then c.billsec else billed initiated c.answer (c.ending now)
      disposition := c.endDisposition } := by
  unfold endOne Record.endDisposition Record.ending billed
  rw [if_neg (by simp [h]), h]
  by_cases he : trisTvzero c.endTime <;> by_cases hs : trisTvzero c.start <;>
    by_cases ha : trisTvzero c.answer <;> by_cases hd : c.disposition = answered <;>
    simp [he, hs, ha, hd, failed_ne_answered]

/-- The end that a record is given is one it may have. -/
theorem ending_endsAt (h : clk.Reads now.tv) : EndsAt clk c (c.ending now) := by
  unfold EndsAt Record.ending
  by_cases he : trisTvzero c.endTime
  · rw [if_pos he, if_pos he]
    exact h
  · rw [if_neg he, if_neg he]

/-! ## What earlier rounds do to a record -/

/-- **A record that earlier rounds went over.** `b` says that one of them
reset its own record, so that this one was started anew if it is not
locked. -/
structure Aged (clk : Clock) (b : Bool) (c c' : Record) : Prop where
  untouchable : c.untouchable = true → c' = c
  texts : c'.texts = c.texts
  amaflags : c'.amaflags = c.amaflags
  answer : c'.answer = c.answer
  vars : c'.vars = c.vars
  flags : c'.flags = c.flags
  start : b = false ∨ testFlag c.flags flagLocked = true → c'.start = c.start ∧
    (trisTvzero c.start = true → c'.duration = c.duration)
  disposition : c'.disposition = c.disposition ∨ c'.disposition = c.endDisposition
  endDisposition : c'.endDisposition = c.endDisposition
  endTime : c'.endTime = c.endTime ∨ EndsAt clk c c'.endTime
  billsec : trisTvzero c.answer = true → c'.billsec = c.billsec

theorem Aged.refl (c : Record) : Aged clk false c c where
  untouchable _ := rfl
  texts := rfl
  amaflags := rfl
  answer := rfl
  vars := rfl
  flags := rfl
  start _ := ⟨rfl, fun _ => rfl⟩
  disposition := Or.inl rfl
  endDisposition := rfl
  endTime := Or.inl rfl
  billsec _ := rfl

theorem Aged.untouchable_eq (h : Aged clk b c c') : c'.untouchable = c.untouchable := by
  rw [Record.untouchable, Record.untouchable, h.flags]

theorem Aged.affected_eq (h : Aged clk b c c') : affected flags c' = affected flags c := by
  rw [affected, affected, h.flags]

/-- An end that may be kept or given is one the record may have. -/
theorem Aged.ending (h : Aged clk b c c') (hnow : clk.Reads now.tv) :
    EndsAt clk c (c'.ending now) := by
  rcases h.endTime with he | he
  · have hend : c'.ending now = c.ending now := by
      rw [Record.ending, Record.ending, he]
    rw [hend]
    exact ending_endsAt hnow
  · unfold Record.ending
    by_cases hz : trisTvzero c'.endTime
    · rw [if_pos hz]
      unfold EndsAt at he ⊢
      by_cases hc : trisTvzero c.endTime
      · rw [if_pos hc]
        exact hnow
      · rw [if_neg hc] at he
        exact absurd (he ▸ hz) hc
    · rw [if_neg hz]
      exact he

/-- A disposition does not change a second time. -/
theorem endDisposition_again {t : Timeval} (hu : c.untouchable = false)
    (ht : trisTvzero t = true → trisTvzero c.start = true) :
    (if trisTvzero t ∨ trisTvzero c.answer ∧ c.endDisposition = answered then failed
      else c.endDisposition) = c.endDisposition := by
  unfold Record.endDisposition
  rw [hu]
  by_cases hs : trisTvzero c.start <;> by_cases ha : trisTvzero c.answer <;>
    by_cases hd : c.disposition = answered <;> simp_all [failed_ne_answered]

theorem endDisposition_endOne : (endOne initiated now c).endDisposition = c.endDisposition := by
  by_cases hu : c.untouchable
  · rw [endOne_untouchable hu]
  · rw [Bool.not_eq_true] at hu
    have hu' : (endOne initiated now c).untouchable = false := by
      rw [endOne_eq hu]
      exact hu
    rw [Record.endDisposition, hu', endOne_eq hu]
    exact endDisposition_again hu id

/-- **A round that ends a record** ages it. -/
theorem Aged.endOne (h : Aged clk b c c') (hnow : clk.Reads now.tv) :
    Aged clk b c (endOne initiated now c') := by
  by_cases hu : c.untouchable
  · rw [endOne_untouchable (h.untouchable_eq.trans hu)]
    exact h
  · rw [Bool.not_eq_true] at hu
    have hu' : c'.untouchable = false := h.untouchable_eq.trans hu
    have hdisp : (Cdr.endOne initiated now c').endDisposition = c'.endDisposition :=
      endDisposition_endOne
    have heq : Cdr.endOne initiated now c' = _ := endOne_eq hu'
    rw [heq] at hdisp ⊢
    refine ⟨fun hc => ?_, h.texts, h.amaflags, h.answer, h.vars, h.flags, fun hb => ?_, ?_, ?_,
      Or.inr (h.ending hnow), fun ha => ?_⟩
    · rw [hu] at hc
      cases hc
    · obtain ⟨hstart, hdur⟩ := h.start hb
      refine ⟨hstart, fun hz => ?_⟩
      show (if trisTvzero c'.start then c'.duration else _) = c.duration
      rw [hstart, if_pos hz]
      exact hdur hz
    · exact Or.inr h.endDisposition
    · exact hdisp.trans h.endDisposition
    · show (if trisTvzero c'.answer then c'.billsec else _) = c.billsec
      rw [h.answer, if_pos ha]
      exact h.billsec ha

/-- **A round that starts the record anew**, after it was ended. -/
theorem Aged.startOne (h : Aged clk b c c') (hend : c'.disposition = c.endDisposition) :
    Aged clk true c (startOne now c') := by
  unfold Cdr.startOne
  by_cases hl : testFlag c'.flags flagLocked
  · rw [if_pos hl]
    rw [h.flags] at hl
    exact { h with start := fun _ => h.start (Or.inr hl) }
  · rw [if_neg hl]
    have hl' : testFlag c.flags flagLocked = false := by
      rw [← h.flags]
      exact Bool.eq_false_iff.2 hl
    have hu : c.untouchable = false := by
      rw [Record.untouchable, hl', Bool.and_false]
    refine ⟨fun hc => ?_, h.texts, h.amaflags, h.answer, h.vars, h.flags, fun hb => ?_,
      h.disposition, ?_, h.endTime, h.billsec⟩
    · rw [hu] at hc
      cases hc
    · rcases hb with hb | hb
      · cases hb
      · rw [hl'] at hb
        cases hb
    · have hu' : ({ c' with start := now.tv } : Record).untouchable = false :=
        h.untouchable_eq.trans hu
      rw [Record.endDisposition, hu']
      show (if trisTvzero now.tv ∨ trisTvzero c'.answer ∧ c'.disposition = answered then failed
        else c'.disposition) = c.endDisposition
      rw [hend, h.answer]
      exact endDisposition_again hu fun hz => absurd (now.nonzero.symm.trans hz) Bool.false_ne_true

/-- A round that does both. -/
theorem Aged.restarted {now' : Now} (h : Aged clk b c c') (hnow : clk.Reads now.tv) :
    Aged clk true c (Cdr.startOne now' (Cdr.endOne initiated now c')) := by
  refine (h.endOne hnow).startOne ?_
  by_cases hu : c.untouchable
  · rw [endOne_untouchable (h.untouchable_eq.trans hu), h.untouchable hu, Record.endDisposition,
      if_pos hu]
  · have hu' : c'.untouchable = false := h.untouchable_eq.trans (Bool.eq_false_iff.2 hu)
    rw [endOne_eq hu']
    exact h.endDisposition

theorem Aged.duplicate (h : Aged clk b c c') (hnow : clk.Reads now.tv) :
    Duplicate initiated clk c (dup (Cdr.endOne initiated now c')) := by
  by_cases hu : c.untouchable
  · rw [endOne_untouchable (h.untouchable_eq.trans hu), h.untouchable hu]
    refine ⟨rfl, rfl, rfl, copyVars_eq c.vars, ?_, ?_, ?_⟩
    · rw [Record.endDisposition, if_pos hu]
      rfl
    · rw [if_pos hu]
      rfl
    · rw [if_pos (Or.inl hu)]
      rfl
  · have hu' : c'.untouchable = false := h.untouchable_eq.trans (Bool.eq_false_iff.2 hu)
    rw [endOne_eq hu']
    refine ⟨h.texts, h.amaflags, h.answer, ?_, h.endDisposition, ?_, ?_⟩
    · show copyVars c'.vars = _
      rw [h.vars, copyVars_eq]
    · rw [if_neg hu]
      exact h.ending hnow
    · show (if trisTvzero c'.answer then c'.billsec else _) = _
      rw [h.answer]
      by_cases ha : trisTvzero c.answer
      · rw [if_pos ha, if_pos (Or.inr ha), h.billsec ha]
      · rw [if_neg ha, if_neg (not_or.2 ⟨hu, ha⟩)]
        rfl

theorem Aged.startKept (h : Aged clk b c c') (hb : b = false ∨ testFlag c.flags flagLocked = true) :
    StartKept c (dup (Cdr.endOne initiated now c')) := by
  by_cases hu : c.untouchable
  · rw [endOne_untouchable (h.untouchable_eq.trans hu), h.untouchable hu]
    refine ⟨rfl, ?_⟩
    rw [if_pos (Or.inl hu)]
    rfl
  · have hu' : c'.untouchable = false := h.untouchable_eq.trans (Bool.eq_false_iff.2 hu)
    obtain ⟨hstart, hdur⟩ := h.start hb
    rw [endOne_eq hu']
    refine ⟨hstart, ?_⟩
    show (if trisTvzero c'.start then c'.duration else (c'.ending now).tvSec - c'.start.tvSec) = _
    rw [hstart]
    by_cases hs : trisTvzero c.start
    · rw [if_pos hs, if_pos (Or.inr hs), hdur hs]
    · rw [if_neg hs, if_neg (not_or.2 ⟨hu, hs⟩)]
      rfl

theorem Aged.kept (h : Aged clk b c c') (hl : testFlag c.flags flagLocked = true) : Kept c c' :=
  ⟨(h.start (Or.inr hl)).1, h.answer, h.vars, h.flags, h.disposition⟩

/-! ## The loop -/

theorem overChain_length (f : ℕ → Record → Record) (j : ℕ) :
    (overChain f j chain).length = chain.length := by
  induction chain generalizing j with
  | nil => rfl
  | cons c chain ih => rw [overChain, List.length_cons, List.length_cons, ih]

/-- One loop after another. -/
theorem overChain_overChain (f g : ℕ → Record → Record) (j : ℕ) :
    overChain f j (overChain g j chain) = overChain (fun j c => f j (g j c)) j chain := by
  induction chain generalizing j with
  | nil => rfl
  | cons c chain ih => rw [overChain, overChain, overChain, ih]

/-- A loop over the chain keeps what it keeps of each record. -/
theorem forall₂_overChain {R R' : Record → Record → Prop} {f : ℕ → Record → Record}
    (hf : ∀ j c c', R c c' → R' c (f j c')) (h : List.Forall₂ R l l') (j : ℕ) :
    List.Forall₂ R' l (overChain f j l') := by
  induction h generalizing j with
  | nil => exact .nil
  | cons hc _ ih => exact .cons (hf j _ _ hc) (ih (j + 1))

/-- The duplicates of the records that are reset, and what is left of the
others. `b` says whether a record was reset before. -/
structure Outcome (initiated : Bool) (clk : Clock) (flags : BitVec 32) (b : Bool) (l : List Record)
    (r : List Record × List Record) : Prop where
  duplicates : List.Forall₂ (Duplicate initiated clk) (l.filter (affected flags)) r.2
  start : ∀ k c d, (l.filter (affected flags))[k]? = some c → r.2[k]? = some d →
    testFlag c.flags flagLocked = true ∨
      b = false ∧ (k = 0 ∨ testFlag flags flagPostEnable = true) → StartKept c d
  kept : List.Forall₂ (fun c r => affected flags c = false → Kept c r) l r.1

/-- **A round that resets its record.** -/
theorem Outcome.cons {b' : Bool} {r : Record} {rest : List Record × List Record}
    (h : Outcome initiated clk flags b' l rest) (hc : affected flags c = true)
    (hd : Duplicate initiated clk c d)
    (hs : testFlag c.flags flagLocked = true ∨ b = false → StartKept c d)
    (hb : testFlag flags flagPostEnable = true → b' = b) :
    Outcome initiated clk flags b (c :: l) (r :: rest.1, d :: rest.2) := by
  refine ⟨?_, ?_, .cons (fun hcf => ?_) h.kept⟩
  · rw [List.filter_cons_of_pos hc]
    exact .cons hd h.duplicates
  · rw [List.filter_cons_of_pos hc]
    intro k x y hx hy hcond
    cases k with
    | zero =>
      obtain rfl : c = x := Option.some.inj hx
      obtain rfl : d = y := Option.some.inj hy
      exact hs (hcond.imp_right And.left)
    | succ k =>
      rw [List.getElem?_cons_succ] at hx hy
      refine h.start k x y hx hy ?_
      rcases hcond with hl | ⟨hb', hk | hp⟩
      · exact Or.inl hl
      · omega
      · exact Or.inr ⟨(hb hp).trans hb', Or.inr hp⟩
  · rw [hc] at hcf
    cases hcf

/-- A round that leaves its record alone. -/
theorem Outcome.skip {rest : List Record × List Record} (h : Outcome initiated clk flags b l rest)
    (hc : affected flags c = false) (hk : Kept c c') :
    Outcome initiated clk flags b (c :: l) (c' :: rest.1, rest.2) := by
  have hfilter : (c :: l).filter (affected flags) = l.filter (affected flags) :=
    List.filter_cons_of_neg (by simp [hc])
  refine ⟨?_, ?_, .cons (fun _ => hk) h.kept⟩
  · rw [hfilter]
    exact h.duplicates
  · rw [hfilter]
    exact h.start

theorem resetLoop_nil : resetLoop initiated clk flags n i [] = ([], []) := by cases n <;> rfl

/-- What round `i` does to a record that follows its own. -/
def roundOver (initiated : Bool) (clk : Clock) (flags : BitVec 32) (i j : ℕ) (cdr : Record) :
    Record :=
  let ended := endOne initiated (clk.atEnd i j) cdr
  if testFlag flags flagPostEnable then ended else startOne (clk.atStart i j) ended

theorem Aged.roundOver (initiated : Bool) (flags : BitVec 32) (i j : ℕ) (h : Aged clk b c c') :
    Aged clk (b || !testFlag flags flagPostEnable) c (roundOver initiated clk flags i j c') := by
  unfold Cdr.roundOver
  by_cases hp : testFlag flags flagPostEnable = true
  · rw [if_pos hp, hp, Bool.not_true, Bool.or_false]
    exact h.endOne ⟨i, j, rfl⟩
  · rw [if_neg hp, Bool.eq_false_iff.2 hp, Bool.not_false, Bool.or_true]
    exact h.restarted ⟨i, j, rfl⟩

/-- A round that posts its record. -/
theorem resetLoop_affected (initiated : Bool) (clk : Clock) (n i : ℕ) (l : List Record)
    (ha : affected flags c = true) (hpost : testFlag flags flagPosted = true) :
    ∃ r, resetLoop initiated clk flags (n + 1) i (c :: l) =
      let rest := resetLoop initiated clk flags n (i + 1)
        (overChain (roundOver initiated clk flags i) 1 l)
      (r :: rest.1, dup (endOne initiated (clk.atEnd i 0) c) :: rest.2) := by
  unfold roundOver
  rw [resetLoop, if_pos ha]
  by_cases hp : testFlag flags flagPostEnable = true
  · simp only [hpost, hp, if_true]
    exact ⟨_, rfl⟩
  · simp only [hpost, if_neg hp, if_true, overChain_overChain]
    exact ⟨_, rfl⟩

theorem resetLoop_skip (ha : ¬affected flags c = true) :
    resetLoop initiated clk flags (n + 1) i (c :: l) =
      (c :: (resetLoop initiated clk flags n (i + 1) l).1,
        (resetLoop initiated clk flags n (i + 1) l).2) := by
  rw [resetLoop, if_neg ha]

/-- **The loop**, from records that earlier rounds went over. -/
theorem resetLoop_spec (hpost : testFlag flags flagPosted = true)
    (h : List.Forall₂ (Aged clk b) l l') (hn : l'.length ≤ n) :
    Outcome initiated clk flags b l (resetLoop initiated clk flags n i l') := by
  induction l generalizing l' b n i with
  | nil =>
    cases h
    rw [resetLoop_nil]
    refine ⟨.nil, fun k c d hc => ?_, .nil⟩
    cases hc
  | cons c l ih =>
    cases h with
    | @cons _ c' _ l' hc hl =>
    rw [List.length_cons] at hn
    obtain ⟨n, rfl⟩ : ∃ m, n = m + 1 := ⟨n - 1, by omega⟩
    by_cases ha : affected flags c' = true
    · obtain ⟨r, hr⟩ := resetLoop_affected initiated clk n i l' ha hpost
      have hround := fun j x y (h : Aged clk b x y) => h.roundOver initiated flags i j
      have hrest := ih (n := n) (i := i + 1) (forall₂_overChain hround hl 1)
        ((overChain_length _ 1).trans_le (Nat.le_of_succ_le_succ hn))
      rw [hr]
      refine hrest.cons (hc.affected_eq.symm.trans ha) (hc.duplicate ⟨i, 0, rfl⟩)
        (fun hb => hc.startKept hb.symm) fun hp => ?_
      rw [hp, Bool.not_true, Bool.or_false]
    · have hac : affected flags c = false := hc.affected_eq.symm.trans (Bool.eq_false_iff.2 ha)
      have hlocked : testFlag c.flags flagLocked = true := by
        rw [affected, Bool.or_eq_false_iff, Bool.not_eq_false'] at hac
        exact hac.2
      rw [resetLoop_skip ha]
      exact (ih (i := i + 1) hl (by omega)).skip hac (hc.kept hlocked)

/-- Each duplicate is the record as it was, ended, and what is not reset keeps
its disposition too. -/
def AsBefore (initiated : Bool) (clk : Clock) (flags : BitVec 32) (chain : List Record)
    (r : List Record × List Record) : Prop :=
  List.Forall₂ (fun c d => d.start = c.start ∧ d.answer = c.answer ∧
      d.disposition = c.disposition ∧ d.texts = c.texts ∧ d.vars = c.vars ∧
      EndsAt clk c d.endTime ∧ d.duration = d.endTime.tvSec - d.start.tvSec ∧
      (trisTvzero c.answer = false → d.billsec = billed initiated c.answer d.endTime))
    (chain.filter (affected flags)) r.2 ∧
  List.Forall₂ (fun c r => affected flags c = false →
    r.start = c.start ∧ r.answer = c.answer ∧ r.disposition = c.disposition ∧ r.vars = c.vars ∧
      r.flags = c.flags) chain r.1

/-- A record that started at some second and nothing else. -/
def startedAt (sec : ℤ) : Record where
  texts := ⟨[], [], [], [], [], [], [], [], [], [], []⟩
  start := ⟨sec, 0⟩
  answer := ⟨0, 0⟩
  endTime := ⟨0, 0⟩
  duration := 0
  billsec := 0
  disposition := noanswer
  amaflags := 0
  flags := 0
  vars := []

/-- `TRIS_CDR_FLAG_POSTED` alone. -/
def postOnly : BitVec 32 := 2

/-- It is the hundredth second. -/
def hundred : Now := ⟨⟨100, 0⟩, rfl⟩

end Cdr

end Trismedia
