import Mathlib.Data.Int.Notation
import Trismedia.Common.CString
import Trismedia.Common.Trace
/-!
# Menus of an IVR

`tris_ivr_menu_run_internal` of `main/app.c`, with `option_exists`,
`option_matchmore` and `read_newoption`. A menu is the names of its options. What
`ivr_dispatch` and `tris_waitfordigit` return is the input of a step.
-/


namespace Trismedia

namespace App

namespace Ivr

open CString

/-! ## The code -/

/-- `RES_UPONE` and the others -/
def resUpone : BitVec 32 := 0x10000
def resExit : BitVec 32 := 0x20000
def resRepeat : BitVec 32 := 0x40000
def resRestart : BitVec 32 := 0xC0000

/-- `TRIS_DIGIT_ANY` -/
def digitAny : CString := str "0123456789#*ABCD"

/-- `TRIS_MAX_EXTENSION` -/
def maxExtension : ℕ := 80

/-- An index that is found, or -1. -/
def found : Option ℕ → ℤ
  | none => -1
  | some x => x

/-- `option_exists` -/
def optionExists (menu : List CString) (option : CString) : ℤ :=
  found (menu.findIdx? fun o => strcaseEq o option)

/-- An option begins with `option` and has more. -/
def properlyExtends (option o : CString) : Bool :=
  strcaseEq (o.take option.length) option && option.length < o.length

/-- `option_matchmore` -/
def optionMatchmore (menu : List CString) (option : CString) : ℤ :=
  found (menu.findIdx? (properlyExtends option))

/-- Where `tris_ivr_menu_run_internal` is: in its loop over the options, in
`read_newoption`, or behind its end. -/
inductive State where
  | scanning (pos : ℕ) (exten : CString) (retries : ℤ) (res : BitVec 32)
  | reading (exten : CString) (retries : ℤ)
  | ended (res : BitVec 32)
  deriving DecidableEq

/-- An option is dispatched, or a digit is waited for, with what is returned. -/
inductive Event where
  | dispatched (pos : ℕ) (res : BitVec 32)
  | digit (res : BitVec 32)
  | silent
  deriving DecidableEq

/-- A character that is appended to a string. -/
def appended (exten : CString) (res : BitVec 32) : CString :=
  if res.setWidth 8 = 0 then exten else exten ++ [res.setWidth 8]

/-- What follows `read_newoption`. -/
def entered (menu : List CString) (exten : CString) (retries : ℤ) : State :=
  if optionExists menu exten < 0 then
    if optionExists menu (str "i") ≠ 0 then .scanning 0 (str "i") retries 0 else .ended (-2)
  else .scanning 0 exten retries 0

/-- `read_newoption`, one time round. -/
def readNewoption (menu : List CString) (exten : CString) (retries : ℤ) (res : BitVec 32) :
    Event × State :=
  if optionMatchmore menu exten ≠ 0 ∧ exten.length < maxExtension - 1 then
    if res.toInt < 1 then
      (.digit res, if res = 0 then entered menu exten retries else .ended res)
    else (.digit res, .reading (appended exten res) retries)
  else (.silent, entered menu exten retries)

/-- What follows `ivr_dispatch`. -/
def afterDispatch (menu : List CString) (pos : ℕ) (exten : CString) (retries : ℤ)
    (res : BitVec 32) : State :=
  if res.toInt < 0 then .ended res
  else if res &&& resUpone ≠ 0 then .ended 0
  else if res &&& resExit ≠ 0 then .ended res
  else if res &&& resRepeat ≠ 0 then
    let maxretries := if res &&& 0xffff = 0 then 3 else (res &&& 0xffff).toNat
    let retries := if res &&& resRestart = resRestart then 0 else retries + 1
    if retries ≥ maxretries then .ended (-2)
    else
      .scanning 0 (if optionExists menu (str "g") > -1 then str "g"
        else if optionExists menu (str "s") > -1 then str "s" else exten) retries res
  else if res ≠ 0 ∧ (res.setWidth 8 = (0 : CChar) ∨ res.setWidth 8 ∈ digitAny) then
    .reading (appended [] res) retries
  else .scanning (pos + 1) exten retries res

/-- The loop over the options, up to one of the name. -/
def scanOptions (exten : CString) : List CString → ℕ → Option ℕ
  | [], _ => none
  | o :: options, pos => if strcaseEq o exten then some pos else scanOptions exten options (pos + 1)

/-- **`tris_ivr_menu_run_internal`**, a step of it. -/
def step (menu : List CString) : State → BitVec 32 → Option (Event × State)
  | .scanning pos exten retries res, r =>
    match scanOptions exten (menu.drop pos) pos with
    | none =>
      if strcaseEq exten (str "s") ∧ res = 0 then
        some (.silent, .scanning 0 (str "g") retries 0)
      else some (.silent, .ended res)
    | some k => some (.dispatched k r, afterDispatch menu k exten retries r)
  | .reading exten retries, r => some (readNewoption menu exten retries r)
  | .ended _, _ => none

/-- Where it starts. -/
def start (menu : List CString) : State :=
  if optionExists menu (str "s") < 0 then
    if optionExists menu (str "g") < 0 then .ended (-1) else .scanning 0 (str "g") 0 0
  else .scanning 0 (str "s") 0 0

/-! ## What is asked of it -/

/-- Some option has the name. -/
def Named (menu : List CString) (exten : CString) : Prop := ∃ o ∈ menu, strcaseEq o exten = true

/-- Some option properly extends what is entered. -/
def Extended (menu : List CString) (exten : CString) : Prop := ∃ o ∈ menu, properlyExtends exten o = true

instance (menu : List CString) (exten : CString) : Decidable (Named menu exten) :=
  inferInstanceAs (Decidable (∃ o ∈ menu, _))

instance (menu : List CString) (exten : CString) : Decidable (Extended menu exten) :=
  inferInstanceAs (Decidable (∃ o ∈ menu, _))

/-- **What an entry leads to**: the option of that name, or `i`, or the end. -/
def leadsTo (menu : List CString) (exten : CString) (retries : ℤ) : State :=
  if Named menu exten then .scanning 0 exten retries 0
  else if Named menu (str "i") then .scanning 0 (str "i") retries 0
  else .ended (-2)

/-- **What is done with an entry**: a digit is waited for while it is extended. -/
def promised (menu : List CString) (exten : CString) (retries : ℤ) (res : BitVec 32) :
    Event × State :=
  if Extended menu exten then
    (.digit res, if res = 0 then leadsTo menu exten retries else .reading (appended exten res) retries)
  else (.silent, leadsTo menu exten retries)

/-- **A step that is right**: with an entry what is promised is done, and from the
first option on one of the name is dispatched if there is one. -/
def Right (menu : List CString) (s : State) (e : Event) (s' : State) : Prop :=
  match s with
  | .scanning pos exten _ _ =>
    (∀ k res, e = .dispatched k res → ∃ o, menu[k]? = some o ∧ strcaseEq o exten = true) ∧
      (pos = 0 → Named menu exten → ∃ k res, e = .dispatched k res)
  | .reading exten retries => ∃ res, (e, s') = promised menu exten retries res
  | .ended _ => False

/-- A step, where the channel does not hang up and an entry is shorter than the
buffer. -/
def Step (menu : List CString) (s : State) (e : Event) (s' : State) : Prop :=
  (∃ res, step menu s res = some (e, s')) ∧
    (∀ exten retries, s = .reading exten retries →
      exten.length < maxExtension - 1 ∧ ∀ res, e = .digit res → 0 ≤ res.toInt)

/-- **An entry that is handled**: it is extended, but not by the first option, and
if no digit comes, an option has its name or `i` is another than the first. -/
def Handled (menu : List CString) (s : State) (e : Event) : Prop :=
  ∀ exten retries, s = .reading exten retries →
    Extended menu exten ∧ (∀ o, menu.head? = some o → properlyExtends exten o = false) ∧
      (e = .digit 0 → Named menu exten ∨
        Named menu (str "i") ∧ ∀ o, menu.head? = some o → strcaseEq o (str "i") = false)

variable {menu options : List CString} {exten : CString} {retries : ℤ} {res : BitVec 32}
variable {s s' : State} {e : Event} {evs : List Event} {f : CString → Bool}

/-! ## Indexes as truth values -/

theorem found_neg_iff : found (menu.findIdx? f) < 0 ↔ ¬ ∃ o ∈ menu, f o = true := by
  rcases h : menu.findIdx? f with _ | x
  · have hnone := List.findIdx?_eq_none_iff.1 h
    refine iff_of_true (by decide) ?_
    rintro ⟨o, ho, hf⟩
    exact Bool.false_ne_true ((hnone o ho).symm.trans hf)
  · have hsome : (menu.findIdx? f).isSome = true := by
      rw [h]
      exact rfl
    rw [List.findIdx?_isSome, List.any_eq_true] at hsome
    refine iff_of_false ?_ (not_not.2 hsome)
    show ¬ ((x : ℤ) < 0)
    omega

/-- **An index is false only where it is that of the first.** -/
theorem found_ne_zero_iff :
    found (menu.findIdx? f) ≠ 0 ↔ ∀ o, menu.head? = some o → f o = false := by
  rcases menu with _ | ⟨o, menu⟩
  · exact iff_of_true (show (-1 : ℤ) ≠ 0 by decide) fun o h => absurd h (Option.some_ne_none o).symm
  · rw [List.findIdx?_cons]
    by_cases ho : f o = true
    · rw [if_pos ho]
      exact iff_of_false (fun h => h rfl) fun h => Bool.false_ne_true ((h o rfl).symm.trans ho)
    · rw [if_neg ho]
      refine iff_of_true ?_ fun o' ho' => ?_
      · rcases menu.findIdx? f with _ | x
        · decide
        · show ((x + 1 : ℕ) : ℤ) ≠ 0
          omega
      · obtain rfl := Option.some.inj ho'
        exact Bool.eq_false_iff.2 ho

theorem optionExists_neg_iff : optionExists menu exten < 0 ↔ ¬ Named menu exten := found_neg_iff

/-! ## Entries -/

/-- **Where an entry leads as promised.** -/
theorem entered_eq_iff : entered menu exten retries = leadsTo menu exten retries ↔
    Named menu exten ∨
      Named menu (str "i") ∧ ∀ o, menu.head? = some o → strcaseEq o (str "i") = false := by
  unfold entered leadsTo
  by_cases hname : Named menu exten
  · rw [if_neg (fun h => optionExists_neg_iff.1 h hname), if_pos hname]
    exact iff_of_true rfl (Or.inl hname)
  · rw [if_pos (optionExists_neg_iff.2 hname), if_neg hname, or_iff_right hname]
    have hfirst : optionExists menu (str "i") ≠ 0 ↔
        ∀ o, menu.head? = some o → strcaseEq o (str "i") = false := found_ne_zero_iff
    rw [← hfirst]
    by_cases hi : Named menu (str "i")
    · rw [if_pos hi, and_iff_right hi]
      by_cases hzero : optionExists menu (str "i") = 0
      · rw [if_neg (not_not.2 hzero)]
        exact iff_of_false (fun h => State.noConfusion h) (not_not.2 hzero)
      · rw [if_pos hzero]
        exact iff_of_true rfl hzero
    · have hneg := optionExists_neg_iff.2 hi
      rw [if_neg hi, if_pos (by omega)]
      exact iff_of_false (fun h => State.noConfusion h) fun h => hi h.1

/-- **An entry is handled as promised.** -/
theorem readNewoption_iff (hroom : exten.length < maxExtension - 1)
    (hup : ∀ r, (readNewoption menu exten retries res).1 = .digit r → 0 ≤ r.toInt) :
    (∃ r, readNewoption menu exten retries res = promised menu exten retries r) ↔
      Extended menu exten ∧ (∀ o, menu.head? = some o → properlyExtends exten o = false) ∧
        ((readNewoption menu exten retries res).1 = .digit 0 → Named menu exten ∨
          Named menu (str "i") ∧ ∀ o, menu.head? = some o → strcaseEq o (str "i") = false) := by
  have hmore : optionMatchmore menu exten ≠ 0 ↔
      ∀ o, menu.head? = some o → properlyExtends exten o = false := found_ne_zero_iff
  rw [← hmore]
  by_cases hzero : optionMatchmore menu exten = 0
  · have hext : Extended menu exten := by
      by_contra hnot
      have hneg : optionMatchmore menu exten < 0 := found_neg_iff.2 hnot
      omega
    have hread : readNewoption menu exten retries res = (.silent, entered menu exten retries) :=
      if_neg fun h => h.1 hzero
    refine iff_of_false ?_ fun h => h.2.1 hzero
    rintro ⟨r, h⟩
    unfold promised at h
    rw [hread, if_pos hext] at h
    exact Event.noConfusion (congrArg Prod.fst h)
  · have hread : readNewoption menu exten retries res = if res.toInt < 1 then
        (.digit res, if res = 0 then entered menu exten retries else .ended res)
        else (.digit res, .reading (appended exten res) retries) := if_pos ⟨hzero, hroom⟩
    rw [and_iff_right hzero]
    by_cases hext : Extended menu exten
    · rw [and_iff_right hext]
      by_cases hres : res = 0
      · rw [hres, if_pos (by decide), if_pos rfl] at hread
        rw [hres, hread, forall_prop_of_true rfl, ← @entered_eq_iff menu exten retries]
        constructor
        · rintro ⟨r, h⟩
          unfold promised at h
          rw [if_pos hext] at h
          obtain ⟨hr, hstate⟩ := Prod.mk.injEq _ _ _ _ ▸ h
          rw [Event.digit.injEq] at hr
          rw [← hr, if_pos rfl] at hstate
          exact hstate
        · intro h
          refine ⟨0, ?_⟩
          unfold promised
          rw [if_pos hext, if_pos rfl, h]
      · have hup' : 0 ≤ res.toInt := by
          refine hup res ?_
          rw [hread]
          split_ifs <;> exact rfl
        have hpos : ¬ res.toInt < 1 := fun hlt =>
          hres (BitVec.eq_of_toInt_eq (show res.toInt = (0 : BitVec 32).toInt by
            rw [show (0 : BitVec 32).toInt = 0 by decide]
            omega))
        rw [if_neg hpos] at hread
        rw [hread]
        refine iff_of_true ⟨res, ?_⟩ fun h => absurd (Event.digit.inj h) hres
        unfold promised
        rw [if_pos hext, if_neg hres]
    · refine iff_of_false ?_ fun h => hext h.1
      rintro ⟨r, h⟩
      unfold promised at h
      rw [hread, if_neg hext] at h
      split_ifs at h
      · exact Event.noConfusion (congrArg Prod.fst h)
      · exact Event.noConfusion (congrArg Prod.fst h)
      · exact Event.noConfusion (congrArg Prod.fst h)

/-! ## Runs -/

theorem scanOptions_some : ∀ {options : List CString} {pos k : ℕ},
    scanOptions exten options pos = some k →
      pos ≤ k ∧ ∃ o, options[k - pos]? = some o ∧ strcaseEq o exten = true := by
  intro options
  induction options with
  | nil => exact fun h => absurd h (Option.some_ne_none _).symm
  | cons o options ih =>
    intro pos k h
    rw [scanOptions] at h
    by_cases ho : strcaseEq o exten = true
    · rw [if_pos ho] at h
      obtain rfl := Option.some.inj h
      refine ⟨Nat.le_refl _, o, ?_, ho⟩
      rw [Nat.sub_self, List.getElem?_cons_zero]
    · rw [if_neg ho] at h
      obtain ⟨hle, o', ho', hname⟩ := ih h
      refine ⟨by omega, o', ?_, hname⟩
      rw [show k - pos = k - (pos + 1) + 1 by omega, List.getElem?_cons_succ]
      exact ho'

theorem scanOptions_none : ∀ {options : List CString} {pos : ℕ},
    scanOptions exten options pos = none → ∀ o ∈ options, strcaseEq o exten ≠ true := by
  intro options
  induction options with
  | nil => exact fun _ o ho => absurd ho List.not_mem_nil
  | cons o options ih =>
    intro pos h
    rw [scanOptions] at h
    by_cases ho : strcaseEq o exten = true
    · rw [if_pos ho] at h
      exact absurd h (Option.some_ne_none pos)
    · rw [if_neg ho] at h
      exact List.forall_mem_cons.2 ⟨ho, ih h⟩

/-- **A step is right exactly if its entry is handled.** -/
theorem right_iff (h : Step menu s e s') : Right menu s e s' ↔ Handled menu s e := by
  obtain ⟨⟨res, hstep⟩, hquiet⟩ := h
  rcases s with ⟨pos, exten, retries, r⟩ | ⟨exten, retries⟩ | r
  · refine iff_of_true ?_ fun exten' retries' h => State.noConfusion h
    unfold step at hstep
    dsimp only at hstep
    rcases hscan : scanOptions exten (menu.drop pos) pos with _ | k
    · rw [hscan] at hstep
      have hsilent : e = .silent := by
        dsimp only at hstep
        split_ifs at hstep
        · exact (congrArg Prod.fst (Option.some.inj hstep)).symm
        · exact (congrArg Prod.fst (Option.some.inj hstep)).symm
      refine ⟨fun k res h => Event.noConfusion (hsilent.symm.trans h), ?_⟩
      rintro rfl ⟨o, ho, hname⟩
      exact absurd hname (scanOptions_none hscan o ho)
    · rw [hscan] at hstep
      have hdis : e = .dispatched k res := (congrArg Prod.fst (Option.some.inj hstep)).symm
      refine ⟨fun k' res' h => ?_, fun _ _ => ⟨k, res, hdis⟩⟩
      rw [hdis, Event.dispatched.injEq] at h
      obtain ⟨hle, o, ho, hname⟩ := scanOptions_some hscan
      rw [List.getElem?_drop, Nat.add_sub_cancel' hle, h.1] at ho
      exact ⟨o, ho, hname⟩
  · have hread : readNewoption menu exten retries res = (e, s') := Option.some.inj hstep
    obtain ⟨hroom, hup⟩ := hquiet exten retries rfl
    have hiff := @readNewoption_iff menu exten retries res hroom (by rw [hread]; exact hup)
    rw [hread] at hiff
    refine Iff.trans hiff ⟨fun h exten' retries' heq => ?_, fun h => h exten retries rfl⟩
    rw [State.reading.injEq] at heq
    rw [← heq.1]
    exact h
  · exact absurd hstep (Option.some_ne_none _).symm

/-- **A run is right exactly if every entry in it is handled.** -/
theorem runs_right_iff (menu : List CString) (evs : List Event) (s : State) :
    Trace (fun s e s' => Step menu s e s' ∧ Right menu s e s') (start menu) evs s ↔
      Trace (fun s e s' => Step menu s e s' ∧ Handled menu s e) (start menu) evs s :=
  Trace.kept_iff_met_step (P := fun _ => True) (fun _ _ _ _ => trivial)
    (fun _ _ _ _ h => right_iff h) trivial


/-- A menu with an option that nothing extends. -/
def oneDigitMenu : List CString := [str "s", str "1", str "i"]

/-- **Behind the only digit of an option another is waited for.** -/
theorem not_runs_right : ∃ evs s, Trace (Step oneDigitMenu) (start oneDigitMenu) evs s ∧
    ¬ Trace (fun s e s' => Step oneDigitMenu s e s' ∧ Right oneDigitMenu s e s')
      (start oneDigitMenu) evs s := by
  have hfirst : Step oneDigitMenu (start oneDigitMenu) (.dispatched 0 49) (.reading (str "1") 0) :=
    ⟨⟨49, by decide +kernel⟩, fun exten retries h => absurd h (by
      rw [show start oneDigitMenu = .scanning 0 (str "s") 0 0 by decide +kernel]
      exact fun h => State.noConfusion h)⟩
  have hsecond : Step oneDigitMenu (.reading (str "1") 0) (.digit 0)
      (.scanning 0 (str "1") 0 0) := by
    refine ⟨⟨0, by decide +kernel⟩, fun exten retries h => ?_⟩
    rw [← (State.reading.inj h).1]
    refine ⟨by decide +kernel, fun res h => ?_⟩
    rw [← Event.digit.inj h]
    decide
  refine ⟨[.dispatched 0 49, .digit 0], _, Trace.cons hfirst (Trace.single hsecond), fun h => ?_⟩
  obtain ⟨t, h1, h2⟩ := @Trace.split _ _ _ _ _ [Event.dispatched 0 49] [Event.digit 0] h
  obtain ⟨⟨res, hstep⟩, -⟩ := (Trace.step_of_single h1).1
  have ht : t = .reading (str "1") 0 := by
    rw [show step oneDigitMenu (start oneDigitMenu) res = some (.dispatched 0 res,
      afterDispatch oneDigitMenu 0 (str "s") 0 res) from rfl] at hstep
    obtain ⟨hev, hst⟩ := Prod.mk.inj (Option.some.inj hstep)
    rw [← hst, Event.dispatched.inj hev |>.2]
    decide +kernel
  obtain ⟨hstep', hright⟩ := Trace.step_of_single h2
  rw [ht] at hright
  obtain ⟨r, hr⟩ := hright
  have hsilent : (promised oneDigitMenu (str "1") 0 r).1 = .silent :=
    congrArg Prod.fst (if_neg (by decide +kernel))
  rw [← hr] at hsilent
  exact Event.noConfusion hsilent

end Ivr

end App

end Trismedia
