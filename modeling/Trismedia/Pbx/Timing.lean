import Mathlib.Data.List.Nodup
import Mathlib.Data.Nat.ModEq
import Mathlib.Logic.Function.Basic
import Trismedia.Config.Numbers
/-!
# Times of the dialplan

A specification of a time of day, days of the week, days of the month and
months is made into masks and compared with the time it is:
`tris_build_timing` and `tris_check_timing` of `main/pbx.c`, with
`get_timerange`, `get_range` and `lookup_name`. The loops that fill a mask go
round the clock, the week or the year until they meet the end of the range.
-/


namespace Trismedia

namespace Pbx

namespace Timing

open CString
open Config (isspace isdigit digits)

/-! ## Strings -/

/-- Up to `width` digits, and what is left. -/
def scanDigits (width : ℕ) (s : CString) : Option (ℤ × CString) :=
  let ds := (s.take width).takeWhile isdigit
  if ds = [] then none else some (digits ds, s.drop ds.length)

/-- `%2d` of `sscanf`: the number and what is left. The sign is one of the two
characters. -/
def scan2d (s : CString) : Option (ℤ × CString) :=
  match s.dropWhile isspace with
  | [] => none
  | c :: s =>
    if c = chr '-' then (scanDigits 1 s).map fun r => (-r.1, r.2)
    else if c = chr '+' then scanDigits 1 s
    else scanDigits 2 (c :: s)

/-- `sscanf(s, "%2d:%2d", ...) == 2` -/
def scanTime (s : CString) : Option (ℤ × ℤ) :=
  match scan2d s with
  | some (h, c :: r) => if c = chr ':' then (scan2d r).map fun m => (h, m.1) else none
  | _ => none

/-- The tokens that calls of `strsep` give one after another. -/
def strsepAll (delim : CChar → Bool) : CString → List CString
  | [] => [[]]
  | c :: s =>
    if delim c then [] :: strsepAll delim s
    else
      match strsepAll delim s with
      | [] => [[c]]
      | token :: tokens => (c :: token) :: tokens

/-! ## The code -/

/-- `lookup_name` -/
def lookupName (s : CString) (names : Option (List CString)) (max : ℕ) : Option ℕ :=
  let named := match names with
    | some names => if (s.headD 0).toInt > 57 then names.findIdx? (strcaseEq s) else none
    | none => none
  match named with
  | some i => some i
  | none =>
    match scan2d s with
    | some (i, _) => if 1 ≤ i ∧ i ≤ max then some (i - 1).toNat else none
    | none => none

/-- A loop that sets what is at `x`, and then at what comes next, up to `stop`.
There is no result in fewer than `fuel` rounds. -/
def fillLoop {M : Type} (next : ℕ → ℕ) (set : M → ℕ → M) (stop : ℕ) : ℕ → ℕ → M → Option M
  | 0, _, _ => none
  | fuel + 1, x, m => if x = stop then some m else fillLoop next set stop fuel (next x) (set m x)

/-- `mask |= (1 << i)` -/
def setBit (mask : BitVec 32) (i : ℕ) : BitVec 32 := mask ||| BitVec.twoPow 32 i

/-- A round of the loop of `get_range`. -/
def rangeElement (max : ℕ) (names : Option (List CString)) (mask : BitVec 32) (part : CString) :
    Option (BitVec 32) :=
  let (part, endpart) := match strchr (chr '-') part with
    | some (part, endpart) => (part, some endpart)
    | none => (part, none)
  match lookupName part names max with
  | none => some mask
  | some start =>
    let stop := match endpart with
      | some endpart => lookupName endpart names max
      | none => some start
    match stop with
    | none => some mask
    | some stop =>
      fillLoop (fun x => if x + 1 ≥ max then 0 else x + 1) setBit stop (max + 1) start
        (setBit mask stop)

/-- `get_range` -/
def getRange (src : CString) (max : ℕ) (names : Option (List CString)) : Option (BitVec 32) :=
  if src = [] ∨ src = str "*" then some (BitVec.twoPow 32 max - 1)
  else (strsepAll (· = chr '&') src).foldlM (rangeElement max names) 0

/-- `i->minmask[w] |= (1 << b)` -/
def setWord (minmask : ℕ → BitVec 32) (w b : ℕ) : ℕ → BitVec 32 :=
  Function.update minmask w (setBit (minmask w) b)

/-- A time of day that is valid. -/
def validTime (s : CString) : Option (ℕ × ℕ) :=
  match scanTime s with
  | some (h, m) => if h < 0 ∨ h > 23 ∨ m < 0 ∨ m > 59 then none else some (h.toNat, m.toNat)
  | none => none

/-- A round of the loop of `get_timerange`. -/
def timeElement (minmask : ℕ → BitVec 32) (part : CString) : Option (ℕ → BitVec 32) :=
  match strchr (chr '-') part with
  | none =>
    match validTime part with
    | none => some minmask
    | some (h, m) => some (setWord minmask (h * 2 + if m ≥ 30 then 1 else 0) (m % 30))
  | some (part, endpart) =>
    let endpart := endpart.dropWhile fun c => !isdigit c
    if endpart = [] then some minmask
    else
      match validTime part with
      | none => some minmask
      | some (sth, stm) =>
        match validTime endpart with
        | none => some minmask
        | some (endh, endm) =>
          let set (mask : ℕ → BitVec 32) (x : ℕ) := setWord mask (x / 30) (x % 30)
          let stop := endh * 60 + endm
          (fillLoop (fun x => (x + 1) % (24 * 60)) set stop (24 * 60 + 1) (sth * 60 + stm)
            minmask).map fun mask => set mask stop

/-- `get_timerange` -/
def getTimerange (times : CString) : Option (ℕ → BitVec 32) :=
  if times = [] ∨ times = str "*" then some fun _ => 0x3fffffff
  else (strsepAll (· = chr '&') times).foldlM timeElement fun _ => 0

def days : List CString := ["sun", "mon", "tue", "wed", "thu", "fri", "sat"].map str

def months : List CString :=
  ["jan", "feb", "mar", "apr", "may", "jun", "jul", "aug", "sep", "oct", "nov", "dec"].map str

/-- `struct tris_timing`, as it is built. -/
structure TrisTiming where
  monthmask : BitVec 32
  daymask : BitVec 32
  dowmask : BitVec 32
  minmask : ℕ → BitVec 32
  timezone : Option CString

/-- A field, if there is one. -/
def fieldMask (field : Option CString) (max : ℕ) (names : Option (List CString))
    (mask : BitVec 32) : Option (BitVec 32) :=
  match field with
  | some src => getRange src max names
  | none => some mask

/-- `tris_build_timing`: where it returns 1, what it built. -/
def trisBuildTiming (infoIn : CString) : Option (Option TrisTiming) :=
  if infoIn = [] then some none
  else do
    let numFields := infoIn.count (chr ',') + 1
    let timezone := if numFields = 5 then (strsepAll (· = chr ',') infoIn).getLast? else none
    let info := strsepAll (fun c => c = chr '|' ∨ c = chr ',') infoIn
    let minmask ← getTimerange (info.headD [])
    let dowmask ← fieldMask info[1]? 7 (some days) 0x7f
    let daymask ← fieldMask info[2]? 31 none 0x7fffffff
    let monthmask ← fieldMask info[3]? 12 (some months) 0xfff
    return some ⟨monthmask, daymask, dowmask, minmask, timezone⟩

/-- `struct tris_tm`, what of it is read. -/
structure TrisTm where
  tmMin : ℕ
  tmHour : ℕ
  tmMday : ℕ
  tmMon : ℕ
  tmWday : ℕ
  min_lt : tmMin < 60
  hour_lt : tmHour < 24
  mday_pos : 1 ≤ tmMday
  mday_le : tmMday ≤ 31
  mon_lt : tmMon < 12
  wday_lt : tmWday < 7

/-- `tris_check_timing`, of the local time. -/
def trisCheckTiming (i : TrisTiming) (tm : TrisTm) : Bool :=
  if !i.monthmask.getLsbD tm.tmMon then false
  else if !i.daymask.getLsbD (tm.tmMday - 1) then false
  else if !i.dowmask.getLsbD tm.tmWday then false
  else if tm.tmHour > 23 then false
  else if !(i.minmask (tm.tmHour * 2 + if tm.tmMin ≥ 30 then 1 else 0)).getLsbD
      (if tm.tmMin ≥ 30 then tm.tmMin - 30 else tm.tmMin) then false
  else true

/-! ## What a specification says -/

/-- From `a` to `b`, both of them included, round and round. -/
def Cyclic (n a b x : ℕ) : Prop := (x + n - a) % n ≤ (b + n - a) % n

/-- A name of the table, or a number that is counted from one. -/
def Named (names : Option (List CString)) (max : ℕ) (s : CString) (i : ℕ) : Prop :=
  (∃ l name, names = some l ∧ l[i]? = some name ∧ strcaseEq s name = true) ∨
    ∃ rest, scan2d s = some ((i : ℤ) + 1, rest) ∧ i < max

/-- Hours and minutes. -/
def NamedTime (s : CString) (x : ℕ) : Prop :=
  ∃ h m, scanTime s = some (h, m) ∧ 0 ≤ h ∧ h ≤ 23 ∧ 0 ≤ m ∧ m ≤ 59 ∧ (x : ℤ) = h * 60 + m

/-- **The element of a field that is a range**, or one value. -/
def Range (start stop : CString → ℕ → Prop) (part : CString) (a b : ℕ) : Prop :=
  match strchr (chr '-') part with
  | none => start part a ∧ b = a
  | some (s, e) => start s a ∧ stop e b

def Ranges (names : Option (List CString)) (max : ℕ) : CString → ℕ → ℕ → Prop :=
  Range (Named names max) (Named names max)

theorem Range.lt {S E : CString → ℕ → Prop} {n a b : ℕ} {part : CString} (h : Range S E part a b)
    (hS : ∀ t i, S t i → i < n) (hE : ∀ t i, E t i → i < n) : a < n ∧ b < n := by
  unfold Range at h
  split at h
  · exact ⟨hS _ _ h.1, h.2 ▸ hS _ _ h.1⟩
  · exact ⟨hS _ _ h.1, hE _ _ h.2⟩

/-- The same of times; what stands before the digits of the end is skipped. -/
def RangesTime : CString → ℕ → ℕ → Prop :=
  Range NamedTime fun e => NamedTime (e.dropWhile fun c => !isdigit c)

/-- **What a field allows**: all where it is omitted, empty or a star, and
else what lies in a range of one of its elements. -/
def Allows (ranges : CString → ℕ → ℕ → Prop) (n : ℕ) (field : Option CString) (x : ℕ) : Prop :=
  ∀ s, field = some s → s = [] ∨ s = str "*" ∨
    ∃ part ∈ strsepAll (· = chr '&') s, ∃ a b, ranges part a b ∧ Cyclic n a b x

theorem allows_all {ranges : CString → ℕ → ℕ → Prop} {n x : ℕ} {s : CString}
    (hall : s = [] ∨ s = str "*") : Allows ranges n (some s) x := by
  rintro _ ⟨⟩
  exact hall.imp_right Or.inl

theorem allows_iff {ranges : CString → ℕ → ℕ → Prop} {n x : ℕ} {s : CString}
    (hall : ¬(s = [] ∨ s = str "*")) : Allows ranges n (some s) x ↔
      ∃ part ∈ strsepAll (· = chr '&') s, ∃ a b, ranges part a b ∧ Cyclic n a b x := by
  constructor
  · intro h
    rcases h s rfl with h | h | h
    · exact absurd (Or.inl h) hall
    · exact absurd (Or.inr h) hall
    · exact h
  · rintro h _ ⟨⟩
    exact Or.inr (Or.inr h)

/-- The fields of a specification. -/
def fields (info : CString) : List CString := strsepAll (fun c => c = chr '|' ∨ c = chr ',') info

/-! ## Round and round -/

/-- How far `y` is from `x`. -/
theorem gap_eq {n x y : ℕ} (hx : x < n) (hy : y < n) :
    (y + n - x) % n = if x ≤ y then y - x else y + n - x := by
  split_ifs with h
  · have hsum : y + n - x = y - x + n := by omega
    rw [hsum, Nat.add_mod_right, Nat.mod_eq_of_lt (by omega)]
  · exact Nat.mod_eq_of_lt (by omega)

/-- One step on, all but the place left behind are nearer. -/
theorem gap_next {n x y : ℕ} (hx : x < n) (hy : y < n) (hne : y ≠ x) :
    (y + n - (x + 1) % n) % n + 1 = (y + n - x) % n := by
  have hn : x + 1 < n ∨ x + 1 = n := by omega
  rcases hn with hn | hn
  · rw [Nat.mod_eq_of_lt hn, gap_eq hn hy, gap_eq hx hy]
    split_ifs <;> omega
  · rw [hn, Nat.mod_self, gap_eq (by omega) hy, gap_eq hx hy]
    split_ifs <;> omega

section Fill

variable {M : Type} {next : ℕ → ℕ} {set : M → ℕ → M} {n stop : ℕ}

/-- **The loop sets what is from `x` to `stop`**, that not included. -/
theorem fillLoop_spec (has : M → ℕ → Prop) (hnext : ∀ x < n, next x = (x + 1) % n)
    (hset : ∀ m, ∀ x < n, ∀ y < n, has (set m x) y ↔ has m y ∨ y = x) (hstop : stop < n)
    {fuel x : ℕ} (m : M) (hx : x < n) (hfuel : (stop + n - x) % n < fuel) :
    ∃ m', fillLoop next set stop fuel x m = some m' ∧
      ∀ y < n, has m' y ↔ has m y ∨ (y + n - x) % n < (stop + n - x) % n := by
  induction fuel generalizing x m with
  | zero => omega
  | succ fuel ih =>
    rw [fillLoop]
    by_cases h : x = stop
    · rw [if_pos h]
      refine ⟨m, rfl, fun y hy => ?_⟩
      have hzero : (stop + n - x) % n = 0 := by
        rw [h, Nat.add_sub_cancel_left, Nat.mod_self]
      rw [hzero]
      exact ⟨Or.inl, fun h => h.resolve_right (Nat.not_lt_zero _)⟩
    · rw [if_neg h, hnext x hx]
      have hgap := gap_next hx hstop (Ne.symm h)
      have hx' : (x + 1) % n < n := Nat.mod_lt _ (by omega)
      obtain ⟨m', hm', hall⟩ := ih (set m x) hx' (by omega)
      refine ⟨m', hm', fun y hy => ?_⟩
      rw [hall y hy, hset m x hx y hy, or_assoc]
      refine or_congr_right ?_
      by_cases hyx : y = x
      · have hzero : (y + n - x) % n = 0 := by
          rw [hyx, Nat.add_sub_cancel_left, Nat.mod_self]
        exact iff_of_true (Or.inl hyx) (by omega)
      · have hy' := gap_next hx hy hyx
        constructor
        · intro hor
          have hlt := hor.resolve_left hyx
          omega
        · intro hlt
          exact Or.inr (by omega)

/-- With `stop` set too, it is what lies in the range. -/
theorem cyclic_iff {x y : ℕ} (hx : x < n) (hy : y < n) (hstop : stop < n) :
    Cyclic n x stop y ↔ (y + n - x) % n < (stop + n - x) % n ∨ y = stop := by
  rw [Cyclic, gap_eq hx hy, gap_eq hx hstop]
  split_ifs <;> omega

/-- The ends of a range, where both are read. -/
def bounds (start stop : CString → Option ℕ) (part : CString) : Option (ℕ × ℕ) :=
  match strchr (chr '-') part with
  | none => (start part).map fun a => (a, a)
  | some (s, e) => (start s).bind fun a => (stop e).map fun b => (a, b)

theorem bounds_eq_some_iff {start stop : CString → Option ℕ} {S E : CString → ℕ → Prop}
    (hS : ∀ t i, start t = some i ↔ S t i) (hE : ∀ t i, stop t = some i ↔ E t i)
    {part : CString} {a b : ℕ} : bounds start stop part = some (a, b) ↔ Range S E part a b := by
  unfold bounds Range
  cases strchr (chr '-') part with
  | none =>
    dsimp only
    rw [Option.map_eq_some_iff, ← hS]
    constructor
    · rintro ⟨c, hc, heq⟩
      obtain ⟨rfl, rfl⟩ := Prod.mk.inj heq
      exact ⟨hc, rfl⟩
    · rintro ⟨hc, rfl⟩
      exact ⟨b, hc, rfl⟩
  | some r =>
    dsimp only
    rw [Option.bind_eq_some_iff, ← hS, ← hE]
    constructor
    · rintro ⟨c, hc, h⟩
      obtain ⟨d, hd, heq⟩ := Option.map_eq_some_iff.1 h
      obtain ⟨rfl, rfl⟩ := Prod.mk.inj heq
      exact ⟨hc, hd⟩
    · rintro ⟨hc, hd⟩
      exact ⟨a, hc, Option.map_eq_some_iff.2 ⟨b, hd, rfl⟩⟩

/-- **An element of a field** adds its range, if it is one. -/
theorem element_spec (has : M → ℕ → Prop) {start stop : CString → Option ℕ}
    {S E : CString → ℕ → Prop} (hS : ∀ t i, start t = some i ↔ S t i)
    (hE : ∀ t i, stop t = some i ↔ E t i) {fill : ℕ × ℕ → Option M} {m : M} {part : CString}
    (hfill : ∀ a b, Range S E part a b →
      ∃ m', fill (a, b) = some m' ∧ ∀ y < n, has m' y ↔ has m y ∨ Cyclic n a b y) :
    ∃ m', (bounds start stop part).elim (some m) fill = some m' ∧
      ∀ y < n, has m' y ↔ has m y ∨ ∃ a b, Range S E part a b ∧ Cyclic n a b y := by
  cases hb : bounds start stop part with
  | none =>
    refine ⟨m, rfl, fun y _ => (or_iff_left ?_).symm⟩
    rintro ⟨a, b, hr, -⟩
    rw [(bounds_eq_some_iff hS hE).2 hr] at hb
    cases hb
  | some r =>
    obtain ⟨a, b⟩ := r
    have hr := (bounds_eq_some_iff hS hE).1 hb
    obtain ⟨m', hm', hall⟩ := hfill a b hr
    refine ⟨m', hm', fun y hy => (hall y hy).trans (or_congr_right ⟨fun h => ⟨a, b, hr, h⟩, ?_⟩)⟩
    rintro ⟨a', b', hr', h⟩
    rw [(bounds_eq_some_iff hS hE).2 hr'] at hb
    obtain ⟨rfl, rfl⟩ := Prod.mk.inj (Option.some.inj hb)
    exact h

/-- **A loop over the elements of a field** adds what each of them adds. -/
theorem foldlM_spec (has : M → ℕ → Prop) {Q : CString → ℕ → Prop} {round : M → CString → Option M}
    (hround : ∀ m part, ∃ m', round m part = some m' ∧ ∀ y < n, has m' y ↔ has m y ∨ Q part y)
    (parts : List CString) (m : M) :
    ∃ m', parts.foldlM round m = some m' ∧
      ∀ y < n, has m' y ↔ has m y ∨ ∃ part ∈ parts, Q part y := by
  induction parts generalizing m with
  | nil => exact ⟨m, rfl, fun y _ => by simp⟩
  | cons part parts ih =>
    obtain ⟨m₁, hm₁, h₁⟩ := hround m part
    obtain ⟨m', hm', h'⟩ := ih m₁
    refine ⟨m', ?_, fun y hy => ?_⟩
    · rw [List.foldlM_cons, hm₁]
      exact hm'
    · rw [h' y hy, h₁ y hy, or_assoc]
      simp only [List.mem_cons, exists_eq_or_imp]

end Fill

/-! ## The mask of a field -/

theorem getLsbD_setBit {mask : BitVec 32} {i y : ℕ} (hi : i < 32) :
    (setBit mask i).getLsbD y = true ↔ mask.getLsbD y = true ∨ y = i := by
  rw [setBit, BitVec.getLsbD_or, Bool.or_eq_true, BitVec.getLsbD_twoPow]
  rw [decide_eq_true hi, Bool.true_and, decide_eq_true_eq, eq_comm (a := i)]

/-- A table of names: in lower case, all different. -/
structure Table (names : List CString) (max : ℕ) : Prop where
  length_le : names.length ≤ max
  letters : ∀ name ∈ names, lower name = name ∧ 97 ≤ (name.headD 0).toNat ∧
    (name.headD 0).toNat ≤ 122
  nodup : names.Nodup

theorem days_table : Table days 7 := ⟨by decide, by decide, by decide⟩

theorem months_table : Table months 12 := ⟨by decide, by decide, by decide⟩

theorem toInt_gt_iff {c : CChar} : c.toInt > 57 ↔ 57 < c.toNat ∧ c.toNat < 128 := by
  rw [BitVec.toInt_eq_toNat_cond]
  have hlt : c.toNat < 256 := c.isLt
  split_ifs <;> omega

/-- A number does not begin above the digits. -/
theorem scan2d_head {s : CString} (h : (s.headD 0).toInt > 57) : scan2d s = none := by
  cases s with
  | nil => rfl
  | cons c s =>
    have hc : 57 < c.toNat ∧ c.toNat < 128 := toInt_gt_iff.1 h
    have hspace : isspace c = false := by
      have h32 : c ≠ 32 := fun h => by rw [h] at hc; exact absurd hc (by decide)
      simp only [isspace, h32, false_or, decide_eq_false_iff_not]
      omega
    have hdigit : isdigit c = false := by
      simp only [isdigit, decide_eq_false_iff_not]
      omega
    have hminus : c ≠ chr '-' := fun h => by rw [h] at hc; exact absurd hc (by decide)
    have hplus : c ≠ chr '+' := fun h => by rw [h] at hc; exact absurd hc (by decide)
    have hnone : ((c :: s).take 2).takeWhile isdigit = [] := by
      rw [List.take_succ_cons, List.takeWhile_cons_of_neg (by simp [hdigit])]
    rw [scan2d, List.dropWhile_cons_of_neg (by simp [hspace])]
    show (if c = chr '-' then _ else if c = chr '+' then _ else _) = none
    rw [if_neg hminus, if_neg hplus, scanDigits, hnone]
    rfl

/-- Equal but for case, both begin with a letter. -/
theorem head_of_strcaseEq {s name : CString} (h : strcaseEq s name = true)
    (hl : lower name = name) (hn : 97 ≤ (name.headD 0).toNat) (hn' : (name.headD 0).toNat ≤ 122) :
    (s.headD 0).toInt > 57 := by
  have heq : lower s = name := (of_decide_eq_true h).trans hl
  cases s with
  | nil =>
    rw [← heq] at hn
    exact absurd hn (by decide)
  | cons c s =>
    rw [← heq] at hn hn'
    have hn : 97 ≤ (tolower c).toNat := hn
    have hn' : (tolower c).toNat ≤ 122 := hn'
    refine toInt_gt_iff.2 ?_
    show 57 < c.toNat ∧ c.toNat < 128
    unfold tolower at hn hn'
    split_ifs at hn hn' <;> omega

/-- The index is that of the name, of which there is one. -/
theorem findIdx?_eq_some_iff {names : List CString} {max : ℕ} (ht : Table names max) {s : CString}
    {i : ℕ} : names.findIdx? (strcaseEq s) = some i ↔
      ∃ name, names[i]? = some name ∧ strcaseEq s name = true := by
  rw [List.findIdx?_eq_some_iff_getElem]
  constructor
  · rintro ⟨hi, hs, -⟩
    exact ⟨names[i], List.getElem?_eq_getElem hi, hs⟩
  · rintro ⟨name, hi, hs⟩
    obtain ⟨hlt, rfl⟩ := List.getElem?_eq_some_iff.1 hi
    refine ⟨hlt, hs, fun j hj hsj => ?_⟩
    have hlow : ∀ k (hk : k < names.length), strcaseEq s names[k] = true → lower s = names[k] :=
      fun k hk h => (of_decide_eq_true h).trans (ht.letters _ (List.getElem_mem hk)).1
    have heq : names[j] = names[i] :=
      (hlow j (by omega) hsj).symm.trans (hlow i hlt hs)
    have hij := ht.nodup.getElem_inj_iff.1 heq
    omega

/-- A number of the table's range, counted from zero. -/
def numbered (s : CString) (max : ℕ) : Option ℕ :=
  match scan2d s with
  | some (i, _) => if 1 ≤ i ∧ i ≤ max then some (i - 1).toNat else none
  | none => none

theorem numbered_eq_some_iff {s : CString} {max i : ℕ} :
    numbered s max = some i ↔ ∃ rest, scan2d s = some ((i : ℤ) + 1, rest) ∧ i < max := by
  unfold numbered
  cases hs : scan2d s with
  | none => simp
  | some r =>
    obtain ⟨z, rest⟩ := r
    simp only [Option.some.injEq, Prod.mk.injEq]
    constructor
    · intro h
      split_ifs at h with hz
      have hi : (z - 1).toNat = i := Option.some.inj h
      exact ⟨rest, ⟨by omega, rfl⟩, by omega⟩
    · rintro ⟨rest', ⟨rfl, -⟩, hi⟩
      rw [if_pos (by omega)]
      exact congrArg some (by omega)

/-- **What `lookup_name` finds** is what is named. -/
theorem lookupName_eq_some_iff {names : Option (List CString)} {s : CString} {max i : ℕ}
    (ht : ∀ l, names = some l → Table l max) :
    lookupName s names max = some i ↔ Named names max s i := by
  cases names with
  | none =>
    show numbered s max = some i ↔ _
    rw [numbered_eq_some_iff, Named]
    simp
  | some l =>
    have ht := ht l rfl
    by_cases hhead : (s.headD 0).toInt > 57
    · have hscan := scan2d_head hhead
      have hlook : lookupName s (some l) max = l.findIdx? (strcaseEq s) := by
        unfold lookupName
        rw [hscan]
        simp only [if_pos hhead]
        cases l.findIdx? (strcaseEq s) <;> rfl
      rw [hlook, findIdx?_eq_some_iff ht, Named, hscan]
      simp
    · have hlook : lookupName s (some l) max = numbered s max := by
        unfold lookupName numbered
        simp only [if_neg hhead]
      rw [hlook, numbered_eq_some_iff, Named]
      constructor
      · exact Or.inr
      · rintro (⟨l', name, hl', hi, hs⟩ | h)
        · obtain rfl := Option.some.inj hl'
          obtain ⟨hl, hn, hn'⟩ := ht.letters name (List.mem_of_getElem? hi)
          exact absurd (head_of_strcaseEq hs hl hn hn') hhead
        · exact h

theorem Named.lt {names : Option (List CString)} {s : CString} {max i : ℕ}
    (ht : ∀ l, names = some l → Table l max) (h : Named names max s i) : i < max := by
  rcases h with ⟨l, name, hl, hi, -⟩ | ⟨rest, -, hi⟩
  · have hlen := (ht l hl).length_le
    have hlt := (List.getElem?_eq_some_iff.1 hi).1
    omega
  · exact hi

theorem rangeElement_eq (max : ℕ) (names : Option (List CString)) (mask : BitVec 32)
    (part : CString) : rangeElement max names mask part =
      (bounds (lookupName · names max) (lookupName · names max) part).elim (some mask) fun r =>
        fillLoop (fun x => if x + 1 ≥ max then 0 else x + 1) setBit r.2 (max + 1) r.1
          (setBit mask r.2) := by
  unfold rangeElement bounds
  cases strchr (chr '-') part with
  | none =>
    dsimp only
    cases lookupName part names max <;> rfl
  | some r =>
    dsimp only
    cases lookupName r.1 names max with
    | none => rfl
    | some a =>
      dsimp only
      cases lookupName r.2 names max <;> rfl

/-- **An element of a field** sets the bits of its range, if it is one. -/
theorem rangeElement_spec {names : Option (List CString)} {max : ℕ} (hmax : max ≤ 31)
    (ht : ∀ l, names = some l → Table l max) (mask : BitVec 32) (part : CString) :
    ∃ mask', rangeElement max names mask part = some mask' ∧ ∀ y < max,
      mask'.getLsbD y = true ↔ mask.getLsbD y = true ∨
        ∃ a b, Ranges names max part a b ∧ Cyclic max a b y := by
  rw [rangeElement_eq]
  have hread : ∀ t i, lookupName t names max = some i ↔ Named names max t i :=
    fun t i => lookupName_eq_some_iff ht
  refine element_spec (fun (m : BitVec 32) y => m.getLsbD y = true) hread hread fun a b hr => ?_
  obtain ⟨ha, hb⟩ := hr.lt (fun t i h => Named.lt ht h) fun t i h => Named.lt ht h
  have hnext : ∀ x < max, (if x + 1 ≥ max then 0 else x + 1) = (x + 1) % max := by
    intro x hx
    split_ifs with h
    · have heq : x + 1 = max := by omega
      rw [heq, Nat.mod_self]
    · exact (Nat.mod_eq_of_lt (by omega)).symm
  have hgap : (b + max - a) % max < max + 1 := by
    have hlt := Nat.mod_lt (b + max - a) (show 0 < max by omega)
    omega
  obtain ⟨mask', hrun, hall⟩ := fillLoop_spec (fun (m : BitVec 32) y => m.getLsbD y = true) hnext
    (fun m x hx y _ => getLsbD_setBit (by omega)) hb (setBit mask b) ha hgap
  refine ⟨mask', hrun, fun y hy => ?_⟩
  rw [hall y hy, getLsbD_setBit (by omega), cyclic_iff ha hy hb, or_assoc, or_comm (a := y = b)]

/-- The mask with all bits. -/
theorem getLsbD_full {max y : ℕ} (hmax : max ≤ 31) (hy : y < max) :
    (BitVec.twoPow 32 max - 1).getLsbD y = true := by
  have hlt : 2 ^ max < 2 ^ 32 := Nat.pow_lt_pow_right (by omega) (by omega)
  have hpos : 0 < 2 ^ max := Nat.two_pow_pos max
  have hnat : (BitVec.twoPow 32 max - 1).toNat = 2 ^ max - 1 := by
    rw [BitVec.toNat_sub, BitVec.toNat_twoPow, Nat.mod_eq_of_lt hlt]
    show (2 ^ 32 - 1 + 2 ^ max) % 2 ^ 32 = 2 ^ max - 1
    omega
  rw [BitVec.getLsbD, hnat, Nat.testBit_two_pow_sub_one, decide_eq_true hy]

/-- **The mask of a field** has the bits that the field allows. -/
theorem fieldMask_spec (names : Option (List CString)) (max : ℕ) (mask : BitVec 32)
    (field : Option CString) (hmax : max ≤ 31) (ht : ∀ l, names = some l → Table l max)
    (hmask : mask = BitVec.twoPow 32 max - 1) :
    ∃ mask', fieldMask field max names mask = some mask' ∧ ∀ y < max,
      mask'.getLsbD y = true ↔ Allows (Ranges names max) max field y := by
  cases field with
  | none =>
    refine ⟨mask, rfl, fun y hy => iff_of_true ?_ fun s hs => ?_⟩
    · rw [hmask]
      exact getLsbD_full hmax hy
    · cases hs
  | some src =>
    unfold fieldMask getRange
    simp only
    by_cases hall : src = [] ∨ src = str "*"
    · rw [if_pos hall]
      exact ⟨_, rfl, fun y hy => iff_of_true (getLsbD_full hmax hy) (allows_all hall)⟩
    · rw [if_neg hall]
      obtain ⟨mask', hrun, h⟩ := foldlM_spec (fun (m : BitVec 32) y => m.getLsbD y = true)
        (rangeElement_spec hmax ht) (strsepAll (· = chr '&') src) 0
      refine ⟨mask', hrun, fun y hy => ?_⟩
      have hzero : ¬(0 : BitVec 32).getLsbD y = true := by simp
      rw [h y hy, or_iff_right hzero, allows_iff hall]

/-! ## The mask of the minutes -/

/-- The bit of a minute of the day. -/
def hasMinute (minmask : ℕ → BitVec 32) (x : ℕ) : Prop :=
  (minmask (x / 30)).getLsbD (x % 30) = true

theorem hasMinute_setWord {minmask : ℕ → BitVec 32} {x y : ℕ} :
    hasMinute (setWord minmask (x / 30) (x % 30)) y ↔ hasMinute minmask y ∨ y = x := by
  unfold hasMinute setWord
  by_cases hw : y / 30 = x / 30
  · rw [hw, Function.update_self, getLsbD_setBit (by omega)]
    refine or_congr_right ⟨fun h => by omega, fun h => by rw [h]⟩
  · rw [Function.update_of_ne hw]
    refine (or_iff_left ?_).symm
    rintro rfl
    exact hw rfl

/-- A valid time is the one that is named. -/
theorem validTime_eq_some_iff {s : CString} {h m : ℕ} :
    validTime s = some (h, m) ↔ scanTime s = some ((h : ℤ), (m : ℤ)) ∧ h ≤ 23 ∧ m ≤ 59 := by
  unfold validTime
  cases hs : scanTime s with
  | none => simp
  | some r =>
    obtain ⟨a, b⟩ := r
    simp only [Option.some.injEq, Prod.mk.injEq]
    constructor
    · intro hr
      split_ifs at hr with hc
      obtain ⟨rfl, rfl⟩ := Prod.mk.inj (Option.some.inj hr)
      exact ⟨⟨by omega, by omega⟩, by omega, by omega⟩
    · rintro ⟨⟨rfl, rfl⟩, hh, hm⟩
      rw [if_neg (by omega)]
      rfl

/-- The minute of the day of a valid time. -/
def minuteOf (s : CString) : Option ℕ := (validTime s).map fun r => r.1 * 60 + r.2

theorem minuteOf_eq_some_iff (s : CString) (x : ℕ) : minuteOf s = some x ↔ NamedTime s x := by
  unfold minuteOf
  rw [Option.map_eq_some_iff]
  constructor
  · rintro ⟨⟨h, m⟩, hs, rfl⟩
    obtain ⟨hs, hh, hm⟩ := validTime_eq_some_iff.1 hs
    exact ⟨h, m, hs, by omega, by omega, by omega, by omega, by push_cast; rfl⟩
  · rintro ⟨h, m, hs, h0, h23, m0, m59, hx⟩
    refine ⟨(h.toNat, m.toNat), validTime_eq_some_iff.2 ⟨?_, by omega, by omega⟩, by omega⟩
    rw [hs, Int.toNat_of_nonneg h0, Int.toNat_of_nonneg m0]

theorem NamedTime.lt {s : CString} {x : ℕ} (h : NamedTime s x) : x < 1440 := by
  obtain ⟨h, m, -, h0, h23, m0, m59, hx⟩ := h
  omega

/-- The loop over a range of minutes, with the end set behind it. -/
def fillMinutes (minmask : ℕ → BitVec 32) (a b : ℕ) : Option (ℕ → BitVec 32) :=
  (fillLoop (fun x => (x + 1) % (24 * 60)) (fun mask x => setWord mask (x / 30) (x % 30)) b
    (24 * 60 + 1) a minmask).map fun mask => setWord mask (b / 30) (b % 30)

theorem timeElement_eq (minmask : ℕ → BitVec 32) (part : CString) : timeElement minmask part =
    (bounds minuteOf (fun e => minuteOf (e.dropWhile fun c => !isdigit c)) part).elim
      (some minmask) fun r => fillMinutes minmask r.1 r.2 := by
  unfold timeElement bounds minuteOf
  cases strchr (chr '-') part with
  | none =>
    dsimp only
    cases hv : validTime part with
    | none => rfl
    | some r =>
      obtain ⟨h, m⟩ := r
      obtain ⟨-, hh, hm⟩ := validTime_eq_some_iff.1 hv
      have hword : (h * 2 + if m ≥ 30 then 1 else 0) = (h * 60 + m) / 30 := by
        split_ifs <;> omega
      have hbit : m % 30 = (h * 60 + m) % 30 := by omega
      dsimp only [Option.map_some, Option.elim_some]
      rw [hword, hbit, fillMinutes, fillLoop, if_pos rfl]
      rfl
  | some r =>
    dsimp only
    by_cases he : r.2.dropWhile (fun c => !isdigit c) = []
    · rw [if_pos he, he]
      cases validTime r.1 <;> rfl
    · rw [if_neg he]
      cases validTime r.1 with
      | none => rfl
      | some a => cases validTime (r.2.dropWhile fun c => !isdigit c) <;> rfl

/-- **An element of the times** sets the minutes of its range, if it is one. -/
theorem timeElement_spec (minmask : ℕ → BitVec 32) (part : CString) :
    ∃ mask', timeElement minmask part = some mask' ∧ ∀ y < 1440,
      hasMinute mask' y ↔ hasMinute minmask y ∨
        ∃ a b, RangesTime part a b ∧ Cyclic 1440 a b y := by
  rw [timeElement_eq]
  refine element_spec hasMinute minuteOf_eq_some_iff (fun t => minuteOf_eq_some_iff _)
    fun a b hr => ?_
  obtain ⟨ha, hb⟩ := hr.lt (fun t i => NamedTime.lt) fun t i => NamedTime.lt
  have hgap := Nat.mod_lt (b + 1440 - a) (show 0 < 1440 by omega)
  have hset : ∀ (m : ℕ → BitVec 32), ∀ x < 1440, ∀ y < 1440,
      hasMinute (setWord m (x / 30) (x % 30)) y ↔ hasMinute m y ∨ y = x :=
    fun m x _ y _ => hasMinute_setWord
  have hnext : ∀ x < 1440, (x + 1) % (24 * 60) = (x + 1) % 1440 := fun x _ => rfl
  obtain ⟨mask', hrun, hall⟩ := fillLoop_spec hasMinute hnext hset hb minmask ha
    (show _ < 24 * 60 + 1 by omega)
  refine ⟨_, congrArg _ hrun, fun y hy => ?_⟩
  rw [hasMinute_setWord, hall y hy, or_assoc, ← cyclic_iff ha hy hb]

/-- **The minutes of a field of times** are those that the field allows. -/
theorem getTimerange_spec (times : CString) :
    ∃ mask', getTimerange times = some mask' ∧ ∀ y < 1440,
      hasMinute mask' y ↔ Allows RangesTime 1440 (some times) y := by
  unfold getTimerange
  by_cases hall : times = [] ∨ times = str "*"
  · rw [if_pos hall]
    refine ⟨_, rfl, fun y hy => iff_of_true ?_ (allows_all hall)⟩
    have hfull : (0x3fffffff : BitVec 32) = BitVec.twoPow 32 30 - 1 := by decide
    show (0x3fffffff : BitVec 32).getLsbD (y % 30) = true
    rw [hfull]
    exact getLsbD_full (by omega) (by omega)
  · rw [if_neg hall]
    obtain ⟨mask', hrun, h⟩ := foldlM_spec hasMinute timeElement_spec
      (strsepAll (· = chr '&') times) fun _ => 0
    refine ⟨mask', hrun, fun y hy => ?_⟩
    have hzero : ¬hasMinute (fun _ => 0) y := by simp [hasMinute]
    rw [h y hy, or_iff_right hzero, allows_iff hall]

/-! ## The specification and the time -/

/-- What is compared, with the mask of the minutes read by the minute of the
day. -/
theorem trisCheckTiming_iff (i : TrisTiming) (tm : TrisTm) :
    trisCheckTiming i tm = true ↔ hasMinute i.minmask (tm.tmHour * 60 + tm.tmMin) ∧
      i.dowmask.getLsbD tm.tmWday = true ∧ i.daymask.getLsbD (tm.tmMday - 1) = true ∧
        i.monthmask.getLsbD tm.tmMon = true := by
  have hmin := tm.min_lt
  have hhour := tm.hour_lt
  have hword : (tm.tmHour * 2 + if tm.tmMin ≥ 30 then 1 else 0) =
      (tm.tmHour * 60 + tm.tmMin) / 30 := by
    split_ifs <;> omega
  have hbit : (if tm.tmMin ≥ 30 then tm.tmMin - 30 else tm.tmMin) =
      (tm.tmHour * 60 + tm.tmMin) % 30 := by
    split_ifs <;> omega
  unfold trisCheckTiming hasMinute
  rw [hword, hbit]
  rw [if_neg (by omega : ¬tm.tmHour > 23)]
  cases i.monthmask.getLsbD tm.tmMon <;> cases i.daymask.getLsbD (tm.tmMday - 1) <;>
    cases i.dowmask.getLsbD tm.tmWday <;>
    cases (i.minmask ((tm.tmHour * 60 + tm.tmMin) / 30)).getLsbD
      ((tm.tmHour * 60 + tm.tmMin) % 30) <;> simp

/-- A string has a first token. -/
theorem strsepAll_head (delim : CChar → Bool) (s : CString) :
    (strsepAll delim s)[0]? = some ((strsepAll delim s).headD []) := by
  cases s with
  | nil => rfl
  | cons c s =>
    rw [strsepAll]
    split_ifs
    · rfl
    · cases strsepAll delim s <;> rfl

/-- **A specification is built for every string that is not empty, and it
holds at a time exactly if** the minute of the day, the day of the week, the
day of the month and the month are each what its field allows. -/
theorem timing_spec (info : CString) :
    ∃ r, trisBuildTiming info = some r ∧ (r = none ↔ info = []) ∧
      ∀ i, r = some i → ∀ tm : TrisTm, trisCheckTiming i tm = true ↔
        Allows RangesTime 1440 (fields info)[0]? (tm.tmHour * 60 + tm.tmMin) ∧
          Allows (Ranges (some days) 7) 7 (fields info)[1]? tm.tmWday ∧
          Allows (Ranges none 31) 31 (fields info)[2]? (tm.tmMday - 1) ∧
          Allows (Ranges (some months) 12) 12 (fields info)[3]? tm.tmMon := by
  by_cases hinfo : info = []
  · refine ⟨none, by rw [trisBuildTiming, if_pos hinfo], iff_of_true rfl hinfo, fun i hi => ?_⟩
    cases hi
  · obtain ⟨minmask, hmin, hmin'⟩ := getTimerange_spec ((fields info).headD [])
    obtain ⟨dow, hdow, hdow'⟩ := fieldMask_spec (some days) 7 0x7f (fields info)[1]? (by omega)
      (fun l hl => Option.some.inj hl ▸ days_table) (by decide)
    obtain ⟨day, hday, hday'⟩ := fieldMask_spec none 31 0x7fffffff (fields info)[2]? (by omega)
      (fun l hl => by cases hl) (by decide)
    obtain ⟨month, hmonth, hmonth'⟩ := fieldMask_spec (some months) 12 0xfff (fields info)[3]?
      (by omega) (fun l hl => Option.some.inj hl ▸ months_table) (by decide)
    have hhead : some ((fields info).headD []) = (fields info)[0]? := (strsepAll_head _ info).symm
    rw [hhead] at hmin'
    have hrun : ∃ timezone, trisBuildTiming info =
        some (some ⟨month, day, dow, minmask, timezone⟩) := by
      unfold fields at hmin hdow hday hmonth
      unfold trisBuildTiming
      rw [if_neg hinfo]
      simp only [hmin, hdow, hday, hmonth, Option.bind_eq_bind, Option.bind_some]
      exact ⟨_, rfl⟩
    obtain ⟨timezone, hrun⟩ := hrun
    refine ⟨_, hrun, iff_of_false (Option.some_ne_none _) hinfo, fun i hi tm => ?_⟩
    obtain rfl := Option.some.inj hi
    have hmin := tm.min_lt
    have hhour := tm.hour_lt
    have hday := tm.mday_le
    have hpos := tm.mday_pos
    rw [trisCheckTiming_iff, hmin' _ (by omega), hdow' _ tm.wday_lt, hday' _ (by omega),
      hmonth' _ tm.mon_lt]

end Timing

end Pbx

end Trismedia
