import Trismedia.Common.CString
/-!
# The arguments of an application

`__tris_app_separate_args` of `main/app.c`. The string is the memory it stands
in, its terminator included, and a pointer is an index. The scanning loop takes
fuel. The result `none` is a loop that runs out of it, or a read behind that
memory.
-/


namespace Trismedia

namespace App

namespace SeparateArgs

open CString

/-! ## The code -/

/-- The memory of `buf`, and `scan`, `wasdelim`, `paren` and `quote`. -/
structure Scan where
  mem : List CChar
  scan : ℕ
  wasdelim : Option ℕ
  paren : ℕ
  quote : Bool

/-- The string at a pointer. -/
def stringAt (mem : List CChar) (p : ℕ) : CString := (mem.drop p).takeWhile fun c => c ≠ 0

/-- `memmove(p, p + 1, strlen(p))` -/
def removeAt (mem : List CChar) (p : ℕ) : List CChar :=
  let n := (stringAt mem p).length
  mem.take p ++ ((mem.drop (p + 1)).take n ++ mem.drop (p + n))

/-- The loop over an argument. What removes a quote goes back by one, and the
loop goes on by one. -/
def scanArg (delim : CChar) (removeChars : Bool) : ℕ → Scan → Option Scan
  | 0, _ => none
  | fuel + 1, s =>
    (s.mem[s.scan]?).bind fun c =>
      if c = 0 then some s
      else if c = chr '(' then
        scanArg delim removeChars fuel { s with paren := s.paren + 1, scan := s.scan + 1 }
      else if c = chr ')' then
        scanArg delim removeChars fuel { s with paren := s.paren - 1, scan := s.scan + 1 }
      else if c = chr '"' ∧ delim ≠ chr '"' then
        if removeChars then
          scanArg delim removeChars fuel { s with quote := !s.quote, mem := removeAt s.mem s.scan }
        else scanArg delim removeChars fuel { s with quote := !s.quote, scan := s.scan + 1 }
      else if c = chr '\\' then
        if removeChars then
          scanArg delim removeChars fuel
            { s with mem := removeAt s.mem s.scan, scan := s.scan + 1 }
        else scanArg delim removeChars fuel { s with scan := s.scan + 2 }
      else if c = delim ∧ s.paren = 0 ∧ s.quote = false then
        some { s with wasdelim := some s.scan, mem := s.mem.set s.scan 0, scan := s.scan + 1 }
      else scanArg delim removeChars fuel { s with scan := s.scan + 1 }

/-- The loop over the arguments, with `n` of the array left but the last. -/
def separateLoop (delim : CChar) (removeChars : Bool) (fuel : ℕ) :
    ℕ → Scan → List ℕ → Option (Scan × List ℕ)
  | 0, s, array => some (s, array)
  | n + 1, s, array =>
    (s.mem[s.scan]?).bind fun c =>
      if c = 0 then some (s, array)
      else (scanArg delim removeChars fuel s).bind fun s' =>
        separateLoop delim removeChars fuel n s' (array ++ [s.scan])

/-- The last argument, and the strings of the array. -/
def lastArg (s : Scan) (array : List ℕ) : Option (List CString) :=
  (s.mem[s.scan]?).map fun c =>
    (if c ≠ 0 ∨ 0 < s.scan ∧ s.wasdelim = some (s.scan - 1) then array ++ [s.scan]
    else array).map (stringAt s.mem)

/-- **`__tris_app_separate_args`**, with what it stores. -/
def separateArgs (fuel : ℕ) (buf : CString) (delim : CChar) (removeChars : Bool) (arraylen : ℕ) :
    Option (List CString) :=
  if arraylen = 0 then some []
  else
    (separateLoop delim removeChars fuel (arraylen - 1) ⟨buf ++ [0], 0, none, 0, false⟩ []).bind
      fun r => lastArg r.1 r.2

/-! ## What is asked of it -/

/-- Where in parentheses and quotes a character stands, and whether a backslash
escapes it. -/
structure Nesting where
  paren : ℕ
  quote : Bool
  escaped : Bool
  deriving DecidableEq

def outside : Nesting := ⟨0, false, false⟩

/-- Where the next one stands. -/
def Nesting.next (t : Nesting) (c : CChar) : Nesting :=
  if t.escaped then { t with escaped := false }
  else if c = chr '(' then { t with paren := t.paren + 1 }
  else if c = chr ')' then { t with paren := t.paren - 1 }
  else if c = chr '"' then { t with quote := !t.quote }
  else if c = chr '\\' then { t with escaped := true }
  else t

/-- **The first delimiter outside**: what stands before it, and what is behind. -/
def firstCut (delim : CChar) : Nesting → CString → Option (CString × CString)
  | _, [] => none
  | t, c :: s =>
    if c = delim ∧ t = outside then some ([], s)
    else (firstCut delim (t.next c) s).map fun r => (c :: r.1, r.2)

/-- A string without its quotes and the backslashes that escape. -/
def cleaned : Bool → CString → CString
  | _, [] => []
  | true, c :: s => c :: cleaned false s
  | false, c :: s =>
    if c = chr '\\' then cleaned true s
    else if c = chr '"' then cleaned false s
    else c :: cleaned false s

/-- How an argument is stored. -/
def stored (removeChars : Bool) (a : CString) : CString := if removeChars then cleaned false a else a

/-- **The arguments**, with the last behind `n` delimiters at most: that is all
that is left. -/
def arguments (delim : CChar) (removeChars : Bool) : ℕ → CString → List CString
  | 0, s => [s]
  | n + 1, s =>
    match firstCut delim outside s with
    | none => [stored removeChars s]
    | some (a, b) => stored removeChars a :: arguments delim removeChars n b

/-- **The arguments are separated.** -/
def Separates (buf : CString) (delim : CChar) (removeChars : Bool) (arraylen : ℕ) : Prop :=
  ∃ fuel array, separateArgs fuel buf delim removeChars arraylen = some array ∧
    array.length ≤ arraylen ∧
    array = (if buf = [] then [] else arguments delim removeChars (arraylen - 1) buf) ∧
    (removeChars = false → [delim].intercalate array = buf)

/-- The argument that the end of the string ends, if the array has room. -/
def lastScanned (delim : CChar) : ℕ → CString → Option CString
  | 0, _ => none
  | n + 1, s =>
    match firstCut delim outside s with
    | none => some s
    | some (_, b) => lastScanned delim n b

/-- The end is escaped. -/
def endsEscaped : Bool → CString → Bool
  | escaped, [] => escaped
  | true, _ :: s => endsEscaped false s
  | false, c :: s => endsEscaped (c = chr '\\') s

/-- **A string that is separated**: where characters are kept, no backslash
escapes the end of the last argument; and where they are removed, no last
argument behind a delimiter is of quotes only. -/
def Separable (buf : CString) (delim : CChar) (removeChars : Bool) (arraylen : ℕ) : Prop :=
  ∀ l, lastScanned delim (arraylen - 1) buf = some l →
    if removeChars then
      firstCut delim outside buf = none ∨ l = [] ∨ ∃ c ∈ l, c ≠ chr '"'
    else endsEscaped false l = false

/-- The characters that are no delimiters. -/
def special : List CChar := [chr '(', chr ')', chr '"', chr '\\']

variable {delim c : CChar} {removeChars : Bool} {t t' : Nesting} {r x y pre z : CString}
variable {n fuel : ℕ} {s : Scan} {wasdelim : Option ℕ} {res : Option Scan}

/-! ## A character at a time -/

/-- **What is passed**: no delimiter that is outside is in `x`, which is stored
as `y`. -/
structure Passes (delim : CChar) (removeChars : Bool) (t t' : Nesting) (x y : CString) : Prop where
  cut : ∀ r, firstCut delim t (x ++ r) = (firstCut delim t' r).map fun q => (x ++ q.1, q.2)
  keeps : ∀ r, stored removeChars (x ++ r) = y ++ stored removeChars r
  escaped : ∀ r, endsEscaped false (x ++ r) = endsEscaped false r
  quotes : y = [] ↔ ∀ c ∈ x, removeChars = true ∧ c = chr '"'

theorem firstCut_cons (h : ¬ (c = delim ∧ t = outside)) :
    firstCut delim t (c :: r) = (firstCut delim (t.next c) r).map fun q => (c :: q.1, q.2) := by
  rw [firstCut, if_neg h]

/-- A character that is neither a quote nor a backslash. -/
theorem passes_plain (hcut : ¬ (c = delim ∧ t = outside)) (hquote : c ≠ chr '"')
    (hback : c ≠ chr '\\') : Passes delim removeChars t (t.next c) [c] [c] := by
  refine ⟨fun r => firstCut_cons hcut, fun r => ?_, fun r => ?_, ?_⟩
  · unfold stored
    by_cases hremove : removeChars = true
    · rw [if_pos hremove, if_pos hremove, List.singleton_append, cleaned, if_neg hback,
        if_neg hquote, List.singleton_append]
    · rw [if_neg hremove, if_neg hremove]
  · rw [List.singleton_append, endsEscaped, decide_eq_false hback]
  · exact ⟨fun h => absurd h (List.cons_ne_nil c []),
      fun h => absurd (h c List.mem_cons_self).2 hquote⟩

/-- A quote. -/
theorem passes_quote (hdelim : delim ≠ chr '"') :
    Passes delim removeChars t (t.next (chr '"')) [chr '"']
      (if removeChars then [] else [chr '"']) := by
  refine ⟨fun r => firstCut_cons fun h => hdelim h.1.symm, fun r => ?_, fun r => ?_, ?_⟩
  · unfold stored
    rcases removeChars with _ | _
    · exact rfl
    · rw [if_pos rfl, if_pos rfl, if_pos rfl, List.singleton_append, cleaned, if_neg (by decide),
        if_pos rfl, List.nil_append]
  · rw [List.singleton_append, endsEscaped, decide_eq_false (by decide)]
  · rcases removeChars with _ | _
    · exact ⟨fun h => absurd h (List.cons_ne_nil _ []),
        fun h => absurd (h _ List.mem_cons_self).1 Bool.false_ne_true⟩
    · exact ⟨fun _ c hc => ⟨rfl, List.mem_singleton.1 hc⟩, fun _ => rfl⟩

/-- A backslash and what it escapes. -/
theorem passes_escape (hdelim : delim ≠ chr '\\') (ht : t.escaped = false) :
    Passes delim removeChars t t [chr '\\', c]
      (if removeChars then [c] else [chr '\\', c]) := by
  have hnext : t.next (chr '\\') = { t with escaped := true } := by
    unfold Nesting.next
    rw [ht, if_neg Bool.false_ne_true, if_neg (by decide), if_neg (by decide), if_neg (by decide),
      if_pos rfl]
  have hback : Nesting.next { t with escaped := true } c = t := by
    unfold Nesting.next
    rw [if_pos rfl]
    exact congrArg (Nesting.mk t.paren t.quote) ht.symm
  refine ⟨fun r => ?_, fun r => ?_, fun r => ?_, ?_⟩
  · have hout : ¬ (c = delim ∧ ({ t with escaped := true } : Nesting) = outside) := fun h =>
      Bool.false_ne_true (congrArg Nesting.escaped h.2).symm
    rw [List.cons_append, List.singleton_append, firstCut_cons fun h => hdelim h.1.symm, hnext,
      firstCut_cons hout, hback, Option.map_map]
    exact rfl
  · unfold stored
    rcases removeChars with _ | _
    · exact rfl
    · rw [if_pos rfl, if_pos rfl, if_pos rfl, List.cons_append, cleaned, if_pos rfl,
        List.singleton_append, cleaned, List.singleton_append]
  · rw [List.cons_append, List.singleton_append, endsEscaped, decide_eq_true rfl, endsEscaped]
  · rcases removeChars with _ | _
    · exact ⟨fun h => absurd h (List.cons_ne_nil _ _),
        fun h => absurd (h _ List.mem_cons_self).1 Bool.false_ne_true⟩
    · exact ⟨fun h => absurd h (List.cons_ne_nil c []),
        fun h => absurd (h _ List.mem_cons_self).2 (by decide)⟩

/-- **What the loop over an argument does**, behind `pre`: it ends at a cut, with
a terminator there, or at the end. -/
def Scanned (removeChars : Bool) (pre r : CString) (wasdelim : Option ℕ)
    (cut : Option (CString × CString)) (res : Option Scan) : Prop :=
  match cut with
  | some (a, b) =>
    ∃ z, (removeChars = false → z = []) ∧ res = some
      { mem := pre ++ (stored removeChars a ++ 0 :: (b ++ 0 :: z))
        scan := pre.length + (stored removeChars a).length + 1
        wasdelim := some (pre.length + (stored removeChars a).length)
        paren := 0
        quote := false }
  | none =>
    if removeChars = false ∧ endsEscaped false r = true then res = none
    else ∃ s z, res = some s ∧ s.mem = pre ++ (stored removeChars r ++ 0 :: z) ∧
      s.mem[s.scan]? = some 0 ∧ s.wasdelim = wasdelim ∧ pre.length ≤ s.scan ∧
        (s.scan = pre.length ↔ ∀ c ∈ r, removeChars = true ∧ c = chr '"')

/-- Behind what is passed. -/
theorem Scanned.pass (hpass : Passes delim removeChars t t' x y)
    (h : Scanned removeChars (pre ++ y) r wasdelim (firstCut delim t' r) res) :
    Scanned removeChars pre (x ++ r) wasdelim (firstCut delim t (x ++ r)) res := by
  rw [hpass.cut]
  rcases hcut : firstCut delim t' r with _ | ⟨a, b⟩
  · rw [hcut] at h
    unfold Scanned at h ⊢
    dsimp only [Option.map_none] at h ⊢
    rw [hpass.escaped, hpass.keeps]
    by_cases hend : removeChars = false ∧ endsEscaped false r = true
    · rw [if_pos hend] at h ⊢
      exact h
    · rw [if_neg hend] at h ⊢
      obtain ⟨s, z, hres, hmem, hzero, hwas, hle, hiff⟩ := h
      rw [List.length_append] at hle hiff
      refine ⟨s, z, hres, ?_, hzero, hwas, by omega, ?_⟩
      · rw [hmem, List.append_assoc, List.append_assoc]
      · have hy : y = [] ↔ y.length = 0 := List.length_eq_zero_iff.symm
        have hq := hpass.quotes
        rw [List.forall_mem_append]
        constructor
        · intro heq
          exact ⟨hq.1 (hy.2 (by omega)), hiff.1 (by omega)⟩
        · rintro ⟨hx, hr⟩
          have hzero := hy.1 (hq.2 hx)
          have hend := hiff.2 hr
          omega
  · rw [hcut] at h
    unfold Scanned at h ⊢
    dsimp only [Option.map_some] at h ⊢
    obtain ⟨z, hz, hres⟩ := h
    refine ⟨z, hz, ?_⟩
    rw [hres, hpass.keeps, List.length_append, List.length_append, List.append_assoc,
      List.append_assoc, Nat.add_assoc pre.length]

/-! ## The memory -/

theorem getElem?_at (pre w : CString) (c : CChar) : (pre ++ c :: w)[pre.length]? = some c := by
  rw [List.getElem?_append_right (Nat.le_refl _), Nat.sub_self, List.getElem?_cons_zero]

/-- A string is what is written up to its terminator. -/
theorem stringAt_append (pre z : CString) (h : 0 ∉ r) :
    stringAt (pre ++ (r ++ 0 :: z)) pre.length = r := by
  unfold stringAt
  have hall : ∀ c ∈ r, decide (c ≠ 0) = true := fun c hc =>
    decide_eq_true fun (heq : c = 0) => h (heq ▸ hc)
  rw [List.drop_left, List.takeWhile_append_of_pos hall, List.takeWhile_cons_of_neg (by decide),
    List.append_nil]

/-- **The rest of the string moves up**, and its terminator stays as well. -/
theorem removeAt_append (pre z : CString) (h : 0 ∉ c :: r) :
    removeAt (pre ++ (c :: r ++ 0 :: z)) pre.length = pre ++ (r ++ 0 :: 0 :: z) := by
  unfold removeAt
  rw [stringAt_append pre z h]
  dsimp only
  have hbehind : (pre ++ (c :: r ++ 0 :: z)).drop (pre.length + 1) = r ++ 0 :: z := by
    rw [← List.drop_drop, List.drop_left]
    exact rfl
  have hrest : (pre ++ (c :: r ++ 0 :: z)).drop (pre.length + (c :: r).length) = 0 :: z := by
    rw [← List.drop_drop, List.drop_left, List.drop_left]
  have hmoved : (r ++ 0 :: z).take (c :: r).length = r ++ [0] := by
    rw [List.length_cons, List.take_length_add_append, List.take_succ_cons, List.take_zero]
  rw [List.take_left, hbehind, hrest, hmoved, List.append_assoc, List.singleton_append]

theorem set_append (pre w : CString) (c d : CChar) :
    (pre ++ c :: w).set pre.length d = pre ++ d :: w := by
  rw [List.set_append_right _ _ (Nat.le_refl _), Nat.sub_self, List.set_cons_zero]

/-! ## The loop over an argument -/

/-- A backslash that escapes the end: where it stays, what is behind the end is
read. -/
theorem scanned_lone (hdelim : delim ≠ chr '\\') (hfuel : 0 < fuel) (hc : c = chr '\\')
    (hmem : s.mem = pre ++ ([c] ++ 0 :: z)) (hscan : s.scan = pre.length)
    (hz : removeChars = false → z = []) :
    Scanned removeChars pre [c] s.wasdelim (firstCut delim ⟨s.paren, s.quote, false⟩ [c])
      (if removeChars then
        scanArg delim removeChars fuel { s with mem := removeAt s.mem s.scan, scan := s.scan + 1 }
      else scanArg delim removeChars fuel { s with scan := s.scan + 2 }) := by
  have hnext : Nesting.next ⟨s.paren, s.quote, false⟩ c = ⟨s.paren, s.quote, true⟩ := by
    unfold Nesting.next
    rw [hc, if_neg Bool.false_ne_true, if_neg (by decide), if_neg (by decide), if_neg (by decide),
      if_pos rfl]
  rw [firstCut_cons fun h => hdelim (h.1.symm.trans hc), hnext, firstCut, Option.map_none]
  unfold Scanned
  dsimp only
  have hend : endsEscaped false [c] = true := by
    rw [endsEscaped, endsEscaped, hc]
    decide
  obtain ⟨fuel, rfl⟩ : ∃ m, fuel = m + 1 := ⟨fuel - 1, by omega⟩
  rcases removeChars with _ | _
  · rw [if_pos ⟨rfl, hend⟩, if_neg Bool.false_ne_true, scanArg]
    have hread : s.mem[s.scan + 2]? = none := by
      rw [hmem, hscan, hz rfl, List.getElem?_eq_none_iff, List.length_append]
      exact Nat.le_refl _
    dsimp only
    rw [hread, Option.bind_none]
  · rw [if_neg fun h => absurd h.1.symm Bool.false_ne_true, if_pos rfl, scanArg]
    have hmoved : removeAt s.mem s.scan = pre ++ 0 :: 0 :: z := by
      rw [hmem, hscan]
      exact removeAt_append pre z (by rw [hc]; decide)
    have hread : (removeAt s.mem s.scan)[s.scan + 1]? = some 0 := by
      rw [hmoved, hscan, List.getElem?_append_right (Nat.le_add_right _ 1), Nat.add_sub_cancel_left]
      exact rfl
    dsimp only
    rw [hread, Option.bind_some, if_pos rfl]
    have hnone : stored true [c] = [] := by
      unfold stored
      rw [if_pos rfl, cleaned, if_pos hc, cleaned]
    refine ⟨_, 0 :: z, rfl, ?_, hread, rfl, by show _ ≤ s.scan + 1; omega, ?_⟩
    · rw [hnone]
      exact hmoved
    · constructor
      · intro h
        exact absurd (show s.scan + 1 = pre.length from h) (by omega)
      · intro h
        have hquote := (h c List.mem_cons_self).2
        rw [hc] at hquote
        exact absurd hquote (by decide)

/-- **An argument is scanned.** -/
theorem scanArg_spec (hdelim : delim ∉ special) : ∀ fuel (s : Scan) (pre r z : CString),
    r.length < fuel → s.mem = pre ++ (r ++ 0 :: z) → s.scan = pre.length → 0 ∉ r →
      (removeChars = false → z = []) →
      Scanned removeChars pre r s.wasdelim (firstCut delim ⟨s.paren, s.quote, false⟩ r)
        (scanArg delim removeChars fuel s) := by
  have hopen : delim ≠ chr '(' := fun h => hdelim (by rw [h]; decide)
  have hclose : delim ≠ chr ')' := fun h => hdelim (by rw [h]; decide)
  have hquote : delim ≠ chr '"' := fun h => hdelim (by rw [h]; decide)
  have hback : delim ≠ chr '\\' := fun h => hdelim (by rw [h]; decide)
  intro fuel
  induction fuel with
  | zero => exact fun s pre r z hlen => absurd hlen (Nat.not_lt_zero _)
  | succ fuel ih =>
    intro s pre r z hlen hmem hscan h0 hz
    rcases r with _ | ⟨c, r⟩
    · have hread : s.mem[s.scan]? = some 0 := by
        rw [hmem, hscan]
        exact getElem?_at pre z 0
      rw [scanArg, hread, Option.bind_some, if_pos rfl, firstCut]
      unfold Scanned
      dsimp only
      rw [if_neg (by rintro ⟨-, h⟩; exact Bool.false_ne_true h)]
      refine ⟨s, z, rfl, ?_, hread, rfl, Nat.le_of_eq hscan.symm, ?_⟩
      · rw [hmem]
        unfold stored
        rw [show cleaned false [] = [] from rfl, ite_self]
      · exact ⟨fun _ c hc => absurd hc List.not_mem_nil, fun _ => hscan⟩
    · have hread : s.mem[s.scan]? = some c := by
        rw [hmem, hscan]
        exact getElem?_at pre (r ++ 0 :: z) c
      have hlen' : r.length < fuel := Nat.lt_of_succ_lt_succ hlen
      have hc0 : c ≠ 0 := fun h => h0 (h ▸ List.mem_cons_self)
      have hr0 : 0 ∉ r := fun h => h0 (List.mem_cons_of_mem c h)
      rw [scanArg, hread, Option.bind_some, if_neg hc0]
      -- a character that is kept and passed
      have hkeep : ∀ paren quote,
          Passes delim removeChars ⟨s.paren, s.quote, false⟩ ⟨paren, quote, false⟩ [c] [c] →
            Scanned removeChars pre (c :: r) s.wasdelim
              (firstCut delim ⟨s.paren, s.quote, false⟩ (c :: r))
              (scanArg delim removeChars fuel
                { s with paren := paren, quote := quote, scan := s.scan + 1 }) := by
        intro paren quote hpass
        refine Scanned.pass hpass (ih { s with paren := paren, quote := quote, scan := s.scan + 1 }
          (pre ++ [c]) r z hlen' ?_ ?_ hr0 hz)
        · rw [hmem, List.append_assoc]
          exact rfl
        · rw [List.length_append, hscan]
          exact rfl
      by_cases hc : c = chr '('
      · rw [if_pos hc]
        refine hkeep (s.paren + 1) s.quote ?_
        have hpass := @passes_plain delim c removeChars ⟨s.paren, s.quote, false⟩
          (fun h => hopen (h.1.symm.trans hc)) (by rw [hc]; decide) (by rw [hc]; decide)
        have hnext : Nesting.next ⟨s.paren, s.quote, false⟩ c = ⟨s.paren + 1, s.quote, false⟩ := by
          unfold Nesting.next
          rw [if_neg Bool.false_ne_true, if_pos hc]
        rw [hnext] at hpass
        exact hpass
      rw [if_neg hc]
      by_cases hc' : c = chr ')'
      · rw [if_pos hc']
        refine hkeep (s.paren - 1) s.quote ?_
        have hpass := @passes_plain delim c removeChars ⟨s.paren, s.quote, false⟩
          (fun h => hclose (h.1.symm.trans hc')) (by rw [hc']; decide) (by rw [hc']; decide)
        have hnext : Nesting.next ⟨s.paren, s.quote, false⟩ c = ⟨s.paren - 1, s.quote, false⟩ := by
          unfold Nesting.next
          rw [if_neg Bool.false_ne_true, if_neg hc, if_pos hc']
        rw [hnext] at hpass
        exact hpass
      rw [if_neg hc']
      by_cases hq : c = chr '"'
      · rw [if_pos ⟨hq, hquote⟩]
        have hpass := @passes_quote delim removeChars ⟨s.paren, s.quote, false⟩ hquote
        have hnext : Nesting.next ⟨s.paren, s.quote, false⟩ (chr '"') =
            ⟨s.paren, !s.quote, false⟩ := by
          unfold Nesting.next
          rw [if_neg Bool.false_ne_true, if_neg (by decide), if_neg (by decide), if_pos rfl]
        rw [hnext, ← hq] at hpass
        rcases removeChars with _ | _
        · rw [if_neg Bool.false_ne_true] at hpass ⊢
          exact hkeep s.paren (!s.quote) hpass
        · rw [if_pos rfl] at hpass ⊢
          refine Scanned.pass hpass (ih
            { s with quote := !s.quote, mem := removeAt s.mem s.scan }
            (pre ++ []) r (0 :: z) hlen' ?_ ?_ hr0 fun h => absurd h.symm Bool.false_ne_true)
          · show removeAt s.mem s.scan = _
            rw [hmem, hscan, removeAt_append pre z h0, List.append_nil]
          · rw [List.append_nil]
            exact hscan
      rw [if_neg fun h => hq h.1]
      by_cases hb : c = chr '\\'
      · rw [if_pos hb]
        rcases r with _ | ⟨d, r⟩
        · exact scanned_lone hback hlen' hb hmem hscan hz
        have hpass := @passes_escape delim d removeChars ⟨s.paren, s.quote, false⟩ hback rfl
        have hd0 : 0 ∉ r := fun h => hr0 (List.mem_cons_of_mem d h)
        rw [List.length_cons] at hlen'
        rw [← hb] at hpass
        rcases removeChars with _ | _
        · rw [if_neg Bool.false_ne_true] at hpass ⊢
          refine Scanned.pass hpass (ih { s with scan := s.scan + 2 } (pre ++ [c, d]) r z
            (by omega) ?_ ?_ hd0 hz)
          · rw [List.append_assoc]
            exact hmem
          · rw [List.length_append]
            exact congrArg (· + 2) hscan
        · rw [if_pos rfl] at hpass ⊢
          refine Scanned.pass hpass (ih
            { s with mem := removeAt s.mem s.scan, scan := s.scan + 1 } (pre ++ [d]) r (0 :: z)
            (by omega) ?_ ?_ hd0 fun h => absurd h.symm Bool.false_ne_true)
          · show removeAt s.mem s.scan = _
            rw [hmem, hscan, removeAt_append pre z h0, List.append_assoc]
            exact rfl
          · rw [List.length_append]
            exact congrArg (· + 1) hscan
      rw [if_neg hb]
      by_cases hcut : c = delim ∧ s.paren = 0 ∧ s.quote = false
      · rw [if_pos hcut, firstCut,
          if_pos ⟨hcut.1, by rw [hcut.2.1, hcut.2.2]; exact rfl⟩]
        have hnone : stored removeChars [] = [] := by
          unfold stored
          exact ite_self _
        refine ⟨z, hz, ?_⟩
        rw [hnone, List.length_nil, Nat.add_zero, List.nil_append, hcut.2.1, hcut.2.2, hmem, hscan,
          List.cons_append, set_append]
        exact rfl
      · rw [if_neg hcut]
        refine hkeep s.paren s.quote ?_
        have hout : ¬ (c = delim ∧ (⟨s.paren, s.quote, false⟩ : Nesting) = outside) := fun h =>
          hcut ⟨h.1, congrArg Nesting.paren h.2, congrArg Nesting.quote h.2⟩
        have hpass := @passes_plain delim c removeChars ⟨s.paren, s.quote, false⟩ hout hq hb
        have hnext : Nesting.next ⟨s.paren, s.quote, false⟩ c = ⟨s.paren, s.quote, false⟩ := by
          unfold Nesting.next
          rw [if_neg Bool.false_ne_true, if_neg hc, if_neg hc', if_neg hq, if_neg hb]
        rw [hnext] at hpass
        exact hpass

/-- More fuel does no harm. -/
theorem scanArg_mono {s' : Scan} (k : ℕ) : ∀ {fuel : ℕ} {s : Scan},
    scanArg delim removeChars fuel s = some s' →
      scanArg delim removeChars (fuel + k) s = some s' := by
  intro fuel
  induction fuel with
  | zero => exact fun h => absurd h (Option.some_ne_none _).symm
  | succ fuel ih =>
    intro s h
    rw [Nat.add_right_comm]
    rw [scanArg] at h ⊢
    obtain ⟨c, hc, h⟩ := Option.bind_eq_some_iff.1 h
    rw [hc, Option.bind_some]
    split_ifs at h ⊢
    · exact h
    · exact ih h
    · exact ih h
    · exact ih h
    · exact ih h
    · exact ih h
    · exact ih h
    · exact h
    · exact ih h

/-! ## The loop over the arguments -/

theorem firstCut_eq : ∀ {t : Nesting} {r a b : CString}, firstCut delim t r = some (a, b) →
    r = a ++ delim :: b := by
  intro t r
  induction r generalizing t with
  | nil => exact fun h => absurd h (Option.some_ne_none _).symm
  | cons c r ih =>
    intro a b h
    rw [firstCut] at h
    by_cases hcut : c = delim ∧ t = outside
    · rw [if_pos hcut, Option.some.injEq, Prod.mk.injEq] at h
      rw [← h.1, ← h.2, hcut.1]
      exact rfl
    · rw [if_neg hcut] at h
      obtain ⟨⟨a', b'⟩, hr, heq⟩ := Option.map_eq_some_iff.1 h
      rw [Prod.mk.injEq] at heq
      rw [← heq.1, ← heq.2, ih hr]
      exact rfl

theorem mem_cleaned : ∀ {r : CString} {escaped : Bool}, c ∈ cleaned escaped r → c ∈ r := by
  intro r
  induction r with
  | nil => exact fun h => h
  | cons d r ih =>
    intro escaped h
    rcases escaped with _ | _
    · rw [cleaned] at h
      split_ifs at h
      · exact List.mem_cons_of_mem d (ih h)
      · exact List.mem_cons_of_mem d (ih h)
      · rcases List.mem_cons.1 h with rfl | h
        · exact List.mem_cons_self
        · exact List.mem_cons_of_mem d (ih h)
    · rw [cleaned] at h
      rcases List.mem_cons.1 h with rfl | h
      · exact List.mem_cons_self
      · exact List.mem_cons_of_mem d (ih h)

theorem not_mem_stored (h : 0 ∉ r) : 0 ∉ stored removeChars r := by
  unfold stored
  split_ifs
  · exact fun hmem => h (mem_cleaned hmem)
  · exact h

/-- **Between two arguments**: the strings of the array are in `pre`, and `r` is
left. -/
structure Between (removeChars : Bool) (s : Scan) (array : List ℕ) (pre r z : CString)
    (ts : List CString) : Prop where
  mem : s.mem = pre ++ (r ++ 0 :: z)
  scan : s.scan = pre.length
  nul : 0 ∉ r
  tail : removeChars = false → z = []
  paren : s.paren = 0
  quote : s.quote = false
  was : s.wasdelim = if pre = [] then none else some (pre.length - 1)
  strings : ∀ w, array.map (stringAt (pre ++ w)) = ts

variable {array : List ℕ} {ts : List CString} {a b : CString}

/-- The string that a new pointer is at. -/
theorem strings_append {u : CString} (h : ∀ w, array.map (stringAt (pre ++ w)) = ts) (hu : 0 ∉ u)
    (w : CString) :
    (array ++ [pre.length]).map (stringAt (pre ++ (u ++ 0 :: w))) = ts ++ [u] := by
  rw [List.map_append, h, List.map_singleton, stringAt_append pre w hu]

/-- **An argument is stored.** -/
theorem Between.cut (hdelim : delim ∉ special) (h : Between removeChars s array pre r z ts)
    (hfuel : r.length < fuel) (hcut : firstCut delim outside r = some (a, b)) :
    ∃ s' z', scanArg delim removeChars fuel s = some s' ∧
      Between removeChars s' (array ++ [s.scan]) (pre ++ (stored removeChars a ++ [0])) b z'
        (ts ++ [stored removeChars a]) := by
  have hspec := @scanArg_spec delim removeChars hdelim fuel s pre r z hfuel h.mem h.scan h.nul
    h.tail
  rw [h.paren, h.quote] at hspec
  change Scanned removeChars pre r s.wasdelim (firstCut delim outside r) _ at hspec
  rw [hcut] at hspec
  obtain ⟨z', hz, hres⟩ := hspec
  have hr := firstCut_eq hcut
  have hnul := h.nul
  rw [hr, List.mem_append, List.mem_cons] at hnul
  refine ⟨_, z', hres, ?_, ?_, ?_, hz, rfl, rfl, ?_, ?_⟩
  · rw [List.append_assoc, List.append_assoc]
    exact rfl
  · rw [List.length_append, List.length_append, Nat.add_assoc]
    exact rfl
  · exact fun hmem => hnul (Or.inr (Or.inr hmem))
  · rw [if_neg fun heq => absurd (List.append_eq_nil_iff.1 (List.append_eq_nil_iff.1 heq).2).2
      (List.cons_ne_nil 0 []), List.length_append, List.length_append]
    exact rfl
  · intro w
    rw [List.append_assoc, List.append_assoc, h.scan]
    exact strings_append h.strings (not_mem_stored fun hmem => hnul (Or.inl hmem)) w


/-- **What goes wrong**, with `pre` in front: the end is escaped, or the last
argument is behind another and of quotes only. -/
def Faulty (delim : CChar) (removeChars : Bool) (pre : CString) (n : ℕ) (r : CString) : Prop :=
  ∃ l, lastScanned delim n r = some l ∧
    if removeChars then
      (pre ≠ [] ∨ firstCut delim outside r ≠ none) ∧ l ≠ [] ∧ ∀ c ∈ l, c = chr '"'
    else endsEscaped false l = true

/-- The last argument is what is left. -/
theorem Between.last (h : Between removeChars s array pre r z ts) (hne : pre = [] → r ≠ []) :
    lastArg s array = some (ts ++ [r]) := by
  have hstrings : (array ++ [s.scan]).map (stringAt s.mem) = ts ++ [r] := by
    rw [h.mem, h.scan]
    exact strings_append h.strings h.nul z
  unfold lastArg
  rcases hr : r with _ | ⟨c, r'⟩
  · have hpre : pre ≠ [] := fun heq => hne heq hr
    have hread : s.mem[s.scan]? = some 0 := by
      rw [h.mem, h.scan, hr]
      exact getElem?_at pre z 0
    have hpos : 0 < s.scan := by
      rw [h.scan]
      exact List.length_pos_of_ne_nil hpre
    have hwas : s.wasdelim = some (s.scan - 1) := by
      rw [h.was, if_neg hpre, h.scan]
    rw [hread, Option.map_some, if_pos (Or.inr ⟨hpos, hwas⟩), hstrings, hr]
  · have hread : s.mem[s.scan]? = some c := by
      rw [h.mem, h.scan, hr]
      exact getElem?_at pre (r' ++ 0 :: z) c
    have hc : c ≠ 0 := fun heq => h.nul (by rw [hr, heq]; exact List.mem_cons_self)
    rw [hread, Option.map_some, if_pos (Or.inl hc), hstrings, hr]

theorem lastScanned_none (h : firstCut delim outside r = none) :
    lastScanned delim (n + 1) r = some r := by
  rw [lastScanned, h]

theorem lastScanned_cut (h : firstCut delim outside r = some (a, b)) :
    lastScanned delim (n + 1) r = lastScanned delim n b := by
  rw [lastScanned, h]

theorem arguments_none (h : firstCut delim outside r = none) :
    arguments delim removeChars (n + 1) r = [stored removeChars r] := by
  rw [arguments, h]

theorem arguments_cut (h : firstCut delim outside r = some (a, b)) :
    arguments delim removeChars (n + 1) r =
      stored removeChars a :: arguments delim removeChars n b := by
  rw [arguments, h]

/-- Quotes that are removed leave nothing. -/
theorem stored_quotes (h : ∀ c ∈ r, removeChars = true ∧ c = chr '"') :
    stored removeChars r = [] := by
  induction r with
  | nil => exact ite_self _
  | cons c r ih =>
    obtain ⟨⟨hremove, hc⟩, hr⟩ := List.forall_mem_cons.1 h
    have hrest := ih hr
    unfold stored at hrest ⊢
    rw [if_pos hremove] at hrest ⊢
    rw [cleaned, hc, if_neg (by decide), if_pos rfl]
    exact hrest

/-- **The argument that the end of the string ends**: one of quotes that are
removed leaves the pointer behind a delimiter. -/
theorem Between.ends (hdelim : delim ∉ special) (h : Between removeChars s array pre r z ts)
    (hfuel : r.length < fuel) (hcut : firstCut delim outside r = none)
    (hescaped : ¬ (removeChars = false ∧ endsEscaped false r = true)) :
    ∃ s', scanArg delim removeChars fuel s = some s' ∧ s'.mem[s'.scan]? = some 0 ∧
      lastArg s' (array ++ [s.scan]) = some (ts ++ (stored removeChars r ::
        if pre ≠ [] ∧ ∀ c ∈ r, removeChars = true ∧ c = chr '"' then [[]] else [])) := by
  have hspec := @scanArg_spec delim removeChars hdelim fuel s pre r z hfuel h.mem h.scan h.nul
    h.tail
  rw [h.paren, h.quote] at hspec
  change Scanned removeChars pre r s.wasdelim (firstCut delim outside r) _ at hspec
  rw [hcut] at hspec
  unfold Scanned at hspec
  dsimp only at hspec
  rw [if_neg hescaped] at hspec
  obtain ⟨s', z', hres, hmem, hzero, hwas, hle, hiff⟩ := hspec
  have hstrings : (array ++ [s.scan]).map (stringAt s'.mem) = ts ++ [stored removeChars r] := by
    rw [hmem, h.scan]
    exact strings_append h.strings (not_mem_stored h.nul) z'
  refine ⟨s', hres, hzero, ?_⟩
  unfold lastArg
  rw [hzero, Option.map_some]
  have hextra : ((0 : CChar) ≠ 0 ∨ 0 < s'.scan ∧ s'.wasdelim = some (s'.scan - 1)) ↔
      pre ≠ [] ∧ ∀ c ∈ r, removeChars = true ∧ c = chr '"' := by
    rw [or_iff_right (not_not.2 rfl), hwas, h.was, ← hiff]
    by_cases hpre : pre = []
    · rw [if_pos hpre]
      exact ⟨fun h => absurd h.2 (Option.some_ne_none _).symm, fun h => absurd hpre h.1⟩
    · have hpos := List.length_pos_of_ne_nil hpre
      rw [if_neg hpre, Option.some_inj, and_iff_right hpre]
      constructor
      · rintro ⟨hpos', heq⟩
        omega
      · intro heq
        exact ⟨by omega, by omega⟩
  by_cases hquotes : pre ≠ [] ∧ ∀ c ∈ r, removeChars = true ∧ c = chr '"'
  · rw [if_pos (hextra.2 hquotes), if_pos hquotes, List.map_append, hstrings, List.append_assoc,
      List.map_singleton, hiff.2 hquotes.2, hmem, stringAt_append pre z' (not_mem_stored h.nul),
      stored_quotes hquotes.2]
    exact rfl
  · rw [if_neg fun hpos => hquotes (hextra.1 hpos), if_neg hquotes, hstrings]

/-- **What is stored from between two arguments on.** -/
theorem separateLoop_spec (hdelim : delim ∉ special) : ∀ n (s : Scan) array pre r z ts,
    Between removeChars s array pre r z ts → r.length < fuel → (pre = [] → r ≠ []) →
      (¬ Faulty delim removeChars pre n r →
        ((separateLoop delim removeChars fuel n s array).bind fun q => lastArg q.1 q.2) =
          some (ts ++ arguments delim removeChars n r)) ∧
      (Faulty delim removeChars pre n r →
        ((separateLoop delim removeChars fuel n s array).bind fun q => lastArg q.1 q.2) =
          if removeChars then some (ts ++ (arguments delim removeChars n r ++ [[]])) else none) := by
  intro n
  induction n with
  | zero =>
    intro s array pre r z ts h hfuel hne
    rw [separateLoop, Option.bind_some, h.last hne]
    refine ⟨fun _ => rfl, ?_⟩
    rintro ⟨l, hl, -⟩
    exact absurd hl (Option.some_ne_none l).symm
  | succ n ih =>
    intro s array pre r z ts h hfuel hne
    rw [separateLoop]
    by_cases hr : r = []
    · have hread : s.mem[s.scan]? = some 0 := by
        rw [h.mem, h.scan, hr]
        exact getElem?_at pre z 0
      have hcut : firstCut delim outside r = none := by
        rw [hr, firstCut]
      have hnone : stored removeChars r = r := by
        rw [hr]
        exact ite_self _
      rw [hread, Option.bind_some, if_pos rfl, Option.bind_some, h.last hne, arguments_none hcut,
        hnone]
      refine ⟨fun _ => rfl, ?_⟩
      rintro ⟨l, hl, hfault⟩
      rw [lastScanned_none hcut, hr] at hl
      obtain rfl := Option.some.inj hl
      rcases removeChars with _ | _
      · exact absurd hfault Bool.false_ne_true
      · exact absurd rfl hfault.2.1
    have hread : ∃ c, c ≠ 0 ∧ s.mem[s.scan]? = some c := by
      obtain ⟨c, r', rfl⟩ := List.exists_cons_of_ne_nil hr
      refine ⟨c, fun heq => h.nul (by rw [heq]; exact List.mem_cons_self), ?_⟩
      rw [h.mem, h.scan]
      exact getElem?_at pre (r' ++ 0 :: z) c
    obtain ⟨c, hc, hread⟩ := hread
    rw [hread, Option.bind_some, if_neg hc]
    rcases hcut : firstCut delim outside r with _ | ⟨a, b⟩
    · rw [arguments_none hcut]
      by_cases hescaped : removeChars = false ∧ endsEscaped false r = true
      · have hspec := @scanArg_spec delim removeChars hdelim fuel s pre r z hfuel h.mem h.scan h.nul
          h.tail
        rw [h.paren, h.quote] at hspec
        change Scanned removeChars pre r s.wasdelim (firstCut delim outside r) _ at hspec
        rw [hcut] at hspec
        unfold Scanned at hspec
        dsimp only at hspec
        rw [if_pos hescaped] at hspec
        have hfaulty : Faulty delim removeChars pre (n + 1) r := by
          refine ⟨r, lastScanned_none hcut, ?_⟩
          rw [if_neg (by rw [hescaped.1]; exact Bool.false_ne_true)]
          exact hescaped.2
        rw [hspec, Option.bind_none, Option.bind_none]
        refine ⟨fun hnot => absurd hfaulty hnot, fun _ => ?_⟩
        rw [if_neg (by rw [hescaped.1]; exact Bool.false_ne_true)]
      · obtain ⟨s', hscan, hzero, hlast⟩ := h.ends hdelim hfuel hcut hescaped
        have hstop : separateLoop delim removeChars fuel n s' (array ++ [s.scan]) =
            some (s', array ++ [s.scan]) := by
          rcases n with _ | n
          · exact rfl
          · rw [separateLoop, hzero, Option.bind_some, if_pos rfl]
        rw [hscan, Option.bind_some, hstop, Option.bind_some, hlast]
        have hfaulty : Faulty delim removeChars pre (n + 1) r ↔
            pre ≠ [] ∧ ∀ c ∈ r, removeChars = true ∧ c = chr '"' := by
          unfold Faulty
          rw [lastScanned_none hcut, hcut]
          constructor
          · rintro ⟨l, hl, hfault⟩
            obtain rfl := Option.some.inj hl
            rcases removeChars with _ | _
            · exact absurd ⟨rfl, hfault⟩ hescaped
            · exact ⟨hfault.1.resolve_right (not_not.2 rfl), fun c hc => ⟨rfl, hfault.2.2 c hc⟩⟩
          · rintro ⟨hpre, hquotes⟩
            refine ⟨r, rfl, ?_⟩
            obtain ⟨d, hd⟩ := List.exists_mem_of_ne_nil r hr
            rw [if_pos (hquotes d hd).1]
            exact ⟨Or.inl hpre, hr, fun c hc => (hquotes c hc).2⟩
        rw [hfaulty]
        constructor
        · intro hnot
          rw [if_neg hnot]
        · intro hfault
          obtain ⟨d, hd⟩ := List.exists_mem_of_ne_nil r hr
          rw [if_pos hfault, if_pos (hfault.2 d hd).1]
          exact rfl
    · obtain ⟨s', z', hscan, hnext⟩ := h.cut hdelim hfuel hcut
      have hlen := congrArg List.length (firstCut_eq hcut)
      rw [List.length_append, List.length_cons] at hlen
      have hpre : pre ++ (stored removeChars a ++ [0]) ≠ [] := fun heq =>
        absurd (List.append_eq_nil_iff.1 (List.append_eq_nil_iff.1 heq).2).2
          (List.cons_ne_nil 0 [])
      have hfaulty : Faulty delim removeChars pre (n + 1) r ↔
          Faulty delim removeChars (pre ++ (stored removeChars a ++ [0])) n b := by
        unfold Faulty
        rw [lastScanned_cut hcut, hcut]
        refine exists_congr fun l => and_congr_right fun _ => ?_
        rcases removeChars with _ | _
        · exact Iff.rfl
        · exact and_congr_left fun _ => iff_of_true (Or.inr (Option.some_ne_none _)) (Or.inl hpre)
      have hrun := ih s' _ _ b z' _ hnext (by omega) fun heq => absurd heq hpre
      rw [hscan, Option.bind_some, hfaulty, arguments_cut hcut]
      rw [List.append_assoc, List.append_assoc] at hrun
      exact hrun


/-! ## The function -/

theorem separateLoop_mono (k : ℕ) : ∀ {n : ℕ} {s : Scan} {array : List ℕ} {q : Scan × List ℕ},
    separateLoop delim removeChars fuel n s array = some q →
      separateLoop delim removeChars (fuel + k) n s array = some q := by
  intro n
  induction n with
  | zero => exact fun h => h
  | succ n ih =>
    intro s array q h
    rw [separateLoop] at h ⊢
    obtain ⟨c, hc, h⟩ := Option.bind_eq_some_iff.1 h
    rw [hc, Option.bind_some]
    by_cases hzero : c = 0
    · rw [if_pos hzero] at h ⊢
      exact h
    · rw [if_neg hzero] at h ⊢
      obtain ⟨s', hs', h⟩ := Option.bind_eq_some_iff.1 h
      rw [scanArg_mono k hs', Option.bind_some]
      exact ih h

theorem separateArgs_mono (k : ℕ) {buf : CString} {arraylen : ℕ} {array : List CString}
    (h : separateArgs fuel buf delim removeChars arraylen = some array) :
    separateArgs (fuel + k) buf delim removeChars arraylen = some array := by
  unfold separateArgs at h ⊢
  by_cases hlen : arraylen = 0
  · rw [if_pos hlen] at h ⊢
    exact h
  · rw [if_neg hlen] at h ⊢
    obtain ⟨q, hq, h⟩ := Option.bind_eq_some_iff.1 h
    rw [separateLoop_mono k hq, Option.bind_some]
    exact h

theorem arguments_length_le : ∀ n (r : CString), (arguments delim removeChars n r).length ≤ n + 1 := by
  intro n
  induction n with
  | zero => exact fun r => Nat.le_refl 1
  | succ n ih =>
    intro r
    rcases hcut : firstCut delim outside r with _ | ⟨a, b⟩
    · rw [arguments_none hcut, List.length_singleton]
      omega
    · rw [arguments_cut hcut, List.length_cons]
      exact Nat.add_le_add_right (ih b) 1

theorem arguments_ne_nil : ∀ n (r : CString), arguments delim removeChars n r ≠ [] := by
  intro n r
  rcases n with _ | n
  · exact List.cons_ne_nil r []
  · rcases hcut : firstCut delim outside r with _ | ⟨a, b⟩
    · rw [arguments_none hcut]
      exact List.cons_ne_nil _ _
    · rw [arguments_cut hcut]
      exact List.cons_ne_nil _ _

/-- **Joined by the delimiter, what is kept is the string.** -/
theorem intercalate_arguments : ∀ n (r : CString),
    [delim].intercalate (arguments delim false n r) = r := by
  intro n
  induction n with
  | zero => exact fun r => List.intercalate_singleton
  | succ n ih =>
    intro r
    rcases hcut : firstCut delim outside r with _ | ⟨a, b⟩
    · rw [arguments_none hcut]
      exact List.intercalate_singleton
    · rw [arguments_cut hcut, List.intercalate_cons_of_ne_nil (arguments_ne_nil n b), ih,
        List.append_assoc]
      exact (firstCut_eq hcut).symm

theorem separable_iff {buf : CString} {arraylen : ℕ} :
    Separable buf delim removeChars arraylen ↔
      ¬ Faulty delim removeChars [] (arraylen - 1) buf := by
  unfold Separable Faulty
  rw [not_exists]
  refine forall_congr' fun l => ?_
  rw [not_and]
  refine imp_congr_right fun hl => ?_
  rcases removeChars with _ | _
  · rw [if_neg Bool.false_ne_true, if_neg Bool.false_ne_true, Bool.not_eq_true]
  · rw [if_pos rfl, if_pos rfl]
    constructor
    · rintro (hcut | hnil | ⟨c, hc, hother⟩) ⟨hbehind, hl, hall⟩
      · exact (hbehind.resolve_left (not_not.2 rfl)) hcut
      · exact hl hnil
      · exact hother (hall c hc)
    · intro hnot
      by_contra hno
      rw [not_or, not_or, not_exists] at hno
      refine hnot ⟨Or.inr hno.1, hno.2.1, fun c hc => ?_⟩
      by_contra hother
      exact hno.2.2 c ⟨hc, hother⟩

/-- An empty string has no arguments. -/
theorem separateArgs_nil {arraylen : ℕ} (hlen : 1 ≤ arraylen) :
    separateArgs fuel [] delim removeChars arraylen = some [] := by
  obtain ⟨n, rfl⟩ : ∃ n, arraylen = n + 1 := ⟨arraylen - 1, by omega⟩
  rcases n with _ | n
  · exact rfl
  · exact rfl

/-- **What is stored of a string.** -/
theorem separateArgs_spec {buf : CString} {arraylen : ℕ} (hdelim : delim ∉ special)
    (hbuf : 0 ∉ buf) (hlen : 1 ≤ arraylen) (hne : buf ≠ []) (hfuel : buf.length < fuel) :
    (¬ Faulty delim removeChars [] (arraylen - 1) buf →
      separateArgs fuel buf delim removeChars arraylen =
        some (arguments delim removeChars (arraylen - 1) buf)) ∧
    (Faulty delim removeChars [] (arraylen - 1) buf →
      separateArgs fuel buf delim removeChars arraylen =
        if removeChars then some (arguments delim removeChars (arraylen - 1) buf ++ [[]])
        else none) := by
  unfold separateArgs
  rw [if_neg (by omega)]
  exact separateLoop_spec hdelim (arraylen - 1) ⟨buf ++ [0], 0, none, 0, false⟩ [] [] buf [] []
    ⟨rfl, rfl, hbuf, fun _ => rfl, rfl, rfl, rfl, fun w => rfl⟩ hfuel fun _ => hne

/-- **Exactly the separable strings are separated.** -/
theorem separates_iff {buf : CString} {arraylen : ℕ} (hdelim : delim ∉ special) (hbuf : 0 ∉ buf)
    (hlen : 1 ≤ arraylen) :
    Separates buf delim removeChars arraylen ↔ Separable buf delim removeChars arraylen := by
  rw [separable_iff]
  by_cases hne : buf = []
  · rw [hne]
    have hnot : ¬ Faulty delim removeChars [] (arraylen - 1) [] := by
      rintro ⟨l, hl, hfault⟩
      obtain rfl : l = [] := by
        rcases hn : arraylen - 1 with _ | n
        · rw [hn] at hl
          exact absurd hl (Option.some_ne_none l).symm
        · rw [hn, lastScanned_none rfl] at hl
          exact (Option.some.inj hl).symm
      rcases removeChars with _ | _
      · exact Bool.false_ne_true hfault
      · exact hfault.2.1 rfl
    exact iff_of_true ⟨0, [], separateArgs_nil hlen, Nat.zero_le _, rfl,
      fun _ => List.intercalate_nil⟩ hnot
  · constructor
    · rintro ⟨fuel, array, hrun, -, harray, -⟩ hfault
      have hmore := separateArgs_mono (buf.length + 1) hrun
      have hspec := (@separateArgs_spec delim removeChars (fuel + (buf.length + 1)) buf arraylen
        hdelim hbuf hlen hne (by omega)).2 hfault
      rw [hmore, harray, if_neg hne] at hspec
      rcases removeChars with _ | _
      · exact absurd hspec (Option.some_ne_none _)
      · have hlength := congrArg List.length (Option.some.inj hspec)
        rw [List.length_append, List.length_singleton] at hlength
        omega
    · intro hnot
      have hspec := (@separateArgs_spec delim removeChars (buf.length + 1) buf arraylen hdelim hbuf
        hlen hne (Nat.lt_succ_self _)).1 hnot
      refine ⟨buf.length + 1, _, hspec, ?_, (if_neg hne).symm, ?_⟩
      · exact Nat.le_trans (arguments_length_le _ _) (by omega)
      · rintro rfl
        exact intercalate_arguments _ buf

/-- Two arguments in an array of three. -/
theorem separates_iff_two : Separates (str "a,b") (chr ',') true 3 ↔
    Separable (str "a,b") (chr ',') true 3 :=
  separates_iff (by decide) (by decide) (by decide)

/-- Quotes behind the last delimiter. -/
theorem not_separates : ¬ Separates (str "a,\"\"") (chr ',') true 3 := by
  rintro ⟨fuel, array, hrun, -, harray, -⟩
  have hmore := separateArgs_mono 6 hrun
  have hspec := (@separateArgs_spec (chr ',') true (fuel + 6) (str "a,\"\"") 3 (by decide)
    (by decide) (by decide) (by decide) (Nat.lt_of_lt_of_le (by decide) (Nat.le_add_left 6 fuel))).2
    ⟨str "\"\"", by decide +kernel, by decide +kernel⟩
  rw [hmore, harray] at hspec
  revert hspec
  decide +kernel

end SeparateArgs

end App

end Trismedia
