import Trismedia.Pbx.Variables
/-!
# Parts of a value

`substring` takes the slice that is asked for unless an `int` overflows.
`pbx_retrieve_variable` takes the offset and the length from a copy of the name
that is cut there, but looks for the whole text: what is found is the value of
a variable that has the offset and the length in its name.
-/


namespace Trismedia

namespace Pbx

open CString CInt
open Config (isspace isdigit strtol)

/-! ## Slices -/

/-- Where a slice begins: an offset below zero counts from the end. -/
def sliceStart (offset : ℤ) (s : CString) : ℕ :=
  if offset < 0 then (s.length + offset).toNat else offset.toNat

/-- **The slice**: from the offset on, so many characters, or all but so many. -/
def slice (offset length : ℤ) (s : CString) : CString :=
  let rest := s.drop (sliceStart offset s)
  if 0 ≤ length then rest.take length.toNat else rest.take (rest.length - (-length).toNat)

/-- The difference of the offset and the length is an `int` where it is needed. -/
def Fits (offset length : ℤ) (s : CString) : Prop :=
  length < 0 → sliceStart offset s < s.length → (sliceStart offset s : ℤ) - length ≤ intMax

instance (offset length : ℤ) (s : CString) : Decidable (Fits offset length s) :=
  inferInstanceAs (Decidable (_ → _ → _))

variable {offset length : ℤ} {value s : CString} {size : ℕ}

theorem length_trisCopyString_lt (hsize : 0 < size) : (trisCopyString s size).length < size := by
  unfold trisCopyString
  rw [List.length_take]
  omega

/-- The offset that `substring` goes on with. -/
theorem sliceStart_cast (offset : ℤ) (s : CString) :
    (sliceStart offset s : ℤ) =
      if offset < 0 then (if (s.length : ℤ) + offset < 0 then 0 else s.length + offset)
      else offset := by
  unfold sliceStart
  split_ifs <;> omega

theorem slice_of_length_le (h : s.length ≤ sliceStart offset s) : slice offset length s = [] := by
  unfold slice
  rw [List.drop_of_length_le h]
  dsimp only
  rw [List.take_nil, List.take_nil, ite_self]

theorem endAt_of_le {ret : CString} {place : ℤ} (hle : offset ≤ place) (hpos : 0 ≤ place)
    (hlt : place < size) : endAt ret offset place size = some (ret.take (place - offset).toNat) := by
  rw [endAt, if_neg (by omega), if_neg (by omega)]

/-- **`substring` takes the slice** of what the workspace holds if the difference
fits; -/
theorem substring_of_fits (hlength : InInt length) (hsize : 0 < size)
    (hfits : Fits offset length (trisCopyString value size)) :
    substring value offset length size = some (slice offset length (trisCopyString value size)) := by
  have hlt := @length_trisCopyString_lt value size hsize
  have hstart := sliceStart_cast offset (trisCopyString value size)
  obtain ⟨hmin, -⟩ := hlength
  unfold substring
  rw [if_neg (by omega)]
  dsimp only
  unfold Fits at hfits
  generalize trisCopyString value size = ret at hlt hstart hfits
  rw [← hstart, Int.toNat_natCast]
  generalize hfrom : sliceStart offset ret = start at hstart hfits
  unfold intMin at hmin
  by_cases hwhole : offset = 0 ∧ length ≥ (ret.length : ℤ)
  · have hzero : start = 0 := by
      rw [if_neg (by omega)] at hstart
      omega
    rw [if_pos hwhole, slice, hfrom, hzero, List.drop_zero, if_pos (by omega),
      List.take_of_length_le (by omega)]
  rw [if_neg hwhole]
  by_cases hempty : (start : ℤ) ≥ ret.length
  · rw [if_pos hempty, slice_of_length_le (by rw [hfrom]; omega)]
  rw [if_neg hempty]
  have hrest : (ret.drop start).length = ret.length - start := List.length_drop
  by_cases hcut : length ≥ 0 ∧ length < ret.length - start
  · have hcount : ((start : ℤ) + length - start).toNat = length.toNat := by omega
    rw [if_pos hcut, endAt_of_le (by omega) (by omega) (by omega), hcount, slice, hfrom,
      if_pos hcut.1]
  rw [if_neg hcut]
  by_cases hneg : length < 0
  swap
  · rw [if_neg hneg, slice, hfrom, if_pos (by omega), List.take_of_length_le (by omega)]
  have hslice : slice offset length ret =
      (ret.drop start).take ((ret.drop start).length - (-length).toNat) := by
    rw [slice, hfrom, if_neg (by omega)]
  have hwrap : wrapInt (start - length) = start - length :=
    wrapInt_of_inInt ⟨by unfold intMin; omega, hfits hneg (by omega)⟩
  rw [if_pos hneg, hwrap]
  by_cases hleft : (ret.length : ℤ) > start - length
  · have hcount : ((start : ℤ) + (ret.length + length - start) - start).toNat =
        (ret.drop start).length - (-length).toNat := by omega
    rw [if_pos hleft, endAt_of_le (by omega) (by omega) (by omega), hslice, hcount]
  · have hnone : (ret.drop start).length - (-length).toNat = 0 := by omega
    rw [if_neg hleft, endAt_of_le le_rfl (by omega) (by omega), hslice, hnone, Int.sub_self]
    rfl

/-- if not, the NUL goes to a place before the slice. -/
theorem substring_of_not_fits (hlength : InInt length) (hsize : 0 < size)
    (hmax : (size : ℤ) ≤ intMax) (hfits : ¬Fits offset length (trisCopyString value size)) :
    substring value offset length size = none ∨ substring value offset length size =
      some ((trisCopyString value size).drop (sliceStart offset (trisCopyString value size))) := by
  have hlt := @length_trisCopyString_lt value size hsize
  have hstart := sliceStart_cast offset (trisCopyString value size)
  obtain ⟨hmin, -⟩ := hlength
  unfold substring
  rw [if_neg (by omega)]
  dsimp only
  unfold Fits at hfits
  generalize trisCopyString value size = ret at hlt hstart hfits
  rw [← hstart, Int.toNat_natCast]
  generalize hfrom : sliceStart offset ret = start at hstart hfits
  unfold intMin at hmin
  unfold intMax at hmax hfits
  obtain ⟨hneg, hfits⟩ := Classical.not_imp.1 hfits
  obtain ⟨hless, hfits⟩ := Classical.not_imp.1 hfits
  have hwrap : wrapInt (start - length) < 0 := by
    unfold wrapInt
    omega
  rw [if_neg (by omega), if_neg (by omega), if_neg (by omega), if_pos hneg, if_pos (by omega), endAt]
  by_cases hout : (start : ℤ) + (ret.length + length - start) < 0
  · rw [if_pos (Or.inl hout)]
    exact Or.inl rfl
  · rw [if_neg (by omega), if_pos (by omega)]
    exact Or.inr rfl

theorem length_slice_of_neg (hneg : length < 0) : (slice offset length s).length =
    s.length - sliceStart offset s - (-length).toNat := by
  have hrest : (s.drop (sliceStart offset s)).length = s.length - sliceStart offset s :=
    List.length_drop
  rw [slice, if_neg (by omega), List.length_take, hrest]
  omega

/-- **`substring` gives the slice of a text** of the size of the workspace, exactly
when the difference fits and the slices agree. -/
theorem substring_eq_iff (hlength : InInt length) (hsize : 0 < size) (hmax : (size : ℤ) ≤ intMax)
    (hs : s.length < size) : substring value offset length size = some (slice offset length s) ↔
      Fits offset length (trisCopyString value size) ∧
        slice offset length (trisCopyString value size) = slice offset length s := by
  by_cases hfits : Fits offset length (trisCopyString value size)
  · rw [substring_of_fits hlength hsize hfits, Option.some_inj]
    exact (and_iff_right hfits).symm
  refine iff_of_false (fun h => ?_) fun h => hfits h.1
  have hlt := @length_trisCopyString_lt value size hsize
  have hstart := sliceStart_cast offset (trisCopyString value size)
  have hstart' := sliceStart_cast offset s
  rcases substring_of_not_fits hlength hsize hmax hfits with hnone | hdrop
  · exact Option.some_ne_none _ (h.symm.trans hnone)
  · have hlen := congrArg List.length (Option.some.inj (h.symm.trans hdrop))
    obtain ⟨hneg, hfits⟩ := Classical.not_imp.1 hfits
    obtain ⟨hless, hfits⟩ := Classical.not_imp.1 hfits
    obtain ⟨hmin, -⟩ := hlength
    rw [length_slice_of_neg hneg, List.length_drop] at hlen
    generalize sliceStart offset (trisCopyString value size) = start at *
    generalize sliceStart offset s = start' at *
    unfold intMin at hmin
    unfold intMax at hmax hfits
    split_ifs at hstart hstart' <;> omega

/-! ## The name read back -/

/-- Decimal digits, as `snprintf` writes them. -/
def decimalDigits (n : ℕ) : CString := (Nat.toDigits 10 n).map chr

theorem decimalDigits_eq (n : ℕ) : decimalDigits n =
    if n < 10 then [chr (Nat.digitChar n)]
    else decimalDigits (n / 10) ++ [chr (Nat.digitChar (n % 10))] := by
  unfold decimalDigits
  rw [Nat.toDigits_eq_if (by decide)]
  split_ifs
  · rfl
  · rw [List.map_append]
    rfl

theorem digitChar_value : ∀ d < 10, isdigit (chr (Nat.digitChar d)) = true ∧
    ((chr (Nat.digitChar d)).toNat : ℤ) - 48 = d := by
  decide

theorem isdigit_of_mem (n : ℕ) : ∀ c ∈ decimalDigits n, isdigit c = true := by
  induction n using Nat.strong_induction_on with
  | _ n ih =>
    rw [decimalDigits_eq]
    split_ifs with hlt
    · exact List.forall_mem_singleton.2 (digitChar_value n hlt).1
    · exact List.forall_mem_append.2 ⟨ih (n / 10) (by omega),
        List.forall_mem_singleton.2 (digitChar_value _ (Nat.mod_lt n (by decide))).1⟩

/-- The digits write the number. -/
theorem digits_decimalDigits (n : ℕ) : Config.digits (decimalDigits n) = n := by
  induction n using Nat.strong_induction_on with
  | _ n ih =>
    rw [decimalDigits_eq]
    split_ifs with hlt
    · show 10 * (0 : ℤ) + (((chr (Nat.digitChar n)).toNat : ℤ) - 48) = n
      rw [(digitChar_value n hlt).2]
      omega
    · have hrest := ih (n / 10) (by omega)
      unfold Config.digits at hrest ⊢
      rw [List.foldl_append, hrest, List.foldl_cons, List.foldl_nil,
        (digitChar_value _ (Nat.mod_lt n (by decide))).2]
      omega

theorem decimalDigits_ne_nil (n : ℕ) : decimalDigits n ≠ [] := fun h =>
  Nat.toDigits_ne_nil (List.map_eq_nil_iff.1 h)

theorem length_decimalDigits_le {n : ℕ} (h : n < 10 ^ 10) : (decimalDigits n).length ≤ 10 := by
  unfold decimalDigits
  rw [List.length_map]
  exact (Nat.length_toDigits_le_iff (by decide) (by decide)).2 h

/-- Digits in front of something else. -/
theorem takeWhile_decimalDigits (n : ℕ) {rest : CString}
    (hrest : ∀ c, rest.head? = some c → isdigit c = false) :
    (decimalDigits n ++ rest).takeWhile isdigit = decimalDigits n := by
  rw [List.takeWhile_append_of_pos (isdigit_of_mem n)]
  have hnil : rest.takeWhile isdigit = [] := by
    cases rest with
    | nil => rfl
    | cons c rest => rw [List.takeWhile_cons, hrest c rfl]; rfl
  rw [hnil, List.append_nil]

/-- **`%30d` reads what `%d` writes**, in front of anything that is no digit. -/
theorem scan30d_decimal {n : ℤ} (hn : InInt n) {rest : CString}
    (hrest : ∀ c, rest.head? = some c → isdigit c = false) :
    scan30d (decimal n ++ rest) = some (n, rest) := by
  obtain ⟨hmin, hmax⟩ := hn
  have hwrap := wrapInt_of_inInt ⟨hmin, hmax⟩
  unfold intMin at hmin
  unfold intMax at hmax
  have hlen : (decimalDigits n.natAbs).length ≤ 10 := length_decimalDigits_le (by omega)
  have hvalue := digits_decimalDigits n.natAbs
  have hne := decimalDigits_ne_nil n.natAbs
  have hsome := List.isEmpty_eq_false_iff.2 hne
  -- what stands in the field behind the sign
  have hfield : ∀ k, 10 ≤ k → (((decimalDigits n.natAbs ++ rest).take k).takeWhile isdigit) =
      decimalDigits n.natAbs := by
    intro k hk
    rw [List.take_append, List.take_of_length_le (by omega)]
    refine takeWhile_decimalDigits _ fun c hc => hrest c ?_
    rw [List.head?_take] at hc
    split_ifs at hc
    exact hc
  by_cases hneg : n < 0
  · have hdecimal : decimal n ++ rest = chr '-' :: (decimalDigits n.natAbs ++ rest) := by
      rw [decimal, if_pos hneg]
      rfl
    have hspace : isspace (chr '-') = false := by decide
    have hstrtol : strtol (chr '-' :: (decimalDigits n.natAbs ++ rest).take 29) = some n := by
      unfold strtol
      dsimp only
      rw [List.dropWhile_cons_of_neg (by rw [hspace]; exact Bool.false_ne_true)]
      dsimp only
      rw [if_pos rfl, hfield 29 (by decide), hsome, if_neg Bool.false_ne_true, hvalue,
        Option.map_some]
      congr 1
      omega
    unfold scan30d
    rw [hdecimal, List.dropWhile_cons_of_neg (by rw [hspace]; exact Bool.false_ne_true)]
    dsimp only
    rw [List.take_succ_cons, hstrtol, List.head?_cons, if_pos (Or.inl rfl), Option.map_some, hwrap,
      List.drop_succ_cons, List.drop_zero, hfield 29 (by decide), Nat.add_comm, List.drop_succ_cons,
      List.drop_left]
  · obtain ⟨d, ds, hds⟩ := List.exists_cons_of_ne_nil hne
    have hd : isdigit d = true := isdigit_of_mem n.natAbs d (by rw [hds]; exact List.mem_cons_self)
    obtain ⟨hlow, hhigh⟩ : 48 ≤ d.toNat ∧ d.toNat ≤ 57 := of_decide_eq_true hd
    have hother : ∀ c : CChar, c.toNat < 48 → d ≠ c := by
      rintro c hc rfl
      omega
    have hminus : d ≠ chr '-' := hother _ (by decide)
    have hplus : d ≠ chr '+' := hother _ (by decide)
    have hspace : isspace d = false := by
      refine decide_eq_false ?_
      rintro (hblank | hcontrol)
      · exact hother 32 (by decide) hblank
      · omega
    have hdecimal : decimal n ++ rest = decimalDigits n.natAbs ++ rest := by
      rw [decimal, if_neg hneg]
      rfl
    have hdrop : (decimalDigits n.natAbs ++ rest).dropWhile isspace =
        decimalDigits n.natAbs ++ rest := by
      rw [hds, List.cons_append,
        List.dropWhile_cons_of_neg (by rw [hspace]; exact Bool.false_ne_true)]
    have htake : (decimalDigits n.natAbs ++ rest).take 30 = d :: (ds ++ rest).take 29 := by
      rw [hds]
      rfl
    have hstrtol : strtol ((decimalDigits n.natAbs ++ rest).take 30) = some n := by
      unfold strtol
      dsimp only
      rw [htake, List.dropWhile_cons_of_neg (by rw [hspace]; exact Bool.false_ne_true)]
      dsimp only
      rw [if_neg hminus, if_neg hplus, ← htake, hfield 30 (by decide), hsome,
        if_neg Bool.false_ne_true, hvalue, Option.map_some]
      congr 1
      omega
    unfold scan30d
    rw [hdecimal, hdrop]
    dsimp only
    rw [hstrtol, htake, List.head?_cons, if_neg (by
      rintro (h | h)
      · exact hminus (Option.some.inj h)
      · exact hplus (Option.some.inj h)), ← htake, List.drop_zero, hfield 30 (by decide),
      Option.map_some, hwrap, Nat.zero_add, List.drop_left]

/-- The two numbers behind a name. -/
theorem scanPart_decimal (hoffset : InInt offset) (hlength : InInt length) (a b : ℤ) :
    scanPart (decimal offset ++ chr ':' :: decimal length) a b = (offset, length) := by
  have hcolon : ∀ c, (chr ':' :: decimal length).head? = some c → isdigit c = false := by
    intro c hc
    obtain rfl := Option.some.inj hc
    decide
  have hend : scan30d (decimal length) = some (length, []) := by
    have hread := @scan30d_decimal length hlength [] fun c hc => absurd hc (Option.some_ne_none c).symm
    rwa [List.append_nil] at hread
  unfold scanPart
  rw [scan30d_decimal hoffset hcolon]
  dsimp only
  rw [List.head?_cons, if_pos rfl, List.tail_cons, hend]

/-- The colon behind the name is the first that is outside parentheses. -/
def PlainName (V : CString) : Prop := splitName (V ++ [chr ':']) 0 = some (V, [])

instance (V : CString) : Decidable (PlainName V) := inferInstanceAs (Decidable (_ = _))

/-- A name is cut at the same place whatever follows. -/
theorem splitName_of_concat (a : CString) : ∀ parens,
    splitName (a ++ [chr ':']) parens = some (a, []) →
      splitName a parens = none ∧ ∀ rest, splitName (a ++ chr ':' :: rest) parens = some (a, rest) := by
  induction a with
  | nil =>
    intro parens h
    have hzero : parens = 0 := by
      by_contra hne
      rw [List.nil_append, splitName, if_neg (by decide), if_neg (by decide),
        if_neg fun h => hne h.2] at h
      exact absurd h (Option.some_ne_none _).symm
    refine ⟨rfl, fun rest => ?_⟩
    rw [List.nil_append, splitName, if_neg (by decide), if_neg (by decide), if_pos ⟨rfl, hzero⟩]
  | cons c a ih =>
    intro parens h
    -- one more character before the cut
    have hstep : ∀ parens', (splitName (a ++ [chr ':']) parens').map (fun r => (c :: r.1, r.2)) =
        some (c :: a, []) → splitName a parens' = none ∧
          ∀ rest, splitName (a ++ chr ':' :: rest) parens' = some (a, rest) := by
      intro parens' h
      obtain ⟨⟨x, y⟩, hxy, heq⟩ := Option.map_eq_some_iff.1 h
      obtain ⟨hx, rfl⟩ := Prod.mk.inj heq
      obtain rfl := List.tail_eq_of_cons_eq hx
      exact ih parens' hxy
    rw [List.cons_append, splitName] at h
    rw [splitName]
    by_cases hopen : c = chr '('
    · rw [if_pos hopen] at h ⊢
      obtain ⟨hnone, hsome⟩ := hstep _ h
      refine ⟨by rw [hnone]; rfl, fun rest => ?_⟩
      rw [List.cons_append, splitName, if_pos hopen, hsome rest]
      rfl
    rw [if_neg hopen] at h ⊢
    by_cases hclose : c = chr ')'
    · rw [if_pos hclose] at h ⊢
      obtain ⟨hnone, hsome⟩ := hstep _ h
      refine ⟨by rw [hnone]; rfl, fun rest => ?_⟩
      rw [List.cons_append, splitName, if_neg hopen, if_pos hclose, hsome rest]
      rfl
    rw [if_neg hclose] at h ⊢
    by_cases hcut : c = chr ':' ∧ parens = 0
    · rw [if_pos hcut] at h
      exact absurd (Prod.mk.inj (Option.some.inj h)).1 (List.cons_ne_nil c a).symm
    rw [if_neg hcut] at h ⊢
    obtain ⟨hnone, hsome⟩ := hstep _ h
    refine ⟨by rw [hnone]; rfl, fun rest => ?_⟩
    rw [List.cons_append, splitName, if_neg hopen, if_neg hclose, if_neg hcut, hsome rest]
    rfl

/-! ## Retrieving a part -/

/-- The name with an offset and a length behind it. -/
def partName (V : CString) (offset length : ℤ) : CString :=
  V ++ chr ':' :: (decimal offset ++ chr ':' :: decimal length)

/-- **The part is retrieved right**: what is returned for the name with an
offset and a length is the slice of what is returned for the name. -/
def RetrieveRight (sys : System) (c : Option Channel) (headp : Option (List TrisVar)) (V : CString)
    (offset length : ℤ) (size : ℕ) : Prop :=
  ∃ v, pbxRetrieveVariable sys c headp V size = some v ∧
    pbxRetrieveVariable sys c headp (partName V offset length) size =
      some (v.map (slice offset length))

/-- What a name asks for of a value. -/
def textFor (var s : CString) (size : ℕ) : Option CString :=
  let parsed := parseVariableName var
  if parsed.part then substring (trisCopyString s size) parsed.offset parsed.length size
  else some (trisCopyString s size)

variable {sys : System} {c : Option Channel} {headp : Option (List TrisVar)} {V var rest : CString}

theorem retrieve_some {s : CString} (h : searchVariable sys c headp var = some (some s)) :
    pbxRetrieveVariable sys c headp var size =
      if size = 0 then none else (textFor var s size).map some := by
  unfold pbxRetrieveVariable textFor
  rw [h]
  dsimp only
  split_ifs <;> rfl

/-- Names that have a colon are not predefined. -/
theorem channelVariable_of_colon {c : Channel} (h : chr ':' ∈ var) : channelVariable c var = none := by
  have hne : ∀ t : CString, chr ':' ∉ t → var ≠ t := fun t ht heq => ht (heq ▸ h)
  have hcall : ∀ t : CString, chr ':' ∉ t → var.take 4 = str "CALL" →
      (var.drop 4).take 3 = str "ING" → var.drop 7 ≠ t := by
    intro t ht hfour hthree hseven
    have hsplit : var = str "CALL" ++ (str "ING" ++ t) := by
      have hdrop : (var.drop 4).drop 3 = var.drop 7 := List.drop_drop
      rw [← hfour, ← hthree, ← hseven, ← hdrop, List.take_append_drop, List.take_append_drop]
    rw [hsplit, List.mem_append, List.mem_append] at h
    rcases h with h | h | h
    · exact absurd h (by decide)
    · exact absurd h (by decide)
    · exact ht h
  unfold channelVariable
  by_cases hfour : var.take 4 = str "CALL"
  · rw [if_pos hfour]
    by_cases hthree : (var.drop 4).take 3 = str "ING"
    · rw [if_pos hthree, if_neg (hcall _ (by decide) hfour hthree),
        if_neg (hcall _ (by decide) hfour hthree), if_neg (hcall _ (by decide) hfour hthree),
        if_neg (hcall _ (by decide) hfour hthree)]
    · rw [if_neg hthree]
  · rw [if_neg hfour, if_neg (hne _ (by decide)), if_neg (hne _ (by decide)),
      if_neg (hne _ (by decide)), if_neg (hne _ (by decide)), if_neg (hne _ (by decide)),
      if_neg (hne _ (by decide)), if_neg (hne _ (by decide)), if_neg (hne _ (by decide))]

theorem systemVariable_of_colon (h : chr ':' ∈ var) : systemVariable sys var = none := by
  have hne : ∀ t : CString, chr ':' ∉ t → var ≠ t := fun t ht heq => ht (heq ▸ h)
  unfold systemVariable
  rw [if_neg (hne _ (by decide)), if_neg (hne _ (by decide)), if_neg (hne _ (by decide))]

/-- **The whole text is looked for**: nothing but a variable of that name is
found. -/
theorem searchVariable_partName :
    searchVariable sys c headp (partName V offset length) =
      (storedUnder sys c headp (partName V offset length)).map some := by
  have hcolon : chr ':' ∈ partName V offset length :=
    List.mem_append_right _ List.mem_cons_self
  have hchannel : (c.bind fun c => channelVariable c (partName V offset length)) = none := by
    cases c with
    | none => rfl
    | some c => exact channelVariable_of_colon hcolon
  rw [searchVariable, hchannel, systemVariable_of_colon hcolon, Option.none_or, Option.none_or]

/-- What is stored is found, or a predefined variable hides it. -/
theorem searchVariable_ne_none {s : CString} (h : storedUnder sys c headp V = some s) :
    searchVariable sys c headp V ≠ none := by
  unfold searchVariable
  rw [h]
  rcases c.bind (fun c => channelVariable c V) with _ | v
  · rcases systemVariable sys V with _ | v
    · exact Option.some_ne_none _
    · exact Option.some_ne_none _
  · exact Option.some_ne_none _

/-- **Exactly when the part is retrieved right.** Something is stored under the
whole text, and what the text asks for of it is the slice; or the variable is a
predefined one that has no value, and nothing is. -/
theorem retrieveRight_iff_text (sys : System) (c : Option Channel) (headp : Option (List TrisVar))
    (V : CString) (offset length : ℤ) (size : ℕ) (s : CString)
    (hstored : storedUnder sys c headp V = some s) :
    RetrieveRight sys c headp V offset length size ↔
      searchVariable sys c headp V = some none ∧
          storedUnder sys c headp (partName V offset length) = none ∨
        0 < size ∧ ∃ s s' v, searchVariable sys c headp V = some (some s) ∧
          storedUnder sys c headp (partName V offset length) = some s' ∧
            textFor V s size = some v ∧
              textFor (partName V offset length) s' size = some (slice offset length v) := by
  have hpart := @searchVariable_partName offset length sys c headp V
  have hfound := searchVariable_ne_none hstored
  -- the answer where nothing is stored under the whole text
  have hnull : storedUnder sys c headp (partName V offset length) = none →
      pbxRetrieveVariable sys c headp (partName V offset length) size = some none := by
    intro hnone
    rw [hnone] at hpart
    unfold pbxRetrieveVariable
    rw [hpart]
    rfl
  have htext : ∀ s', storedUnder sys c headp (partName V offset length) = some s' →
      pbxRetrieveVariable sys c headp (partName V offset length) size =
        if size = 0 then none else (textFor (partName V offset length) s' size).map some := by
    intro s' hs'
    rw [hs'] at hpart
    exact retrieve_some hpart
  rcases hsearch : searchVariable sys c headp V with _ | ⟨_ | s⟩
  · exact absurd hsearch hfound
  · have hvalue : pbxRetrieveVariable sys c headp V size = some none := by
      unfold pbxRetrieveVariable
      rw [hsearch]
    constructor
    · rintro ⟨v, hv, hright⟩
      obtain rfl := Option.some.inj (hvalue.symm.trans hv)
      rcases hwhole : storedUnder sys c headp (partName V offset length) with _ | s'
      · exact Or.inl ⟨rfl, rfl⟩
      · rw [htext s' hwhole] at hright
        split_ifs at hright
        obtain ⟨t, -, ht⟩ := Option.map_eq_some_iff.1 hright
        exact absurd ht (Option.some_ne_none _)
    · rintro (⟨-, hwhole⟩ | ⟨-, s, s', v, hs, -⟩)
      · exact ⟨none, hvalue, hnull hwhole⟩
      · exact absurd (Option.some.inj hs) (Option.some_ne_none _).symm
  · have hvalue := @retrieve_some size sys c headp V s hsearch
    constructor
    · rintro ⟨v, hv, hright⟩
      rw [hvalue] at hv
      split_ifs at hv with hzero
      obtain ⟨t, ht, rfl⟩ := Option.map_eq_some_iff.1 hv
      rcases hwhole : storedUnder sys c headp (partName V offset length) with _ | s'
      · rw [hnull hwhole] at hright
        exact absurd (Option.some.inj hright) (Option.some_ne_none _).symm
      · rw [htext s' hwhole, if_neg hzero] at hright
        obtain ⟨t', ht', heq⟩ := Option.map_eq_some_iff.1 hright
        obtain rfl := Option.some.inj heq
        exact Or.inr ⟨by omega, s, s', t, rfl, rfl, ht, ht'⟩
    · rintro (⟨hs, -⟩ | ⟨hpos, t, s', v, hs, hwhole, hv, hv'⟩)
      · exact absurd (Option.some.inj hs) (Option.some_ne_none _)
      · obtain rfl := Option.some.inj (Option.some.inj hs)
        refine ⟨some v, ?_, ?_⟩
        · rw [hvalue, if_neg (by omega), hv]
          rfl
        · rw [htext s' hwhole, if_neg (by omega), hv']
          rfl

/-- **What a plain name asks for** is all of the value; with the offset and the
length behind it, `substring` is given these. -/
theorem textFor_of_plain (hV : PlainName V) (hoffset : InInt offset) (hlength : InInt length)
    (s : CString) : textFor V s size = some (trisCopyString s size) ∧
      textFor (partName V offset length) s size =
        substring (trisCopyString s size) offset length size := by
  obtain ⟨hnone, hsome⟩ := splitName_of_concat V 0 hV
  have hname : (parseVariableName V).part = false := by
    unfold parseVariableName
    rw [hnone]
  have hpart : parseVariableName (partName V offset length) =
      ⟨V, offset, length, V.count (chr '('), true⟩ := by
    unfold parseVariableName partName
    rw [hsome]
    dsimp only
    rw [scanPart_decimal hoffset hlength]
  unfold textFor
  rw [hpart]
  dsimp only
  rw [hname, if_neg Bool.false_ne_true, if_pos rfl]
  exact ⟨rfl, rfl⟩

/-- The part that the whole text asks for of one value is the slice of what the
name asks for of another. -/
def SlicesAgree (V : CString) (offset length : ℤ) (size : ℕ) (s s' : CString) : Prop :=
  if PlainName V then
    Fits offset length (trisCopyString s' size) ∧
      slice offset length (trisCopyString s' size) = slice offset length (trisCopyString s size)
  else
    ∃ v, textFor V s size = some v ∧
      textFor (partName V offset length) s' size = some (slice offset length v)

theorem slicesAgree_iff (hoffset : InInt offset) (hlength : InInt length) (hsize : 0 < size)
    (hmax : (size : ℤ) ≤ intMax) (s s' : CString) : SlicesAgree V offset length size s s' ↔
      ∃ v, textFor V s size = some v ∧
        textFor (partName V offset length) s' size = some (slice offset length v) := by
  unfold SlicesAgree
  by_cases hV : PlainName V
  · have hcopy : trisCopyString (trisCopyString s' size) size = trisCopyString s' size := by
      unfold trisCopyString
      rw [List.take_take, Nat.min_self]
    have hiff := @substring_eq_iff offset length (trisCopyString s' size) (trisCopyString s size) size
      hlength hsize hmax (length_trisCopyString_lt hsize)
    rw [hcopy] at hiff
    rw [if_pos hV, (textFor_of_plain hV hoffset hlength s).1, (textFor_of_plain hV hoffset hlength s').2,
      ← hiff]
    constructor
    · exact fun h => ⟨_, rfl, h⟩
    · rintro ⟨v, hv, h⟩
      obtain rfl := Option.some.inj hv
      exact h
  · rw [if_neg hV]

/-- **Exactly when the part is retrieved right.** A variable is stored under the
whole text, and its slice is the slice of what is asked for; or the name is that
of a predefined variable without a value, and nothing is stored. -/
theorem retrieveRight_iff (sys : System) (c : Option Channel) (headp : Option (List TrisVar))
    (V : CString) (offset length : ℤ) (size : ℕ) (s : CString)
    (hstored : storedUnder sys c headp V = some s) (hoffset : InInt offset) (hlength : InInt length)
    (hmax : (size : ℤ) ≤ intMax) :
    RetrieveRight sys c headp V offset length size ↔
      searchVariable sys c headp V = some none ∧
          storedUnder sys c headp (partName V offset length) = none ∨
        0 < size ∧ ∃ s s', searchVariable sys c headp V = some (some s) ∧
          storedUnder sys c headp (partName V offset length) = some s' ∧
            SlicesAgree V offset length size s s' := by
  rw [retrieveRight_iff_text sys c headp V offset length size s hstored]
  refine or_congr_right (and_congr_right fun hsize => ?_)
  constructor
  · rintro ⟨s, s', v, hs, hs', hv⟩
    exact ⟨s, s', hs, hs', (slicesAgree_iff hoffset hlength hsize hmax s s').2 ⟨v, hv⟩⟩
  · rintro ⟨s, s', hs, hs', hagree⟩
    obtain ⟨v, hv⟩ := (slicesAgree_iff hoffset hlength hsize hmax s s').1 hagree
    exact ⟨s, s', v, hs, hs', hv⟩

/-- A system with one variable. -/
def oneVariable (v : TrisVar) : System := ⟨0, [], [], [v]⟩

theorem retrieveRight_iff_one :
    storedUnder (oneVariable ⟨str "FOO", str "abcdef"⟩) none none (str "FOO") = some (str "abcdef") ∧
      (RetrieveRight (oneVariable ⟨str "FOO", str "abcdef"⟩) none none (str "FOO") 1 2 4096 ↔
        searchVariable (oneVariable ⟨str "FOO", str "abcdef"⟩) none none (str "FOO") = some none ∧
            storedUnder (oneVariable ⟨str "FOO", str "abcdef"⟩) none none
              (partName (str "FOO") 1 2) = none ∨
          0 < 4096 ∧ ∃ s s', searchVariable (oneVariable ⟨str "FOO", str "abcdef"⟩) none none
              (str "FOO") = some (some s) ∧
            storedUnder (oneVariable ⟨str "FOO", str "abcdef"⟩) none none
              (partName (str "FOO") 1 2) = some s' ∧ SlicesAgree (str "FOO") 1 2 4096 s s') :=
  ⟨by decide, retrieveRight_iff _ none none (str "FOO") 1 2 4096 (str "abcdef") (by decide)
    (by decide) (by decide) (by decide)⟩

/-- **Nothing is found** for the part of a variable that is stored. -/
theorem not_retrieveRight :
    ¬RetrieveRight (oneVariable ⟨str "FOO", str "abcdef"⟩) none none (str "FOO") 1 2 4096 := by
  have hdigit : ∀ n : ℕ, n < 10 → decimal n = [chr (Nat.digitChar n)] := by
    intro n hn
    have hpos : ¬(n : ℤ) < 0 := by omega
    rw [decimal, if_neg hpos, Int.natAbs_natCast, Nat.toDigits_of_lt_base hn]
    rfl
  have hone : decimal 1 = str "1" := hdigit 1 (by decide)
  have htwo : decimal 2 = str "2" := hdigit 2 (by decide)
  have hwhole : partName (str "FOO") 1 2 = str "FOO:1:2" := by
    rw [partName, hone, htwo]
    decide
  rintro ⟨v, hv, hright⟩
  rw [hwhole] at hright
  have hnull : pbxRetrieveVariable (oneVariable ⟨str "FOO", str "abcdef"⟩) none none
      (str "FOO:1:2") 4096 = some none := by decide
  have hvalue : pbxRetrieveVariable (oneVariable ⟨str "FOO", str "abcdef"⟩) none none
      (str "FOO") 4096 = some (some (str "abcdef")) := by decide
  obtain rfl := Option.some.inj (hvalue.symm.trans hv)
  exact absurd (Option.some.inj (hnull.symm.trans hright)) (Option.some_ne_none _).symm

end Pbx

end Trismedia
