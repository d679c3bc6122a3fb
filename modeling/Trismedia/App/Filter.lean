import Mathlib.Data.Int.Notation
import Trismedia.App.Encoded
/-!
# The FILTER function

`filter` of `funcs/func_strings.c`. The loops over the allowed characters take
fuel. The result `none` is a loop that runs out of it, or a read behind the
terminator of the allowed characters; -1 is `some none`.
-/


namespace Trismedia

namespace App

namespace Filter

open CString

/-! ## The code -/

/-- `bitfield` -/
abbrev Bitfield : Type := CChar → Bool

def Bitfield.set (b : Bitfield) (ac : CChar) : Bitfield := fun c => if c = ac then true else b c

/-- The loop over a range: `ac` is unsigned, and `c2` is not. -/
def expandRange : ℕ → CChar → CChar → Bitfield → Option Bitfield
  | 0, _, _, _ => none
  | fuel + 1, c2, ac, b =>
    if (ac.toNat : ℤ) ≠ c2.toInt then expandRange fuel c2 (ac + 1) (b.set ac)
    else some (b.set ac)

/-- The loop over the allowed characters. -/
def expandRanges (rangeFuel : ℕ) : ℕ → CString → Bitfield → Option (Option Bitfield)
  | _, [], b => some (some b)
  | 0, _ :: _, _ => none
  | fuel + 1, a :: as, b =>
    let e := trisGetEncodedChar (a :: as)
    if !e.ok then some none
    else
      (advance (a :: as) e.consumed).bind fun allowed =>
        if allowed.head? = some (chr '-') then
          let f := trisGetEncodedChar allowed.tail
          let c2 := if f.ok then f.result else -1
          (expandRange rangeFuel c2 e.result b).bind fun b =>
            (advance allowed (f.consumed + 1)).bind fun allowed =>
              expandRanges rangeFuel fuel allowed b
        else expandRanges rangeFuel fuel allowed (b.set e.result)

/-- `allowed`, behind its loop. -/
def allowedOf (b : Bitfield) : CString :=
  ((List.range' 1 255).map (BitVec.ofNat 8)).filter b

/-- The loop over the string, with `room` in the buffer. -/
def copyAllowed (allowed : CString) : ℕ → CString → CString
  | _, [] => []
  | 0, _ => []
  | room + 1, c :: string =>
    if c ∈ allowed then c :: copyAllowed allowed room string
    else copyAllowed allowed (room + 1) string

/-- **`filter`** -/
def filter (fuel : ℕ) (allowed string : CString) (len : ℕ) : Option (Option CString) :=
  (expandRanges fuel fuel allowed fun _ => false).map fun r =>
    r.map fun b => copyAllowed (allowedOf b) (len - 1) string

/-! ## What is asked of it -/

/-- What a specification is made of. -/
inductive Item where
  | char (c : CChar)
  | range (a b : CChar)

/-- **The characters of an item**: those of a range are taken from `a` upwards to
`b`, behind 255 comes 0. -/
def Item.describes (c : CChar) : Item → Bool
  | .char d => c = d
  | .range a b => (c - a).toNat ≤ (b - a).toNat

/-- A literal or escaped character, and what is behind it. -/
def character (spec : CString) : Option (CChar × CString) :=
  let e := trisGetEncodedChar spec
  if e.ok then (advance spec e.consumed).map fun rest => (e.result, rest) else none

/-- An item, and what is behind it. -/
def item (spec : CString) : Option (Item × CString) :=
  (character spec).bind fun c =>
    if c.2.head? = some (chr '-') then
      (character c.2.tail).map fun d => (.range c.1 d.1, d.2)
    else some (.char c.1, c.2)

/-- The items of a specification, up to `n`, and what is behind them. -/
def itemsUpTo : ℕ → CString → List Item × CString
  | 0, spec => ([], spec)
  | n + 1, spec =>
    match item spec with
    | none => ([], spec)
    | some (i, rest) => (i :: (itemsUpTo n rest).1, (itemsUpTo n rest).2)

/-- **The items of a specification**, and what is no item. -/
def items (spec : CString) : List Item × CString := itemsUpTo spec.length spec

/-- The characters described. -/
def described (spec : CString) (c : CChar) : Bool := (items spec).1.any (Item.describes c)

/-- An escape that is reported. -/
def IsIllegal (spec : CString) : Prop := spec ≠ [] ∧ (trisGetEncodedChar spec).ok = false

/-- **The function filters**: it returns, and writes what is described, unless it
reports an illegal escape. -/
def Filters (allowed string : CString) (len : ℕ) : Prop :=
  ∃ fuel r, filter fuel allowed string len = some r ∧
    (r = none ∧ IsIllegal (items allowed).2 ∨
      (items allowed).2 = [] ∧ r = some ((string.filter (described allowed)).take (len - 1)))

/-- **A specification that is expanded**: items up to its end or to an illegal
escape in front of an item, and the end of each range is below 128. -/
def Expands (allowed : CString) : Prop :=
  ((items allowed).2 = [] ∨ IsIllegal (items allowed).2) ∧
    ∀ a b, Item.range a b ∈ (items allowed).1 → b.toNat < 128

variable {b : Bitfield} {c c2 ac : CChar} {allowed rest string : CString} {fuel rangeFuel n : ℕ}
variable {i : Item} {r : Option Bitfield}

/-! ## A range -/

/-- **An end from 128 on is never met.** -/
theorem expandRange_none (h : 128 ≤ c2.toNat) : ∀ fuel ac b, expandRange fuel c2 ac b = none := by
  intro fuel
  induction fuel with
  | zero => exact fun ac b => rfl
  | succ fuel ih =>
    intro ac b
    have hne : (ac.toNat : ℤ) ≠ c2.toInt := by
      have hneg : c2.toInt < 0 := by
        rw [BitVec.toInt_eq_toNat_cond]
        have hlt := c2.isLt
        split_ifs <;> omega
      omega
    rw [expandRange, if_pos hne]
    exact ih _ _

/-- **The others are**: all from `ac` upwards to the end are set. -/
theorem expandRange_some (h : c2.toNat < 128) : ∀ k fuel ac b, (c2 - ac).toNat = k → k < fuel →
    expandRange fuel c2 ac b = some fun c => b c || decide ((c - ac).toNat ≤ k) := by
  have hend : c2.toInt = c2.toNat := by
    rw [BitVec.toInt_eq_toNat_cond]
    split_ifs <;> omega
  intro k
  induction k with
  | zero =>
    intro fuel ac b hk hfuel
    obtain ⟨fuel, rfl⟩ : ∃ m, fuel = m + 1 := ⟨fuel - 1, by omega⟩
    have hac := ac.isLt
    have hc2 := c2.isLt
    rw [BitVec.toNat_sub] at hk
    have heq : ac.toNat = c2.toNat := by omega
    rw [expandRange, if_neg (by rw [hend, heq]; exact not_not.2 rfl)]
    refine congrArg some (funext fun c => ?_)
    have hiff : c = ac ↔ (c - ac).toNat ≤ 0 := by
      have hc := c.isLt
      rw [BitVec.toNat_sub, ← BitVec.toNat_inj]
      omega
    unfold Bitfield.set
    by_cases hcac : c = ac
    · rw [if_pos hcac, decide_eq_true (hiff.1 hcac), Bool.or_true]
    · rw [if_neg hcac, decide_eq_false (fun hle => hcac (hiff.2 hle)), Bool.or_false]
  | succ k ih =>
    intro fuel ac b hk hfuel
    obtain ⟨fuel, rfl⟩ : ∃ m, fuel = m + 1 := ⟨fuel - 1, by omega⟩
    have hac := ac.isLt
    have hc2 := c2.isLt
    rw [BitVec.toNat_sub] at hk
    have hnext : (ac + 1).toNat = (ac.toNat + 1) % 2 ^ 8 := BitVec.toNat_add ac 1
    have hless : (c2 - (ac + 1)).toNat = k := by
      rw [BitVec.toNat_sub, hnext]
      omega
    rw [expandRange, if_pos (by rw [hend]; omega), ih fuel (ac + 1) _ hless (by omega)]
    refine congrArg some (funext fun c => ?_)
    have hiff : (c - ac).toNat ≤ k + 1 ↔ c = ac ∨ (c - (ac + 1)).toNat ≤ k := by
      have hc := c.isLt
      rw [BitVec.toNat_sub, BitVec.toNat_sub, hnext, ← BitVec.toNat_inj]
      omega
    unfold Bitfield.set
    by_cases hcac : c = ac
    · rw [if_pos hcac, Bool.true_or, decide_eq_true (hiff.2 (Or.inl hcac)), Bool.or_true]
    · rw [if_neg hcac]
      exact congrArg (b c || ·) (decide_eq_decide.2 (by rw [hiff, or_iff_right hcac]))

/-! ## The items -/

theorem character_eq_some {spec : CString} {d : CChar × CString} (h : character spec = some d) :
    (trisGetEncodedChar spec).ok = true ∧ d.1 = (trisGetEncodedChar spec).result ∧
      advance spec (trisGetEncodedChar spec).consumed = some d.2 := by
  unfold character at h
  dsimp only at h
  by_cases hok : (trisGetEncodedChar spec).ok = true
  · rw [if_pos hok] at h
    obtain ⟨rest, hrest, rfl⟩ := Option.map_eq_some_iff.1 h
    exact ⟨hok, rfl, hrest⟩
  · rw [if_neg hok] at h
    exact absurd h (Option.some_ne_none d).symm

theorem advance_eq_some (h : advance allowed n = some rest) : rest.length + n = allowed.length := by
  unfold advance at h
  split_ifs at h with hle
  rw [← Option.some.inj h, List.length_drop]
  omega

/-- What is behind a character is shorter. -/
theorem character_length {d : CChar × CString} (h : character allowed = some d) :
    d.2.length < allowed.length := by
  obtain ⟨hok, -, hrest⟩ := character_eq_some h
  have hpos := (trisGetEncodedChar_consumed hok).1
  have hlength := advance_eq_some hrest
  omega

theorem item_length (h : item allowed = some (i, rest)) : rest.length < allowed.length := by
  unfold item at h
  obtain ⟨d, hd, h⟩ := Option.bind_eq_some_iff.1 h
  have hlength := character_length hd
  split_ifs at h with hdash
  · obtain ⟨e, he, heq⟩ := Option.map_eq_some_iff.1 h
    obtain ⟨-, rfl⟩ := Prod.mk.inj heq
    have hlength' := character_length he
    rw [List.length_tail] at hlength'
    omega
  · obtain ⟨-, rfl⟩ := Prod.mk.inj (Option.some.inj h)
    exact hlength

/-- What an item sets. -/
def expandItem (rangeFuel : ℕ) (b : Bitfield) : Item → Option Bitfield
  | .char c => some (b.set c)
  | .range a e => expandRange rangeFuel e a b

/-- **A round with an item** sets it and goes on. -/
theorem expandRanges_item (h : item allowed = some (i, rest)) :
    expandRanges rangeFuel (fuel + 1) allowed b =
      (expandItem rangeFuel b i).bind fun b => expandRanges rangeFuel fuel rest b := by
  unfold item at h
  obtain ⟨d, hd, hitem⟩ := Option.bind_eq_some_iff.1 h
  obtain ⟨hok, hresult, hrest⟩ := character_eq_some hd
  rcases allowed with _ | ⟨a, as⟩
  · exact absurd hok Bool.false_ne_true
  rw [expandRanges]
  dsimp only
  rw [hok, Bool.not_true, if_neg Bool.false_ne_true, hrest, Option.bind_some]
  by_cases hdash : d.2.head? = some (chr '-')
  · rw [if_pos hdash] at hitem ⊢
    obtain ⟨e, he, heq⟩ := Option.map_eq_some_iff.1 hitem
    obtain ⟨rfl, rfl⟩ := Prod.mk.inj heq
    obtain ⟨hok', hresult', hrest'⟩ := character_eq_some he
    have hadvance : advance d.2 ((trisGetEncodedChar d.2.tail).consumed + 1) = some e.2 := by
      rcases hd2 : d.2 with _ | ⟨x, xs⟩
      · rw [hd2] at hdash
        exact absurd hdash (Option.some_ne_none _).symm
      · rw [hd2, List.tail_cons] at hrest'
        rw [List.tail_cons]
        unfold advance at hrest' ⊢
        rw [List.length_cons, List.drop_succ_cons]
        split_ifs at hrest' with hle
        rw [if_pos (by omega)]
        exact hrest'
    rw [if_pos hok', ← hresult', ← hresult]
    refine congrArg (Option.bind _) (funext fun b' => ?_)
    rw [hadvance, Option.bind_some]
  · rw [if_neg hdash] at hitem ⊢
    obtain ⟨rfl, rfl⟩ := Prod.mk.inj (Option.some.inj hitem)
    rw [← hresult]
    rfl

/-- **A round without one** reports an illegal escape, or does not end. -/
theorem expandRanges_none (hne : allowed ≠ []) (h : item allowed = none) :
    expandRanges rangeFuel (fuel + 1) allowed b =
      if (trisGetEncodedChar allowed).ok = true then none else some none := by
  rcases allowed with _ | ⟨a, as⟩
  · exact absurd rfl hne
  rw [expandRanges]
  dsimp only
  by_cases hok : (trisGetEncodedChar (a :: as)).ok = true
  · rw [hok, Bool.not_true, if_neg Bool.false_ne_true, if_pos rfl]
    rcases hrest : advance (a :: as) (trisGetEncodedChar (a :: as)).consumed with _ | rest
    · rfl
    have hchar : character (a :: as) = some ((trisGetEncodedChar (a :: as)).result, rest) := by
      unfold character
      dsimp only
      rw [if_pos hok, hrest]
      rfl
    unfold item at h
    rw [hchar, Option.bind_some] at h
    rw [Option.bind_some]
    dsimp only at h
    by_cases hdash : rest.head? = some (chr '-')
    · rw [if_pos hdash] at h ⊢
      have hend : character rest.tail = none := Option.map_eq_none_iff.1 h
      unfold character at hend
      dsimp only at hend
      by_cases hok' : (trisGetEncodedChar rest.tail).ok = true
      · -- the terminator is taken for the end of the range
        rw [if_pos hok', Option.map_eq_none_iff] at hend
        rw [if_pos hok']
        have hbehind : advance rest ((trisGetEncodedChar rest.tail).consumed + 1) = none := by
          unfold advance at hend ⊢
          split_ifs at hend with hle
          rw [List.length_tail] at hle
          rw [if_neg (by omega)]
        rcases expandRange rangeFuel _ _ b with _ | b'
        · rfl
        · rw [Option.bind_some, hbehind]
          rfl
      · rw [if_neg hok', expandRange_none (by decide)]
        rfl
    · rw [if_neg hdash] at h
      exact absurd h (Option.some_ne_none _)
  · rw [Bool.eq_false_iff.2 hok, Bool.not_false, if_pos rfl, if_neg Bool.false_ne_true]

/-! ## The loop -/

/-- What the items set. -/
def describes (its : List Item) (b : Bitfield) : Bitfield := fun c => b c || its.any (Item.describes c)

theorem describes_cons (i : Item) (its : List Item) (b : Bitfield) :
    describes its (fun c => b c || i.describes c) = describes (i :: its) b := by
  funext c
  unfold describes
  rw [List.any_cons, Bool.or_assoc]

/-- **An item sets what it describes**, unless it is a range whose end is never
met. -/
theorem expandItem_eq (hfuel : 256 ≤ rangeFuel) (h : ∀ a e, i = .range a e → e.toNat < 128) :
    expandItem rangeFuel b i = some fun c => b c || i.describes c := by
  cases i with
  | char d =>
    refine congrArg some (funext fun c => ?_)
    show (if c = d then true else b c) = (b c || decide (c = d))
    by_cases hc : c = d
    · rw [if_pos hc, decide_eq_true hc, Bool.or_true]
    · rw [if_neg hc, decide_eq_false hc, Bool.or_false]
  | range a e =>
    exact expandRange_some (h a e rfl) _ _ _ _ rfl (Nat.lt_of_lt_of_le (e - a).isLt hfuel)

/-- A range with an end from 128 on is not expanded, whatever the fuel. -/
theorem expandItem_some {b' : Bitfield} (h : expandItem rangeFuel b i = some b') :
    ∀ a e, i = .range a e → e.toNat < 128 := by
  rintro a e rfl
  by_contra hge
  have hnone := @expandRange_none e (Nat.le_of_not_lt hge) rangeFuel a b
  exact absurd (hnone.symm.trans h) (Option.some_ne_none b').symm

theorem itemsUpTo_nil (n : ℕ) : itemsUpTo n [] = ([], []) := by
  cases n with
  | zero => rfl
  | succ n => rfl

/-- Items up to more than the length are all. -/
theorem itemsUpTo_of_le : ∀ n m (spec : CString), spec.length ≤ n → spec.length ≤ m →
    itemsUpTo n spec = itemsUpTo m spec := by
  intro n
  induction n with
  | zero =>
    intro m spec hn _
    obtain rfl : spec = [] := List.eq_nil_of_length_eq_zero (Nat.le_zero.1 hn)
    rw [itemsUpTo_nil, itemsUpTo_nil]
  | succ n ih =>
    intro m spec hn hm
    rcases spec with _ | ⟨a, as⟩
    · rw [itemsUpTo_nil, itemsUpTo_nil]
    obtain ⟨m, rfl⟩ : ∃ k, m = k + 1 := ⟨m - 1, by rw [List.length_cons] at hm; omega⟩
    unfold itemsUpTo
    rcases hitem : item (a :: as) with _ | ⟨i, rest⟩
    · rfl
    · have hlength := item_length hitem
      rw [List.length_cons] at hlength hn hm
      dsimp only
      rw [ih m rest (by omega) (by omega)]

/-- The items of what begins with one. -/
theorem items_item (h : item allowed = some (i, rest)) :
    items allowed = (i :: (items rest).1, (items rest).2) := by
  have hlength := item_length h
  obtain ⟨n, hn⟩ : ∃ k, allowed.length = k + 1 := ⟨allowed.length - 1, by omega⟩
  unfold items
  rw [hn, itemsUpTo, h]
  dsimp only
  rw [itemsUpTo_of_le n rest.length rest (by omega) (Nat.le_refl _)]

theorem items_none (h : item allowed = none) : items allowed = ([], allowed) := by
  unfold items
  rcases allowed with _ | ⟨a, as⟩
  · rfl
  · rw [List.length_cons, itemsUpTo, h]

/-- **The loop expands** a specification of items up to its end, or to an illegal
escape. -/
theorem expandRanges_of_expands (hfuel : 256 ≤ rangeFuel) : ∀ fuel (allowed : CString) b,
    allowed.length ≤ fuel → Expands allowed → expandRanges rangeFuel fuel allowed b =
      some (if (items allowed).2 = [] then some (describes (items allowed).1 b) else none) := by
  intro fuel
  induction fuel with
  | zero =>
    intro allowed b hlength _
    obtain rfl : allowed = [] := List.eq_nil_of_length_eq_zero (Nat.le_zero.1 hlength)
    rw [expandRanges]
    refine congrArg (some ∘ some) (funext fun c => ?_)
    exact (Bool.or_false (b c)).symm
  | succ fuel ih =>
    intro allowed b hlength hexpands
    rcases hitem : item allowed with _ | ⟨i, rest⟩
    · unfold Expands at hexpands
      rw [items_none hitem] at hexpands ⊢
      obtain ⟨rfl | hillegal, -⟩ := hexpands
      · rw [expandRanges]
        refine congrArg (some ∘ some) (funext fun c => ?_)
        exact (Bool.or_false (b c)).symm
      · dsimp only
        rw [if_neg hillegal.1, expandRanges_none hillegal.1 hitem, hillegal.2,
          if_neg Bool.false_ne_true]
    · have hshorter := item_length hitem
      unfold Expands at hexpands
      rw [items_item hitem] at hexpands ⊢
      obtain ⟨htail, hranges⟩ := hexpands
      have hi : ∀ a e, i = .range a e → e.toNat < 128 := fun a e h =>
        hranges a e (List.mem_cons.2 (Or.inl h.symm))
      rw [expandRanges_item hitem, expandItem_eq hfuel hi, Option.bind_some,
        ih rest _ (by omega) ⟨htail, fun a e h => hranges a e (List.mem_cons_of_mem _ h)⟩,
        describes_cons]

/-- **A loop that returns** has expanded the specification. -/
theorem expands_of_expandRanges : ∀ fuel (allowed : CString) b r,
    expandRanges rangeFuel fuel allowed b = some r → Expands allowed := by
  intro fuel
  induction fuel with
  | zero =>
    intro allowed b r h
    rcases allowed with _ | ⟨a, as⟩
    · exact ⟨Or.inl rfl, fun a e h => absurd h List.not_mem_nil⟩
    · rw [expandRanges] at h
      exact absurd h (Option.some_ne_none r).symm
  | succ fuel ih =>
    intro allowed b r h
    rcases hitem : item allowed with _ | ⟨i, rest⟩
    · unfold Expands
      rw [items_none hitem]
      refine ⟨?_, fun a e h => absurd h List.not_mem_nil⟩
      by_cases hne : allowed = []
      · exact Or.inl hne
      · rw [expandRanges_none hne hitem] at h
        split_ifs at h with hok
        exact Or.inr ⟨hne, Bool.eq_false_iff.2 hok⟩
    · rw [expandRanges_item hitem] at h
      obtain ⟨b', hb', h⟩ := Option.bind_eq_some_iff.1 h
      obtain ⟨htail, hranges⟩ := ih rest b' r h
      unfold Expands
      rw [items_item hitem]
      refine ⟨htail, fun a e hmem => ?_⟩
      rcases List.mem_cons.1 hmem with heq | hmem
      · exact expandItem_some hb' a e heq.symm
      · exact hranges a e hmem

/-! ## The function -/

theorem mem_allowedOf (h : c ≠ 0) : c ∈ allowedOf b ↔ b c = true := by
  unfold allowedOf
  rw [List.mem_filter]
  refine and_iff_right (List.mem_map.2 ⟨c.toNat, ?_, BitVec.ofNat_toNat 8 c⟩)
  have hlt := c.isLt
  have hpos : c.toNat ≠ 0 := fun hzero => h (BitVec.toNat_inj.1 hzero)
  rw [List.mem_range'_1]
  omega

/-- What is copied. -/
theorem copyAllowed_eq {allowed : CString} : ∀ (string : CString) room,
    copyAllowed allowed room string = (string.filter fun c => c ∈ allowed).take room := by
  intro string
  induction string with
  | nil =>
    intro room
    rw [copyAllowed, List.filter_nil, List.take_nil]
  | cons c string ih =>
    intro room
    cases room with
    | zero => rfl
    | succ room =>
      rw [copyAllowed]
      by_cases hc : c ∈ allowed
      · have hkept : (c :: string).filter (fun c => c ∈ allowed) =
            c :: string.filter fun c => c ∈ allowed := List.filter_cons_of_pos (decide_eq_true hc)
        rw [if_pos hc, hkept, List.take_succ_cons, ih]
      · have hleft : (c :: string).filter (fun c => c ∈ allowed) =
            string.filter fun c => c ∈ allowed :=
          List.filter_cons_of_neg fun h => hc (of_decide_eq_true h)
        rw [if_neg hc, hleft, ih]

end Filter

end App

end Trismedia
