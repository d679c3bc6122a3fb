import Trismedia.App.Encoded
/-!
# The LISTFILTER function

`listfilter` of `funcs/func_strings.c`, with what `__tris_str_helper2` copies of
a field. The loop takes fuel. The result `none` is a loop that runs out of it,
or a read behind the terminator of the list. The dynamic string has the space
for what is appended.
-/


namespace Trismedia

namespace App

namespace Listfilter

open CString

/-! ## The code -/

/-- `strstr` -/
def strstr : CString → CString → Option CString
  | [], needle => if needle = [] then some [] else none
  | c :: haystack, needle =>
    if needle <+: c :: haystack then some (c :: haystack) else strstr haystack needle

/-- `delim`, behind its decoding. -/
def delimOf (delimiter : CString) : CString :=
  let delim := trisGetEncodedStr delimiter (delimiter.length + 1)
  if delim.length = 0 then [chr ','] else delim

/-- `tris_str_append_substr`, which is `__tris_str_helper2`. -/
def appendSubstr (result src : CString) (maxsrc : ℕ) : CString := result ++ src.take maxsrc

/-- `first`, `begin` and the result. -/
structure Cursor where
  first : Bool
  start : CString
  result : CString

/-- What the loop does with a field, from `begin` to `cur`. -/
def filterField (delim fieldvalue cur : CString) (p : Cursor) : Cursor :=
  let flen := fieldvalue.length
  let len := p.start.length - cur.length
  if flen = len ∧ p.start.take flen = fieldvalue.take flen then
    { p with start := p.start.drop (flen + delim.length) }
  else
    { first := false
      start := cur.drop delim.length
      result := appendSubstr (if p.first then p.result else p.result ++ delim) p.start (len + 1) }

/-- The loop. -/
def filterLoop (delim fieldvalue : CString) : ℕ → Cursor → Option CString → Option CString
  | 0, _, _ => none
  | fuel + 1, p, some cur =>
    let p' := filterField delim fieldvalue cur p
    if cur = [] then some p'.result
    else filterLoop delim fieldvalue fuel p' (strstr (cur.drop delim.length) delim)
  | _ + 1, p, none =>
    (advance p.start delim.length).map fun _ => (filterField delim fieldvalue [] p).result

/-- **`listfilter`** -/
def listfilter (fuel : ℕ) (list delimiter fieldvalue : CString) (len : ℕ) : Option CString :=
  if strstr list fieldvalue = none then some (trisCopyString list len)
  else
    let delim := delimOf delimiter
    (filterLoop delim fieldvalue fuel ⟨true, list, []⟩ (strstr list delim)).map fun result =>
      trisCopyString result len

/-! ## What is asked of it -/

/-- The fields of a list, up to `n` of them. -/
def fieldsUpTo (delim : CString) : ℕ → CString → List CString
  | 0, list => [list]
  | n + 1, list =>
    match strstr list delim with
    | none => [list]
    | some cur => list.take (list.length - cur.length) :: fieldsUpTo delim n (cur.drop delim.length)

/-- **The fields of a list.** -/
def fields (delim list : CString) : List CString := fieldsUpTo delim list.length list

/-- Those that are kept. -/
def kept (delim list fieldvalue : CString) : List CString :=
  (fields delim list).filter fun f => f ≠ fieldvalue

/-- **The list is filtered**: its fields but those with the value, joined by the
delimiter, as far as the buffer goes. -/
def Listfilters (list delimiter fieldvalue : CString) (len : ℕ) : Prop :=
  ∃ fuel, listfilter fuel list delimiter fieldvalue len =
    some (trisCopyString ((delimOf delimiter).intercalate
      (kept (delimOf delimiter) list fieldvalue)) len)

/-- How many of the first characters are those that the delimiter begins with. -/
def leading (delim s : CString) : ℕ := (s.takeWhile fun c => some c = delim.head?).length

/-- The buffer ends with the first of some fields, or with characters behind it
that are the first of the delimiter. -/
def EndsEarly (delim : CString) (ks : List CString) (len : ℕ) : Prop :=
  len - 1 ≤ (ks.headD []).length +
    leading delim ((delim.intercalate ks).drop (ks.headD []).length)

/-- **A list that is filtered**: the value is not in it, or its last field is at
least as long as the delimiter, and no other is kept or seen whole. -/
def Filterable (list delimiter fieldvalue : CString) (len : ℕ) : Prop :=
  let delim := delimOf delimiter
  strstr list fieldvalue = none ∨
    delim.length ≤ ((fields delim list).getLastD []).length ∧
      ((∀ f ∈ (fields delim list).dropLast, f = fieldvalue) ∨
        EndsEarly delim (kept delim list fieldvalue) len)

/-- What the loop appends for some fields, behind a field. -/
def written (delim fieldvalue : CString) : List CString → CString
  | [] => []
  | f :: fs =>
    if f = fieldvalue then written delim fieldvalue fs
    else delim ++ f ++ (if fs = [] then [] else delim.take 1) ++ written delim fieldvalue fs

variable {delim list delimiter fieldvalue haystack needle cur s t : CString}
variable {fuel n len : ℕ} {p : Cursor} {fs : List CString}

/-! ## The delimiter and where it is found -/

theorem delimOf_pos (delimiter : CString) : 0 < (delimOf delimiter).length := by
  unfold delimOf
  dsimp only
  split_ifs with h
  · exact Nat.one_pos
  · omega

theorem strstr_eq_some : ∀ {haystack : CString}, strstr haystack needle = some cur →
    needle <+: cur ∧ cur <:+ haystack := by
  intro haystack
  induction haystack with
  | nil =>
    intro h
    unfold strstr at h
    by_cases hn : needle = []
    · rw [if_pos hn] at h
      obtain rfl := Option.some.inj h
      exact ⟨hn ▸ List.nil_prefix, List.suffix_refl _⟩
    · rw [if_neg hn] at h
      exact absurd h (Option.some_ne_none _).symm
  | cons c haystack ih =>
    intro h
    unfold strstr at h
    by_cases hn : needle <+: c :: haystack
    · rw [if_pos hn] at h
      obtain rfl := Option.some.inj h
      exact ⟨hn, List.suffix_refl _⟩
    · rw [if_neg hn] at h
      obtain ⟨hpre, hsuf⟩ := ih h
      exact ⟨hpre, hsuf.trans (List.suffix_cons c haystack)⟩

theorem strstr_eq_none : ∀ {haystack : CString}, strstr haystack needle = none →
    ¬ needle <:+: haystack := by
  intro haystack
  induction haystack with
  | nil =>
    intro h hin
    unfold strstr at h
    rw [if_pos (List.infix_nil.1 hin)] at h
    exact absurd h (Option.some_ne_none _)
  | cons c haystack ih =>
    intro h hin
    unfold strstr at h
    by_cases hn : needle <+: c :: haystack
    · rw [if_pos hn] at h
      exact absurd h (Option.some_ne_none _)
    · rw [if_neg hn] at h
      rcases List.infix_cons_iff.1 hin with hpre | hin
      · exact hn hpre
      · exact ih h hin

/-- **What stands before the delimiter, the delimiter, and what is behind.** -/
theorem strstr_parts (h : strstr list delim = some cur) :
    list = list.take (list.length - cur.length) ++ cur ∧ cur = delim ++ cur.drop delim.length ∧
      cur.length ≤ list.length ∧ delim.length ≤ cur.length := by
  obtain ⟨hpre, hsuf⟩ := strstr_eq_some h
  have hdrop := List.suffix_iff_eq_drop.1 hsuf
  have htake := List.prefix_iff_eq_take.1 hpre
  refine ⟨?_, ?_, hsuf.length_le, hpre.length_le⟩
  · calc list = list.take (list.length - cur.length) ++ list.drop (list.length - cur.length) :=
        (List.take_append_drop _ _).symm
      _ = list.take (list.length - cur.length) ++ cur := by rw [← hdrop]
  · calc cur = cur.take delim.length ++ cur.drop delim.length :=
        (List.take_append_drop _ _).symm
      _ = delim ++ cur.drop delim.length := by rw [← htake]

/-! ## The fields -/

theorem fieldsUpTo_none (h : strstr list delim = none) : fieldsUpTo delim n list = [list] := by
  rcases n with _ | n
  · exact rfl
  · rw [fieldsUpTo, h]

theorem fieldsUpTo_ne_nil : fieldsUpTo delim n list ≠ [] := by
  rcases n with _ | n
  · exact List.cons_ne_nil _ _
  · rw [fieldsUpTo]
    rcases strstr list delim with _ | cur
    · exact List.cons_ne_nil _ _
    · exact List.cons_ne_nil _ _

/-- A join begins with the first field, and each other follows a delimiter. -/
theorem intercalate_cons (d f : CString) (fs : List CString) :
    d.intercalate (f :: fs) = f ++ fs.flatMap fun g => d ++ g := by
  induction fs generalizing f with
  | nil => rw [List.intercalate_singleton, List.flatMap_nil, List.append_nil]
  | cons g fs ih => rw [List.intercalate_cons_cons, ih g, List.flatMap_cons, List.append_assoc,
      List.append_assoc]

/-- **The fields make up the list.** -/
theorem intercalate_fieldsUpTo : ∀ n list, delim.intercalate (fieldsUpTo delim n list) = list := by
  intro n
  induction n with
  | zero => exact fun list => List.intercalate_singleton
  | succ n ih =>
    intro list
    rw [fieldsUpTo]
    rcases h : strstr list delim with _ | cur
    · exact List.intercalate_singleton
    · obtain ⟨hlist, hcur, hlen, hdelim⟩ := strstr_parts h
      dsimp only
      rw [List.intercalate_cons_of_ne_nil fieldsUpTo_ne_nil, ih, List.append_assoc, ← hcur,
        ← hlist]

/-- Each field is in the list. -/
theorem infix_of_mem_fieldsUpTo {f : CString} :
    ∀ n list, f ∈ fieldsUpTo delim n list → f <:+: list := by
  intro n
  induction n with
  | zero =>
    intro list hf
    obtain rfl := List.mem_singleton.1 hf
    exact List.infix_refl f
  | succ n ih =>
    intro list hf
    rw [fieldsUpTo] at hf
    rcases h : strstr list delim with _ | cur
    · rw [h] at hf
      obtain rfl := List.mem_singleton.1 hf
      exact List.infix_refl f
    · rw [h] at hf
      rcases List.mem_cons.1 hf with rfl | hf
      · exact (List.take_prefix _ _).isInfix
      · have hsuf := (strstr_eq_some h).2
        exact (ih _ hf).trans ((List.drop_suffix _ _).trans hsuf).isInfix

/-- Where the value is not in the list, every field is kept. -/
theorem kept_of_not_in (h : strstr list fieldvalue = none) :
    kept delim list fieldvalue = fields delim list := by
  refine List.filter_eq_self.2 fun f hf => decide_eq_true fun heq => ?_
  exact strstr_eq_none h (heq ▸ infix_of_mem_fieldsUpTo _ _ hf)


/-! ## The loop -/

/-- What of the separated fields a cursor lacks, at its first field. -/
def Cursor.skip (p : Cursor) (delim : CString) : ℕ := if p.first then delim.length else 0

theorem filterField_skip (hcur : p.start = fieldvalue ++ cur) :
    filterField delim fieldvalue cur p = { p with start := cur.drop delim.length } := by
  have hlen : p.start.length - cur.length = fieldvalue.length := by
    rw [hcur, List.length_append, Nat.add_sub_cancel]
  unfold filterField
  dsimp only
  rw [hlen, if_pos ⟨rfl, by rw [hcur, List.take_left, List.take_length]⟩]
  have hdrop : p.start.drop (fieldvalue.length + delim.length) = cur.drop delim.length := by
    rw [← List.drop_drop, hcur, List.drop_left]
  rw [hdrop]

/-- **A field that is kept takes the first character behind it along.** -/
theorem filterField_keep {f : CString} (hcur : p.start = f ++ cur) (hf : f ≠ fieldvalue) :
    filterField delim fieldvalue cur p =
      { first := false
        start := cur.drop delim.length
        result := p.result ++ (delim ++ f ++ cur.take 1).drop (p.skip delim) } := by
  have hlen : p.start.length - cur.length = f.length := by
    rw [hcur, List.length_append, Nat.add_sub_cancel]
  have hother : ¬ (fieldvalue.length = p.start.length - cur.length ∧
      p.start.take fieldvalue.length = fieldvalue.take fieldvalue.length) := by
    rintro ⟨hl, heq⟩
    rw [hl, hlen, hcur, List.take_left] at heq
    rw [← hlen, ← hl, List.take_length] at heq
    exact hf heq
  unfold filterField
  dsimp only
  rw [if_neg hother, hlen]
  have htake : p.start.take (f.length + 1) = f ++ cur.take 1 := by
    rw [hcur, List.take_length_add_append]
  unfold appendSubstr Cursor.skip
  rw [htake]
  rcases p.first with _ | _
  · rw [if_neg Bool.false_ne_true, if_neg Bool.false_ne_true, List.drop_zero, List.append_assoc,
      List.append_assoc]
  · rw [if_pos rfl, if_pos rfl, List.append_assoc delim, List.drop_left]

theorem written_nil : written delim fieldvalue [] = [] := rfl

theorem written_eq : written delim fieldvalue (fieldvalue :: fs) = written delim fieldvalue fs := by
  rw [written, if_pos rfl]

theorem written_ne {f : CString} (hf : f ≠ fieldvalue) (hfs : fs ≠ []) :
    written delim fieldvalue (f :: fs) =
      delim ++ f ++ delim.take 1 ++ written delim fieldvalue fs := by
  rw [written, if_neg hf, if_neg hfs]

theorem written_last {f : CString} (hf : f ≠ fieldvalue) :
    written delim fieldvalue [f] = delim ++ f := by
  rw [written, if_neg hf, if_pos rfl, written_nil, List.append_nil, List.append_nil]

theorem getLastD_cons_of_ne_nil {f : CString} (h : fs ≠ []) :
    (f :: fs).getLastD [] = fs.getLastD [] := by
  obtain ⟨g, gs, rfl⟩ := List.exists_cons_of_ne_nil h
  rw [List.getLastD_cons, List.getLastD_cons, List.getLastD_cons]

theorem filterField_last :
    (filterField delim fieldvalue [] p).result =
      p.result ++ (written delim fieldvalue [p.start]).drop (p.skip delim) := by
  by_cases hf : p.start = fieldvalue
  · rw [filterField_skip (by rw [List.append_nil]; exact hf), hf, written_eq, written_nil]
    exact (List.append_nil p.result).symm.trans (congrArg _ List.drop_nil.symm)
  · rw [filterField_keep (List.append_nil p.start).symm hf, written_last hf, List.take_nil,
      List.append_nil]

theorem filterLoop_last {r : CString} :
    filterLoop delim fieldvalue fuel p none = some r ↔
      1 ≤ fuel ∧ delim.length ≤ p.start.length ∧
        p.result ++ (written delim fieldvalue [p.start]).drop (p.skip delim) = r := by
  rcases fuel with _ | fuel
  · rw [filterLoop]
    constructor
    · exact fun h => absurd h (Option.some_ne_none _).symm
    · exact fun h => absurd h.1 (Nat.not_succ_le_zero 0)
  · rw [filterLoop]
    unfold advance
    by_cases hlen : delim.length ≤ p.start.length
    · rw [if_pos hlen, Option.map_some, Option.some_inj, filterField_last]
      exact ⟨fun h => ⟨Nat.le_add_left 1 fuel, hlen, h⟩, fun h => h.2.2⟩
    · rw [if_neg hlen, Option.map_none]
      constructor
      · exact fun h => absurd h (Option.some_ne_none _).symm
      · exact fun h => absurd h.2.1 hlen

/-- **What the loop returns**, where it has the fuel and the last field is as
long as the delimiter. -/
theorem filterLoop_eq_some_iff (hdelim : 0 < delim.length) {r : CString} :
    ∀ n fuel (p : Cursor), p.start.length ≤ n →
      (filterLoop delim fieldvalue fuel p (strstr p.start delim) = some r ↔
        (fieldsUpTo delim n p.start).length ≤ fuel ∧
          delim.length ≤ ((fieldsUpTo delim n p.start).getLastD []).length ∧
            p.result ++ (written delim fieldvalue (fieldsUpTo delim n p.start)).drop
              (p.skip delim) = r) := by
  intro n
  induction n with
  | zero =>
    intro fuel p hn
    have hstart : p.start = [] := List.length_eq_zero_iff.1 (by omega)
    have hnone : strstr p.start delim = none := by
      rw [hstart, strstr, if_neg (List.ne_nil_of_length_pos hdelim)]
    rw [hnone, fieldsUpTo]
    exact filterLoop_last
  | succ n ih =>
    intro fuel p hn
    rcases h : strstr p.start delim with _ | cur
    · rw [fieldsUpTo_none h]
      exact filterLoop_last
    · obtain ⟨hstart, hcur, hle, hdle⟩ := strstr_parts h
      have hne : cur ≠ [] := List.ne_nil_of_length_pos (by omega)
      have hmore : fieldsUpTo delim n (cur.drop delim.length) ≠ [] := fieldsUpTo_ne_nil
      have htake : cur.take 1 = delim.take 1 := by
        rw [hcur, List.take_append_of_le_length (by omega)]
      have hshort : (cur.drop delim.length).length ≤ n := by
        rw [List.length_drop]
        omega
      rw [fieldsUpTo, h]
      dsimp only
      rw [getLastD_cons_of_ne_nil hmore, List.length_cons]
      rcases fuel with _ | fuel
      · rw [filterLoop]
        constructor
        · exact fun h => absurd h (Option.some_ne_none _).symm
        · exact fun h => absurd h.1 (Nat.not_succ_le_zero _)
      rw [filterLoop, if_neg hne, Nat.add_le_add_iff_right]
      by_cases hf : p.start.take (p.start.length - cur.length) = fieldvalue
      · rw [hf] at hstart
        rw [filterField_skip hstart, hf, written_eq]
        exact ih fuel { p with start := cur.drop delim.length } hshort
      · rw [filterField_keep hstart hf, htake, written_ne hf hmore]
        have hskip : p.skip delim ≤ (delim ++ p.start.take (p.start.length - cur.length) ++
            delim.take 1).length := by
          unfold Cursor.skip
          rw [List.length_append, List.length_append]
          split_ifs <;> omega
        rw [List.drop_append_of_le_length hskip, ← List.append_assoc]
        exact ih fuel { first := false, start := cur.drop delim.length, result := _ } hshort

/-! ## What is written and what is kept -/

/-- The kept fields behind a field. -/
def separated (delim fieldvalue : CString) (fs : List CString) : CString :=
  (fs.filter fun f => f ≠ fieldvalue).flatMap fun f => delim ++ f

theorem intercalate_eq_separated :
    delim.intercalate (fs.filter fun f => f ≠ fieldvalue) =
      (separated delim fieldvalue fs).drop delim.length := by
  unfold separated
  rcases fs.filter (fun f => f ≠ fieldvalue) with _ | ⟨f, ks⟩
  · rw [List.intercalate_nil, List.flatMap_nil, List.drop_nil]
  · rw [intercalate_cons, List.flatMap_cons, List.append_assoc, List.drop_left]

theorem separated_eq : separated delim fieldvalue (fieldvalue :: fs) =
    separated delim fieldvalue fs := by
  unfold separated
  rw [List.filter_cons_of_neg (by rw [decide_eq_true_iff]; exact not_not.2 rfl)]

theorem separated_ne {f : CString} (hf : f ≠ fieldvalue) :
    separated delim fieldvalue (f :: fs) = delim ++ f ++ separated delim fieldvalue fs := by
  unfold separated
  rw [List.filter_cons_of_pos (by rw [decide_eq_true_iff]; exact hf), List.flatMap_cons]

/-- Where only the last field can be kept, the two agree. -/
theorem written_eq_separated :
    ∀ {fs : List CString}, (∀ f ∈ fs.dropLast, f = fieldvalue) →
      written delim fieldvalue fs = separated delim fieldvalue fs := by
  intro fs
  induction fs with
  | nil => exact fun _ => rfl
  | cons f fs ih =>
    intro hall
    rcases fs with _ | ⟨g, fs⟩
    · by_cases hf : f = fieldvalue
      · rw [hf, written_eq, separated_eq]
        exact ih fun g hg => absurd hg List.not_mem_nil
      · rw [written_last hf, separated_ne hf]
        exact (List.append_nil _).symm
    · rw [List.dropLast_cons_of_ne_nil (List.cons_ne_nil g fs)] at hall
      rw [hall f List.mem_cons_self, written_eq, separated_eq]
      exact ih fun g hg => hall g (List.mem_cons_of_mem f hg)

variable {d0 : CChar} {ds : CString}

theorem leading_nil : leading delim [] = 0 := rfl

theorem leading_cons_self : leading (d0 :: ds) (d0 :: s) = leading (d0 :: ds) s + 1 := by
  unfold leading
  rw [List.takeWhile_cons_of_pos (by rw [decide_eq_true_iff]; exact List.head?_cons.symm),
    List.length_cons]

theorem leading_cons_ne {c : CChar} (hc : c ≠ d0) : leading (d0 :: ds) (c :: s) = 0 := by
  unfold leading
  have hne : ¬ some c = (d0 :: ds).head? := fun h => hc (Option.some.inj h)
  rw [List.takeWhile_cons_of_neg (by rw [decide_eq_true_iff]; exact hne), List.length_nil]

/-- How a string begins decides its leading characters. -/
theorem le_leading_iff : ∀ {s : CString} {n : ℕ},
    n ≤ leading (d0 :: ds) s ↔ s.take n = List.replicate n d0 := by
  intro s
  induction s with
  | nil =>
    intro n
    rw [leading_nil, List.take_nil, Nat.le_zero]
    constructor
    · rintro rfl
      exact rfl
    · exact fun h => (List.replicate_eq_nil_iff d0).1 h.symm
  | cons c s ih =>
    intro n
    rcases n with _ | n
    · exact ⟨fun _ => rfl, fun _ => Nat.zero_le _⟩
    · rw [List.take_succ_cons, List.replicate_succ, List.cons.injEq]
      by_cases hc : c = d0
      · rw [hc, leading_cons_self, Nat.add_le_add_iff_right, ih, and_iff_right rfl]
      · rw [leading_cons_ne hc]
        exact ⟨fun h => absurd h (Nat.not_succ_le_zero n), fun h => absurd h.1 hc⟩

theorem leading_append_le (h : leading (d0 :: ds) s ≤ leading (d0 :: ds) t) :
    ∀ r, leading (d0 :: ds) (r ++ s) ≤ leading (d0 :: ds) (r ++ t) := by
  intro r
  induction r with
  | nil => exact h
  | cons c r ih =>
    rw [List.cons_append, List.cons_append]
    by_cases hc : c = d0
    · rw [hc, leading_cons_self, leading_cons_self]
      exact Nat.add_le_add_right ih 1
    · rw [leading_cons_ne hc]
      exact Nat.zero_le _

/-- **What is written begins with at least as many of the delimiter's first
character.** -/
theorem leading_separated_le : ∀ fs : List CString,
    leading (d0 :: ds) (separated (d0 :: ds) fieldvalue fs) ≤
      leading (d0 :: ds) (written (d0 :: ds) fieldvalue fs) := by
  intro fs
  induction fs with
  | nil => exact Nat.le_refl _
  | cons f fs ih =>
    by_cases hf : f = fieldvalue
    · rw [hf, separated_eq, written_eq]
      exact ih
    · rcases fs with _ | ⟨g, fs⟩
      · rw [separated_ne hf, written_last hf]
        exact Nat.le_of_eq (congrArg _ (List.append_nil _))
      · rw [separated_ne hf, written_ne hf (List.cons_ne_nil g fs),
          List.append_assoc (d0 :: ds ++ f)]
        refine leading_append_le (Nat.le_trans ih ?_) _
        show _ ≤ leading (d0 :: ds) (d0 :: written (d0 :: ds) fieldvalue (g :: fs))
        rw [leading_cons_self]
        exact Nat.le_add_right _ 1

/-- **A string with more of them agrees with it as far as they go.** -/
theorem take_eq_take_iff (h : leading (d0 :: ds) s < leading (d0 :: ds) t) :
    t.take n = s.take n ↔ n ≤ leading (d0 :: ds) s := by
  constructor
  · intro heq
    by_contra hn
    have htwo : leading (d0 :: ds) s + 1 ≤ n := by omega
    have hs : s.take (leading (d0 :: ds) s + 1) = List.replicate (leading (d0 :: ds) s + 1) d0 := by
      calc s.take (leading (d0 :: ds) s + 1)
          = (s.take n).take (leading (d0 :: ds) s + 1) := by rw [List.take_take, Nat.min_eq_left htwo]
        _ = t.take (leading (d0 :: ds) s + 1) := by rw [← heq, List.take_take, Nat.min_eq_left htwo]
        _ = List.replicate (leading (d0 :: ds) s + 1) d0 := le_leading_iff.1 h
    exact absurd (le_leading_iff.2 hs) (Nat.not_succ_le_self _)
  · intro hn
    rw [le_leading_iff.1 hn, le_leading_iff.1 (Nat.le_trans hn (Nat.le_of_lt h))]

theorem take_append_left_iff (r : CString) :
    (r ++ t).take n = (r ++ s).take n ↔ t.take (n - r.length) = s.take (n - r.length) := by
  rw [List.take_append, List.take_append]
  exact iff_of_eq (List.append_cancel_left_eq _ _ _)

/-- **Where a field but the last is kept**, what is written behind the first of
them is right as long as it is the delimiter's first character. -/
theorem take_written_iff : ∀ {fs : List CString}, ¬ (∀ f ∈ fs.dropLast, f = fieldvalue) →
    (((written (d0 :: ds) fieldvalue fs).drop (d0 :: ds).length).take n =
        ((separated (d0 :: ds) fieldvalue fs).drop (d0 :: ds).length).take n ↔
      n ≤ ((fs.filter fun f => f ≠ fieldvalue).headD []).length +
        leading (d0 :: ds) (((separated (d0 :: ds) fieldvalue fs).drop (d0 :: ds).length).drop
          ((fs.filter fun f => f ≠ fieldvalue).headD []).length)) := by
  intro fs
  induction fs with
  | nil => exact fun h => absurd (fun f hf => absurd hf List.not_mem_nil) h
  | cons f fs ih =>
    intro hall
    rcases fs with _ | ⟨g, fs⟩
    · exact absurd (fun f hf => absurd hf List.not_mem_nil) hall
    · rw [List.dropLast_cons_of_ne_nil (List.cons_ne_nil g fs), List.forall_mem_cons] at hall
      by_cases hf : f = fieldvalue
      · rw [hf, written_eq, separated_eq,
          List.filter_cons_of_neg (by rw [decide_eq_true_iff]; exact not_not.2 rfl)]
        exact ih fun h => hall ⟨hf, h⟩
      · rw [written_ne hf (List.cons_ne_nil g fs), separated_ne hf,
          List.filter_cons_of_pos (by rw [decide_eq_true_iff]; exact hf), List.headD_cons,
          List.append_assoc, List.append_assoc, List.append_assoc, List.drop_left, List.drop_left,
          List.drop_left, take_append_left_iff]
        have hmore : leading (d0 :: ds) (separated (d0 :: ds) fieldvalue (g :: fs)) <
            leading (d0 :: ds) ((d0 :: ds).take 1 ++ written (d0 :: ds) fieldvalue (g :: fs)) := by
          show _ < leading (d0 :: ds) (d0 :: written (d0 :: ds) fieldvalue (g :: fs))
          rw [leading_cons_self]
          exact Nat.lt_succ_of_le (leading_separated_le _)
        rw [take_eq_take_iff hmore]
        omega

/-! ## The function -/

/-- **Exactly the filterable lists are filtered.** -/
theorem listfilters_iff (list delimiter fieldvalue : CString) (len : ℕ) :
    Listfilters list delimiter fieldvalue len ↔ Filterable list delimiter fieldvalue len := by
  have hpos := delimOf_pos delimiter
  unfold Listfilters Filterable listfilter
  dsimp only
  generalize delimOf delimiter = delim at hpos
  by_cases hin : strstr list fieldvalue = none
  · rw [kept_of_not_in hin]
    unfold fields
    rw [intercalate_fieldsUpTo]
    exact iff_of_true ⟨0, if_pos hin⟩ (Or.inl hin)
  · obtain ⟨d0, ds, rfl⟩ := List.exists_cons_of_length_pos hpos
    have hrun := fun r fuel => @filterLoop_eq_some_iff (d0 :: ds) fieldvalue hpos r
      list.length fuel ⟨true, list, []⟩ (Nat.le_refl _)
    have hagree : trisCopyString ([] ++ (written (d0 :: ds) fieldvalue
          (fields (d0 :: ds) list)).drop (d0 :: ds).length) len =
        trisCopyString ((d0 :: ds).intercalate (kept (d0 :: ds) list fieldvalue)) len ↔
          (∀ f ∈ (fields (d0 :: ds) list).dropLast, f = fieldvalue) ∨
            EndsEarly (d0 :: ds) (kept (d0 :: ds) list fieldvalue) len := by
      unfold EndsEarly kept trisCopyString
      rw [intercalate_eq_separated, List.nil_append]
      by_cases hall : ∀ f ∈ (fields (d0 :: ds) list).dropLast, f = fieldvalue
      · rw [written_eq_separated hall]
        exact iff_of_true rfl (Or.inl hall)
      · rw [or_iff_right hall]
        exact take_written_iff hall
    rw [or_iff_right hin, ← hagree]
    constructor
    · rintro ⟨fuel, h⟩
      rw [if_neg hin] at h
      obtain ⟨r, hr, heq⟩ := Option.map_eq_some_iff.1 h
      obtain ⟨-, hlast, hr⟩ := (hrun r fuel).1 hr
      exact ⟨hlast, by rw [← heq, ← hr]; exact rfl⟩
    · rintro ⟨hlast, heq⟩
      refine ⟨(fields (d0 :: ds) list).length, ?_⟩
      rw [if_neg hin, ← heq]
      exact Option.map_eq_some_iff.2 ⟨_, (hrun _ _).2 ⟨Nat.le_refl _, hlast, rfl⟩, rfl⟩

/-- A value in front of the last field. -/
theorem not_listfilters : ¬ Listfilters (str "a,b,c") (str ",") (str "b") 16 := by
  rintro ⟨fuel, h⟩
  unfold listfilter at h
  rw [if_neg (by decide +kernel)] at h
  obtain ⟨r, hr, heq⟩ := Option.map_eq_some_iff.1 h
  obtain ⟨-, -, rfl⟩ := (filterLoop_eq_some_iff (delimOf_pos _) 5 fuel ⟨true, str "a,b,c", []⟩
    (by decide)).1 hr
  revert heq
  decide +kernel

end Listfilter

end App

end Trismedia
