import Mathlib.Data.Int.Notation
import Trismedia.Common.CString
import Trismedia.Common.Stands
import Trismedia.Common.Trace
/-!
# The comments of a configuration file

`config_text_file_load` of `main/config.c` takes the comments out of a file, a
line at a time and in the buffer that the line was read into: what is behind a
`;`, and what is between `;--` and `--;`, in as many levels as there are. The
depth goes from line to line. Comments are not kept, and `process_text_line`
accepts what it is given.
-/


namespace Trismedia

namespace Config

namespace Comments

open CString

/-! ## The code -/

/-- `COMMENT_META` -/
def commentMeta : CChar := chr ';'

/-- `COMMENT_TAG` -/
def commentTag : CChar := chr '-'

def backslash : CChar := 92

def maxNestedComments : ℕ := 128

/-- The string at a place of the buffer. -/
def stringAt (buf : List CChar) (p : ℕ) : CString := (buf.drop p).takeWhile (· ≠ 0)

/-- `strchr(p, COMMENT_META)` -/
def strchrMeta (buf : List CChar) (p : ℕ) : Option ℕ :=
  let before := (buf.drop p).takeWhile fun c => c ≠ 0 ∧ c ≠ commentMeta
  if buf[p + before.length]? = some commentMeta then some (p + before.length) else none

/-- `memmove` of the string at `src` to `dst`, with its end. -/
def moveString (buf : List CChar) (dst src : ℕ) : List CChar :=
  let moved := stringAt buf src ++ [0]
  buf.take dst ++ moved ++ buf.drop (dst + moved.length)

/-- What the loop over a line works with. -/
structure Scan where
  buf : List CChar
  processBuf : Option ℕ
  newBuf : ℕ
  comment : ℤ
  nest : List ℕ

/-- The body of the loop over a line, at a mark. There is no result where it
writes outside of `nest`. -/
def atMark (lineno : ℕ) (s : Scan) (p : ℕ) : Option Scan :=
  if p > s.newBuf ∧ s.buf[p - 1]? = some backslash then some { s with newBuf := p + 1 }
  else if s.buf[p + 1]? = some commentTag ∧ s.buf[p + 2]? = some commentTag ∧
      s.buf[p + 3]? ≠ some commentTag then
    if s.comment < maxNestedComments then
      if 0 ≤ s.comment then
        some { s with
          buf := s.buf.set p 0
          newBuf := p + 3
          comment := s.comment + 1
          nest := s.nest.set s.comment.toNat lineno }
      else none
    else some s
  else if p ≥ s.newBuf + 2 ∧ s.buf[p - 1]? = some commentTag ∧
      s.buf[p - 2]? = some commentTag then
    if s.comment - 1 = 0 then
      match s.processBuf with
      | some processBuf =>
        let oldptr := processBuf + (stringAt s.buf processBuf).length
        some { s with
          buf := moveString s.buf oldptr (p + 1)
          newBuf := oldptr
          comment := s.comment - 1 }
      | none => some { s with
          processBuf := some (p + 1)
          newBuf := p + 1
          comment := s.comment - 1 }
    else some { s with newBuf := p + 1, comment := s.comment - 1 }
  else if s.comment = 0 then some { s with buf := s.buf.set p 0, newBuf := p }
  else some { s with newBuf := p + 1 }

/-- The loop over a line, if it ends in fewer than `fuel` rounds. -/
def commentLoop (lineno : ℕ) : ℕ → Scan → Option Scan
  | 0, _ => none
  | fuel + 1, s =>
    match strchrMeta s.buf s.newBuf with
    | none => some s
    | some p => (atMark lineno s p).bind (commentLoop lineno fuel)

/-- `tris_strip` -/
def trisStrip (s : CString) : CString :=
  ((s.dropWhile fun c => c.toNat < 33).reverse.dropWhile fun c => c.toNat < 33).reverse

/-- What goes from line to line, and what `process_text_line` was given. -/
structure Load where
  comment : ℤ
  nest : List ℕ
  lineno : ℕ
  passed : List CString

/-- A line as `fgets` reads it. -/
structure Line where
  text : CString
  noNul : (0 : CChar) ∉ text
  short : text.length < 8192

/-- What is given to `process_text_line` of a string. -/
def passed (s : CString) : List CString := if trisStrip s = [] then [] else [trisStrip s]

/-- A round of the loop over the file. -/
def loadLine (fuel : ℕ) (s : Load) (line : Line) : Option Load := do
  let r ← commentLoop (s.lineno + 1) fuel
    ⟨line.text ++ [0], if s.comment ≠ 0 then none else some 0, 0, s.comment, s.nest⟩
  let given := match r.processBuf with
    | some processBuf => passed (stringAt r.buf processBuf)
    | none => []
  return ⟨r.comment, r.nest, s.lineno + 1, s.passed ++ given⟩

/-- The start of a file; what is in `nest` does not matter. -/
def Load.init : Load := ⟨0, List.replicate maxNestedComments 0, 0, []⟩

def Step (s : Load) (line : Line) (t : Load) : Prop := ∃ fuel, loadLine fuel s line = some t

/-! ## What is text -/

/-- What opens a comment behind a `;`: two dashes and not a third. -/
def opening : CString → Option CString
  | a :: b :: rest =>
    if a = commentTag ∧ b = commentTag ∧ rest.head? ≠ some commentTag then some rest else none
  | _ => none

theorem opening_length {s rest : CString} (h : opening s = some rest) : rest.length < s.length := by
  unfold opening at h
  split at h
  · split_ifs at h
    obtain rfl := Option.some.inj h
    simp only [List.length_cons]
    omega
  · cases h

/-- What stands before a `;` closes a comment. -/
def Closing (back : CString) : Prop :=
  back[0]? = some commentTag ∧ back[1]? = some commentTag

instance (back : CString) : Decidable (Closing back) := inferInstanceAs (Decidable (_ ∧ _))

/-- **The text outside of comments**, from a depth, and the depth behind it.
`back` is what was passed since the last mark, the nearest first. -/
def visible (d : ℕ) (back : CString) : CString → CString × ℕ
  | [] => ([], d)
  | c :: s =>
    if c ≠ commentMeta ∨ back.head? = some backslash then
      let r := visible d (if c = commentMeta then [] else c :: back) s
      (if d = 0 then c :: r.1 else r.1, r.2)
    else
      match h : opening s with
      | some rest => visible (d + 1) [] rest
      | none =>
        if d = 0 then ([], 0)
        else if Closing back then visible (d - 1) [] s
        else visible d [] s
termination_by s => s.length
decreasing_by
  all_goals simp only [List.length_cons]
  · omega
  · have hlt := opening_length h
    omega
  · omega
  · omega

/-- **The marks fit**: no comment is opened in the deepest one, and none is
closed outside of them. -/
def Fits (d : ℕ) (back : CString) : CString → Prop
  | [] => True
  | c :: s =>
    if c ≠ commentMeta ∨ back.head? = some backslash then
      Fits d (if c = commentMeta then [] else c :: back) s
    else
      match h : opening s with
      | some rest => d < maxNestedComments ∧ Fits (d + 1) [] rest
      | none =>
        if Closing back then d ≠ 0 ∧ Fits (d - 1) [] s
        else if d = 0 then True
        else Fits d [] s
termination_by s => s.length
decreasing_by
  all_goals simp only [List.length_cons]
  · omega
  · have hlt := opening_length h
    omega
  · omega
  · omega

/-- The same of the lines of a file. -/
def FileFits : ℕ → List Line → Prop
  | _, [] => True
  | d, line :: file => Fits d [] line.text ∧ FileFits (visible d [] line.text).2 file

/-- **A line is read right**: the depth is between the bounds and that of the
text, and what is passed on is what is outside of comments. -/
def Right (s : Load) (line : Line) (t : Load) : Prop :=
  ∃ d : ℕ, s.comment = d ∧ d ≤ maxNestedComments ∧
    t.comment = (visible d [] line.text).2 ∧ (visible d [] line.text).2 ≤ maxNestedComments ∧
      t.passed = s.passed ++ passed (visible d [] line.text).1

/-! ## The text up to a mark -/

section Text

variable {d n p : ℕ} {back pre rest s : CString} {buf : List CChar}

theorem visible_nil : visible d back [] = ([], d) := by rw [visible]

/-- What is no mark is text, or is not. -/
theorem visible_append (hpre : commentMeta ∉ pre) :
    visible d back (pre ++ s) =
      ((if d = 0 then pre ++ (visible d (pre.reverse ++ back) s).1
        else (visible d (pre.reverse ++ back) s).1),
        (visible d (pre.reverse ++ back) s).2) := by
  induction pre generalizing back with
  | nil =>
    rw [List.nil_append, List.reverse_nil, List.nil_append, List.nil_append]
    split_ifs <;> rfl
  | cons c pre ih =>
    rw [List.mem_cons, not_or] at hpre
    have hc : c ≠ commentMeta := Ne.symm hpre.1
    rw [List.cons_append, visible, if_pos (Or.inl hc), if_neg hc, ih hpre.2, List.reverse_cons,
      List.append_assoc]
    split_ifs <;> rfl

theorem fits_append (hpre : commentMeta ∉ pre) :
    Fits d back (pre ++ s) ↔ Fits d (pre.reverse ++ back) s := by
  induction pre generalizing back with
  | nil => rfl
  | cons c pre ih =>
    rw [List.mem_cons, not_or] at hpre
    have hc : c ≠ commentMeta := Ne.symm hpre.1
    rw [List.cons_append, Fits, if_pos (Or.inl hc), if_neg hc, ih hpre.2, List.reverse_cons,
      List.append_assoc]
    rfl

/-- A text without marks. -/
theorem visible_text (hs : commentMeta ∉ s) :
    visible d back s = (if d = 0 then s else [], d) := by
  have happ : visible d back (s ++ []) = _ := visible_append hs
  rwa [List.append_nil, visible_nil, List.append_nil] at happ

theorem fits_text (hs : commentMeta ∉ s) : Fits d back s := by
  have happ : Fits d back (s ++ []) ↔ _ := fits_append hs
  rw [List.append_nil] at happ
  rw [happ, Fits]
  trivial

/-- **A mark**, of one of the five kinds. -/
inductive Mark (d : ℕ) (back s : CString) : CString × ℕ → Prop → Prop
  | escaped : back.head? = some backslash →
      Mark d back s (if d = 0 then commentMeta :: (visible d [] s).1 else (visible d [] s).1,
        (visible d [] s).2) (Fits d [] s)
  | opens {rest : CString} : back.head? ≠ some backslash → opening s = some rest →
      Mark d back s (visible (d + 1) [] rest) (d < maxNestedComments ∧ Fits (d + 1) [] rest)
  | closes : back.head? ≠ some backslash → opening s = none → Closing back → d ≠ 0 →
      Mark d back s (visible (d - 1) [] s) (Fits (d - 1) [] s)
  | stray : back.head? ≠ some backslash → opening s = none → Closing back → d = 0 →
      Mark d back s ([], 0) False
  | line : back.head? ≠ some backslash → opening s = none → ¬Closing back → d = 0 →
      Mark d back s ([], 0) True
  | inside : back.head? ≠ some backslash → opening s = none → ¬Closing back → d ≠ 0 →
      Mark d back s (visible d [] s) (Fits d [] s)

theorem mark (d : ℕ) (back s : CString) :
    Mark d back s (visible d back (commentMeta :: s)) (Fits d back (commentMeta :: s)) := by
  rw [visible, Fits]
  by_cases hb : back.head? = some backslash
  · rw [if_pos (Or.inr hb), if_pos (Or.inr hb), if_pos rfl]
    exact .escaped hb
  · have hn : ¬(commentMeta ≠ commentMeta ∨ back.head? = some backslash) := by
      rintro (h | h)
      · exact h rfl
      · exact hb h
    rw [if_neg hn, if_neg hn]
    split
    · rename_i rest ho
      exact .opens hb ho
    · rename_i ho
      by_cases hc : Closing back <;> by_cases hd : d = 0
      · rw [if_pos hd, if_pos hc]
        have hfalse : (d ≠ 0 ∧ Fits (d - 1) [] s) = False := by simp [hd]
        rw [hfalse]
        exact .stray hb ho hc hd
      · rw [if_neg hd, if_pos hc, if_pos hc]
        have hand : (d ≠ 0 ∧ Fits (d - 1) [] s) = Fits (d - 1) [] s := by simp [hd]
        rw [hand]
        exact .closes hb ho hc hd
      · rw [if_pos hd, if_neg hc, if_pos hd]
        exact .line hb ho hc hd
      · rw [if_neg hd, if_neg hc, if_neg hc, if_neg hd]
        exact .inside hb ho hc hd

/-! ## The buffer -/

/-- A byte of what stands in the buffer. -/
theorem stands_getElem? {data : List CChar} {i k : ℕ} (h : Stands buf i data)
    (hk : k < data.length) : buf[i + k]? = data[k]? := by
  obtain ⟨post, hpost⟩ := h
  rw [← List.getElem?_drop, ← hpost, List.getElem?_append_left hk]

/-- The string that stands at a place. -/
theorem stringAt_of_stands (h : Stands buf p (s ++ [0])) (hs : (0 : CChar) ∉ s) :
    stringAt buf p = s := by
  obtain ⟨post, hpost⟩ := h
  rw [stringAt, ← hpost, List.append_assoc]
  have hall : ∀ c ∈ s, (fun c : CChar => decide (c ≠ 0)) c = true := by
    intro c hc
    simp only [decide_eq_true_eq]
    rintro rfl
    exact hs hc
  rw [List.takeWhile_append_of_pos hall]
  simp

/-- What stands before the first mark, or the end. -/
theorem takeWhile_before {c : CChar} (h : Stands buf p (pre ++ c :: s)) (h0 : (0 : CChar) ∉ pre)
    (hpre : commentMeta ∉ pre) (hc : c = 0 ∨ c = commentMeta) :
    (buf.drop p).takeWhile (fun c => c ≠ 0 ∧ c ≠ commentMeta) = pre := by
  obtain ⟨post, hpost⟩ := h
  have hall : ∀ x ∈ pre, decide (x ≠ 0 ∧ x ≠ commentMeta) = true := by
    intro x hx
    rw [decide_eq_true_eq]
    exact ⟨fun h => h0 (h ▸ hx), fun h => hpre (h ▸ hx)⟩
  rw [← hpost, List.append_assoc, List.takeWhile_append_of_pos hall, List.cons_append,
    List.takeWhile_cons_of_neg, List.append_nil]
  rw [decide_eq_true_eq]
  rintro ⟨hz, hm⟩
  rcases hc with rfl | rfl
  · exact hz rfl
  · exact hm rfl

theorem strchrMeta_none (h : Stands buf p (s ++ [0])) (h0 : (0 : CChar) ∉ s)
    (hs : commentMeta ∉ s) : strchrMeta buf p = none := by
  rw [strchrMeta, takeWhile_before h h0 hs (Or.inl rfl), h.right.head, if_neg (by decide)]

theorem strchrMeta_some (h : Stands buf p (pre ++ commentMeta :: s)) (h0 : (0 : CChar) ∉ pre)
    (hpre : commentMeta ∉ pre) : strchrMeta buf p = some (p + pre.length) := by
  rw [strchrMeta, takeWhile_before h h0 hpre (Or.inr rfl), h.right.head, if_pos rfl]

/-- What stands some places before the mark, and not before the start. -/
theorem getElem?_before {k : ℕ} (h : Stands buf p (pre ++ commentMeta :: s))
    (hk : k < pre.length) : buf[p + pre.length - (k + 1)]? = pre.reverse[k]? := by
  have hplace : p + pre.length - (k + 1) = p + (pre.length - 1 - k) := by omega
  rw [hplace, stands_getElem? h (by simp; omega), List.getElem?_append_left (by omega),
    List.getElem?_reverse hk]

/-- What stands behind the mark. -/
theorem getElem?_behind {k : ℕ} (h : Stands buf p (pre ++ commentMeta :: s)) (hk : k < s.length) :
    buf[p + pre.length + (k + 1)]? = s[k]? := by
  rw [Nat.add_assoc, stands_getElem? h (by simp; omega),
    List.getElem?_append_right (by omega)]
  simp

theorem escaped_iff (h : Stands buf p (pre ++ commentMeta :: s)) :
    (p + pre.length > p ∧ buf[p + pre.length - 1]? = some backslash) ↔
      pre.reverse.head? = some backslash := by
  by_cases hk : 0 < pre.length
  · rw [getElem?_before h hk, List.head?_eq_getElem?]
    exact and_iff_right (by omega)
  · obtain rfl : pre = [] := List.length_eq_zero_iff.1 (by omega)
    exact iff_of_false (fun h => by simp at h) (by simp)

theorem closing_iff (h : Stands buf p (pre ++ commentMeta :: s)) :
    (p + pre.length ≥ p + 2 ∧ buf[p + pre.length - 1]? = some commentTag ∧
      buf[p + pre.length - 2]? = some commentTag) ↔ Closing pre.reverse := by
  unfold Closing
  by_cases hk : 1 < pre.length
  · rw [getElem?_before h hk, getElem?_before (k := 0) h (by omega)]
    exact and_iff_right (by omega)
  · have hnone : pre.reverse[1]? = none := by
      rw [List.getElem?_eq_none_iff, List.length_reverse]
      omega
    rw [hnone]
    exact iff_of_false (fun h => by omega) (fun h => by cases h.2)

theorem opening_iff (h : Stands buf p (pre ++ commentMeta :: (s ++ [0]))) :
    (buf[p + pre.length + 1]? = some commentTag ∧ buf[p + pre.length + 2]? = some commentTag ∧
      buf[p + pre.length + 3]? ≠ some commentTag) ↔ (opening s).isSome = true := by
  have hz : 0#8 ≠ commentTag := by decide
  have h1 := getElem?_behind (k := 0) h (by simp)
  cases s with
  | nil => simp [h1, hz, opening]
  | cons a s =>
    have h2 := getElem?_behind (k := 1) h (by simp)
    cases s with
    | nil => simp [h1, h2, hz, opening]
    | cons b s =>
      have h3 := getElem?_behind (k := 2) h (by simp)
      rw [h1, h2, h3, opening]
      cases s with
      | nil => by_cases ha : a = commentTag <;> by_cases hb : b = commentTag <;> simp [ha, hb, hz]
      | cons c s =>
        by_cases ha : a = commentTag <;> by_cases hb : b = commentTag <;>
          by_cases hc : c = commentTag <;> simp [ha, hb, hc]

end Text

/-! ## What the writes leave -/

section Writes

variable {buf data a b : List CChar} {i k p : ℕ} {s : CString} {v : CChar}

theorem stands_iff : Stands buf i data ↔ ∀ k, k < data.length → buf[i + k]? = data[k]? := by
  constructor
  · intro h k hk
    exact stands_getElem? h hk
  · intro h
    unfold Stands
    rw [List.prefix_iff_getElem?]
    intro k hk
    rw [List.getElem?_drop, h k hk, List.getElem?_eq_getElem hk]

theorem stands_join (ha : Stands buf i a) (hb : Stands buf (i + a.length) b) :
    Stands buf i (a ++ b) := by
  rw [stands_iff] at ha hb ⊢
  intro k hk
  rw [List.length_append] at hk
  by_cases hlt : k < a.length
  · rw [ha k hlt, List.getElem?_append_left hlt]
  · have hplace : i + k = i + a.length + (k - a.length) := by omega
    rw [hplace, hb (k - a.length) (by omega), List.getElem?_append_right (by omega)]

/-- A byte written elsewhere. -/
theorem stands_set (h : Stands buf i data) (hk : k < i ∨ i + data.length ≤ k) :
    Stands (buf.set k v) i data := by
  rw [stands_iff] at h ⊢
  intro j hj
  rw [List.getElem?_set_ne (by omega)]
  exact h j hj

/-- A byte written over the one behind. -/
theorem stands_set_end {x : CChar} {post : List CChar} (h : Stands buf i (a ++ x :: post)) :
    Stands (buf.set (i + a.length) v) i (a ++ [v]) := by
  refine stands_join (stands_set h.left (Or.inr (Nat.le_refl _))) ?_
  have hlt := (List.getElem?_eq_some_iff.1 h.right.head).1
  rw [stands_iff]
  intro j hj
  obtain rfl : j = 0 := by simpa using hj
  rw [Nat.add_zero, List.getElem?_set_self hlt]
  rfl

/-- What is moved stands at its place, and what is before that is left. -/
theorem stands_moveString (h : Stands buf p (s ++ [0])) (hs : (0 : CChar) ∉ s)
    (hk : k ≤ buf.length) : Stands (moveString buf k p) k (s ++ [0]) := by
  have hlen : (buf.take k).length = k := by rw [List.length_take]; omega
  unfold moveString
  rw [stringAt_of_stands h hs]
  have hmid : Stands (buf.take k ++ (s ++ [0]) ++ buf.drop (k + (s ++ [0]).length))
      (buf.take k).length (s ++ [0]) := Stands.mid
  rwa [hlen] at hmid

theorem stands_moveString_before (h : Stands buf i data) (hk : i + data.length ≤ k)
    (hlen : k ≤ buf.length) : Stands (moveString buf k p) i data := by
  rw [stands_iff] at h ⊢
  intro j hj
  unfold moveString
  rw [List.append_assoc, List.getElem?_append_left (by rw [List.length_take]; omega),
    List.getElem?_take_of_lt (by omega)]
  exact h j hj

end Writes

/-! ## The loop over a line -/

/-- **A line in progress**: its depth, the text found so far, and what is
still to be looked at. The text stands at `process_buf`: in the text, what is
left follows it, and in a comment it is ended. -/
structure InLine (d : ℕ) (out rest : CString) (s : Scan) : Prop where
  comment : s.comment = d
  nest : s.nest.length = maxNestedComments
  ahead : Stands s.buf s.newBuf (rest ++ [0])
  restNul : (0 : CChar) ∉ rest
  outNul : (0 : CChar) ∉ out
  text : match s.processBuf with
    | some pb =>
      if d = 0 then Stands s.buf pb out ∧ s.newBuf = pb + out.length
      else Stands s.buf pb (out ++ [0]) ∧ pb + out.length < s.newBuf
    | none => d ≠ 0 ∧ out = []

section Loop

variable {d lineno fuel : ℕ} {out rest pre after : CString} {s t : Scan}

/-- What is given on when the line ends. -/
def Scan.given (s : Scan) : List CString :=
  match s.processBuf with
  | some processBuf => passed (stringAt s.buf processBuf)
  | none => []

/-- **At the end of a line** the text is given on. -/
theorem InLine.given (h : InLine d out rest s) :
    s.given = passed (if d = 0 then out ++ rest else out) := by
  have htext := h.text
  unfold Scan.given
  cases hpb : s.processBuf with
  | none =>
    rw [hpb] at htext
    rw [if_neg htext.1, htext.2]
    rfl
  | some pb =>
    rw [hpb] at htext
    simp only at htext ⊢
    by_cases hd : d = 0
    · rw [if_pos hd] at htext ⊢
      have hstands : Stands s.buf pb (out ++ rest ++ [0]) := by
        rw [List.append_assoc]
        exact stands_join htext.1 (htext.2 ▸ h.ahead)
      rw [stringAt_of_stands hstands]
      rw [List.mem_append, not_or]
      exact ⟨h.outNul, h.restNul⟩
    · rw [if_neg hd] at htext ⊢
      rw [stringAt_of_stands htext.1 h.outNul]

/-- What a mark leaves of the text ahead. -/
theorem InLine.split (h : InLine d out (pre ++ commentMeta :: after) s) :
    Stands s.buf s.newBuf (pre ++ commentMeta :: (after ++ [0])) ∧
      Stands s.buf (s.newBuf + pre.length + 1) (after ++ [0]) ∧
        (0 : CChar) ∉ pre ∧ (0 : CChar) ∉ after := by
  have hahead : Stands s.buf s.newBuf (pre ++ commentMeta :: (after ++ [0])) := by
    have hh := h.ahead
    rwa [List.append_assoc] at hh
  have h0 := h.restNul
  rw [List.mem_append, List.mem_cons, not_or, not_or] at h0
  exact ⟨hahead, hahead.right.tail, h0.1, h0.2.2⟩

/-- **Past a mark** that is text, or is in a comment. -/
theorem InLine.pass (h : InLine d out (pre ++ commentMeta :: after) s) :
    InLine d (if d = 0 then out ++ (pre ++ [commentMeta]) else out) after
      { s with newBuf := s.newBuf + pre.length + 1 } := by
  obtain ⟨hahead, hafter, h0, h0'⟩ := h.split
  refine ⟨h.comment, h.nest, hafter, h0', ?_, ?_⟩
  · split_ifs
    · refine fun hm => (List.mem_append.1 hm).elim h.outNul fun hm => ?_
      exact (List.mem_append.1 hm).elim h0 (by decide)
    · exact h.outNul
  · have htext := h.text
    obtain ⟨buf, processBuf, newBuf, comment, nest⟩ := s
    cases processBuf with
    | none =>
      rw [if_neg htext.1]
      exact htext
    | some pb =>
      dsimp only at htext ⊢
      split_ifs at htext ⊢ with hd
      · refine ⟨stands_join htext.1 ?_, ?_⟩
        · rw [← htext.2]
          have hcons : pre ++ commentMeta :: (after ++ [0]) =
              pre ++ [commentMeta] ++ (after ++ [0]) := by simp
          rw [hcons] at hahead
          exact hahead.left
        · rw [htext.2]
          simp only [List.length_append, List.length_singleton]
          omega
      · exact ⟨htext.1, by omega⟩

/-- **A comment is opened**: the text is ended before it. -/
theorem InLine.opens {rest : CString} (h : InLine d out (pre ++ commentMeta :: after) s)
    (ho : opening after = some rest) (nest : List ℕ) (hnest : nest.length = maxNestedComments) :
    InLine (d + 1) (if d = 0 then out ++ pre else out) rest
      { s with
        buf := s.buf.set (s.newBuf + pre.length) 0
        newBuf := s.newBuf + pre.length + 3
        comment := s.comment + 1
        nest := nest } := by
  obtain ⟨hahead, hafter, h0, h0'⟩ := h.split
  obtain ⟨buf, processBuf, newBuf, comment, nest'⟩ := s
  dsimp only at hahead hafter ⊢
  obtain ⟨a, b, rfl⟩ : ∃ a b, after = a :: b :: rest := by
    unfold opening at ho
    split at ho
    · split_ifs at ho
      obtain rfl := Option.some.inj ho
      exact ⟨_, _, rfl⟩
    · cases ho
  rw [List.mem_cons, List.mem_cons, not_or, not_or] at h0'
  refine ⟨congrArg (· + 1) h.comment, hnest, ?_, h0'.2.2, ?_, ?_⟩
  · exact stands_set hafter.tail.tail (Or.inl (by dsimp only; omega))
  · split_ifs
    · exact fun hm => (List.mem_append.1 hm).elim h.outNul h0
    · exact h.outNul
  · have htext := h.text
    cases processBuf with
    | none =>
      rw [if_neg htext.1]
      exact ⟨Nat.succ_ne_zero d, htext.2⟩
    | some pb =>
      dsimp only at htext ⊢
      rw [if_neg (Nat.succ_ne_zero d)]
      split_ifs at htext ⊢ with hd
      · have hall : Stands buf pb (out ++ pre ++ commentMeta :: (a :: b :: rest ++ [0])) := by
          rw [List.append_assoc]
          exact stands_join htext.1 (htext.2 ▸ hahead)
        have hplace : newBuf + pre.length = pb + (out ++ pre).length := by
          rw [htext.2, List.length_append]
          omega
        rw [hplace]
        exact ⟨stands_set_end hall, by omega⟩
      · refine ⟨stands_set htext.1 (Or.inr ?_), by omega⟩
        rw [List.length_append, List.length_singleton]
        omega

/-- **A comment is closed** within another. -/
theorem InLine.closes (h : InLine (d + 2) out (pre ++ commentMeta :: after) s) :
    InLine (d + 1) out after
      { s with newBuf := s.newBuf + pre.length + 1, comment := s.comment - 1 } := by
  have hpass := h.pass
  rw [if_neg (by omega)] at hpass
  refine ⟨by rw [h.comment]; push_cast; omega, hpass.nest, hpass.ahead, hpass.restNul,
    hpass.outNul, ?_⟩
  have htext := hpass.text
  obtain ⟨buf, processBuf, newBuf, comment, nest⟩ := s
  cases processBuf with
  | none => exact ⟨Nat.succ_ne_zero d, htext.2⟩
  | some pb =>
    dsimp only at htext ⊢
    rw [if_neg (by omega)] at htext ⊢
    exact htext

/-- **The outermost comment is closed** on a line with text before it: what is
left is moved behind that. -/
theorem InLine.back {pb : ℕ} (h : InLine 1 out (pre ++ commentMeta :: after) s)
    (hpb : s.processBuf = some pb) :
    InLine 0 out after
      { s with
        buf := moveString s.buf (pb + (stringAt s.buf pb).length) (s.newBuf + pre.length + 1)
        newBuf := pb + (stringAt s.buf pb).length
        comment := s.comment - 1 } := by
  obtain ⟨hahead, hafter, h0, h0'⟩ := h.split
  have htext := h.text
  rw [hpb] at htext
  simp only [Nat.one_ne_zero, if_false] at htext
  have hstr : stringAt s.buf pb = out := stringAt_of_stands htext.1 h.outNul
  have hlt := (List.getElem?_eq_some_iff.1 htext.1.right.head).1
  rw [hstr]
  refine ⟨by rw [h.comment]; rfl, h.nest, ?_, h0', h.outNul, ?_⟩
  · exact stands_moveString hafter h0' (Nat.le_of_lt hlt)
  · dsimp only
    rw [hpb]
    dsimp only
    rw [if_pos rfl]
    exact ⟨stands_moveString_before htext.1.left (Nat.le_refl _) (Nat.le_of_lt hlt), rfl⟩

/-- The same on a line that began in the comment. -/
theorem InLine.first (h : InLine 1 out (pre ++ commentMeta :: after) s)
    (hpb : s.processBuf = none) :
    InLine 0 out after
      { s with
        processBuf := some (s.newBuf + pre.length + 1)
        newBuf := s.newBuf + pre.length + 1
        comment := s.comment - 1 } := by
  obtain ⟨hahead, hafter, h0, h0'⟩ := h.split
  have htext := h.text
  rw [hpb] at htext
  refine ⟨by rw [h.comment]; rfl, h.nest, hafter, h0', h.outNul, ?_⟩
  show if 0 = 0 then _ else _
  rw [if_pos rfl, htext.2]
  exact ⟨Stands.nil, rfl⟩

/-- **The rest of the line is a comment**: it is cut off. -/
theorem InLine.cut (h : InLine 0 out (pre ++ commentMeta :: after) s) :
    InLine 0 (out ++ pre) []
      { s with buf := s.buf.set (s.newBuf + pre.length) 0, newBuf := s.newBuf + pre.length } := by
  obtain ⟨hahead, hafter, h0, h0'⟩ := h.split
  obtain ⟨buf, processBuf, newBuf, comment, nest⟩ := s
  dsimp only at hahead ⊢
  refine ⟨h.comment, h.nest, ?_, List.not_mem_nil, ?_, ?_⟩
  · exact (stands_set_end hahead).right
  · exact fun hm => (List.mem_append.1 hm).elim h.outNul h0
  · have htext := h.text
    cases processBuf with
    | none => exact absurd rfl htext.1
    | some pb =>
      dsimp only at htext ⊢
      rw [if_pos rfl] at htext ⊢
      refine ⟨stands_join (stands_set htext.1 (Or.inr (by omega))) ?_, ?_⟩
      · rw [← htext.2]
        exact (stands_set_end hahead).left
      · rw [htext.2, List.length_append]
        omega

/-! ### A round, by its mark -/

/-- The round at the first mark. -/
theorem commentLoop_mark (lineno n : ℕ) (h : InLine d out (pre ++ commentMeta :: after) s)
    (hpre : commentMeta ∉ pre) : commentLoop lineno (n + 1) s =
      (atMark lineno s (s.newBuf + pre.length)).bind (commentLoop lineno n) := by
  obtain ⟨hahead, -, h0, -⟩ := h.split
  rw [commentLoop, strchrMeta_some hahead h0 hpre]

/-- **A depth below zero** stays there: to open a comment from there writes
in front of `nest`. -/
theorem commentLoop_negative (hneg : s.comment < 0) (h : commentLoop lineno fuel s = some t) :
    t.comment < 0 := by
  induction fuel generalizing s with
  | zero => cases h
  | succ fuel ih =>
    rw [commentLoop] at h
    split at h
    · obtain rfl := Option.some.inj h
      exact hneg
    · obtain ⟨u, hu, hrest⟩ := Option.bind_eq_some_iff.1 h
      refine ih ?_ hrest
      unfold atMark at hu
      split_ifs at hu with h1 h2 h3 h4 h5 h6 h7
      all_goals first | omega | skip
      all_goals
        obtain rfl := Option.some.inj hu
        dsimp only
        omega

/-- More rounds change nothing. -/
theorem commentLoop_mono {fuel' : ℕ} (h : commentLoop lineno fuel s = some t)
    (hle : fuel ≤ fuel') : commentLoop lineno fuel' s = some t := by
  induction fuel generalizing fuel' s with
  | zero => cases h
  | succ n ih =>
    obtain ⟨m, rfl⟩ : ∃ m, fuel' = m + 1 := ⟨fuel' - 1, by omega⟩
    rw [commentLoop] at h ⊢
    split at h
    · exact h
    · obtain ⟨u, hu, hrest⟩ := Option.bind_eq_some_iff.1 h
      rw [hu]
      exact ih hrest (by omega)

/-! ### The whole line -/

/-- How the loop ends: with a text and a depth if the marks fit, and else with
a depth below zero if it ends. -/
structure Ends (lineno : ℕ) (s : Scan) (fits : Prop) (text : CString) (d : ℕ) : Prop where
  right : fits → ∃ fuel t, commentLoop lineno fuel s = some t ∧ t.comment = d ∧
    d ≤ maxNestedComments ∧ t.given = passed text ∧ t.nest.length = maxNestedComments
  wrong : ¬fits → ∀ fuel t, commentLoop lineno fuel s = some t → t.comment < 0

/-- A round on the way. -/
theorem Ends.step {fits : Prop} {text : CString} {s' : Scan} {p : ℕ}
    (hround : ∀ n, commentLoop lineno (n + 1) s =
      (atMark lineno s p).bind (commentLoop lineno n))
    (hmark : atMark lineno s p = some s') (he : Ends lineno s' fits text d) :
    Ends lineno s fits text d := by
  have h : ∀ n, commentLoop lineno (n + 1) s = commentLoop lineno n s' := by
    intro n
    rw [hround, hmark, Option.bind_some]
  constructor
  · intro hf
    obtain ⟨fuel, t, ht, hrest⟩ := he.right hf
    exact ⟨fuel + 1, t, (h fuel).trans ht, hrest⟩
  · intro hf fuel t ht
    cases fuel with
    | zero => cases ht
    | succ n => exact he.wrong hf n t ((h n).symm.trans ht)

theorem notMem_of_strchr_none {c : CChar} {s : CString} (h : strchr c s = none) : c ∉ s := by
  induction s with
  | nil => exact List.not_mem_nil
  | cons x s ih =>
    rw [strchr] at h
    split_ifs at h with hx
    rw [Option.map_eq_none_iff] at h
    rw [List.mem_cons, not_or]
    exact ⟨Ne.symm hx, ih h⟩

/-- **The loop over a line** that is in progress. -/
theorem InLine.ends (h : InLine d out rest s) (hd : d ≤ maxNestedComments) (lineno : ℕ) :
    Ends lineno s (Fits d [] rest) (out ++ (visible d [] rest).1) (visible d [] rest).2 := by
  induction hn : rest.length using Nat.strongRecOn generalizing d out rest s with
  | _ n ih =>
    subst hn
    cases hchr : strchr commentMeta rest with
    | none =>
      have hmeta := notMem_of_strchr_none hchr
      have hvis : visible d [] rest = (if d = 0 then rest else [], d) := visible_text hmeta
      have hfits : Fits d [] rest := fits_text hmeta
      have hend : commentLoop lineno 1 s = some s := by
        rw [commentLoop, strchrMeta_none h.ahead h.restNul hmeta]
      rw [hvis]
      refine ⟨fun _ => ⟨1, s, hend, h.comment, hd, ?_, h.nest⟩, fun hnot => absurd hfits hnot⟩
      rw [h.given]
      split_ifs
      · rfl
      · rw [List.append_nil]
    | some r =>
      obtain ⟨pre, after⟩ := r
      obtain ⟨rfl, hpre⟩ := strchr_eq hchr
      rw [visible_append hpre, fits_append hpre, List.append_nil]
      have hround := fun n => commentLoop_mark lineno n h hpre
      have hcomment := h.comment
      obtain ⟨hahead, -⟩ := h.split
      have hescaped := escaped_iff hahead
      have hopening := opening_iff hahead
      have hplain := fun ho : opening after = none => mt hopening.1 (by rw [ho]; simp)
      have hclosing := closing_iff hahead
      have hafter : after.length < (pre ++ commentMeta :: after).length := by
        rw [List.length_append, List.length_cons]
        omega
      generalize hv : visible d pre.reverse (commentMeta :: after) = v
      generalize hf : Fits d pre.reverse (commentMeta :: after) = fits
      have hmark := mark d pre.reverse after
      rw [hv, hf] at hmark
      cases hmark with
      | escaped hb =>
        have hrest := ih _ hafter h.pass hd rfl
        refine Ends.step hround (if_pos (hescaped.2 hb)) ?_
        split_ifs at hrest ⊢
        · simpa using hrest
        · exact hrest
      | @opens rest hb ho =>
        have hlen := opening_length ho
        have hsome := hopening.2 (by rw [ho]; rfl)
        have hnot := mt hescaped.1 hb
        by_cases hmax : d < maxNestedComments
        · have hrest := ih _ (by omega) (h.opens ho (s.nest.set s.comment.toNat lineno)
            (by rw [List.length_set]; exact h.nest)) (show d + 1 ≤ maxNestedComments by omega) rfl
          have heq : (d < maxNestedComments ∧ Fits (d + 1) [] rest) = Fits (d + 1) [] rest := by
            simp [hmax]
          rw [heq]
          refine Ends.step hround ((if_neg hnot).trans ((if_pos hsome).trans
            ((if_pos (by omega)).trans (if_pos (by omega))))) ?_
          split_ifs at hrest ⊢
          · simpa using hrest
          · exact hrest
        · -- the loop stays at this mark
          have hstay : atMark lineno s (s.newBuf + pre.length) = some s :=
            (if_neg hnot).trans ((if_pos hsome).trans (if_neg (by omega)))
          have hstuck : ∀ fuel, commentLoop lineno fuel s = none := by
            intro fuel
            induction fuel with
            | zero => rfl
            | succ n ihn => rw [hround, hstay, Option.bind_some, ihn]
          refine ⟨fun hf => absurd hf.1 hmax, fun _ fuel t ht => ?_⟩
          rw [hstuck] at ht
          cases ht
      | closes hb ho hc hd0 =>
        have hnot := mt hescaped.1 hb
        rw [if_neg hd0]
        obtain ⟨d, rfl⟩ : ∃ k, d = k + 1 := ⟨d - 1, by omega⟩
        cases d with
        | zero =>
          cases hpb : s.processBuf with
          | some pb =>
            refine Ends.step hround ?_ (ih _ hafter (h.back hpb) (Nat.zero_le _) rfl)
            rw [atMark, if_neg hnot, if_neg (hplain ho), if_pos (hclosing.2 hc), if_pos (by omega), hpb]
          | none =>
            refine Ends.step hround ?_ (ih _ hafter (h.first hpb) (Nat.zero_le _) rfl)
            rw [atMark, if_neg hnot, if_neg (hplain ho), if_pos (hclosing.2 hc), if_pos (by omega), hpb]
        | succ d =>
          refine Ends.step hround ?_ (ih _ hafter h.closes (by omega) rfl)
          rw [atMark, if_neg hnot, if_neg (hplain ho), if_pos (hclosing.2 hc), if_neg (by omega)]
      | stray hb ho hc hd0 =>
        -- a comment is closed that was not opened
        refine ⟨fun hf => hf.elim, fun _ fuel t ht => ?_⟩
        cases fuel with
        | zero => cases ht
        | succ n =>
          rw [hround n, atMark, if_neg (mt hescaped.1 hb), if_neg (hplain ho), if_pos (hclosing.2 hc),
            if_neg (by omega), Option.bind_some] at ht
          refine commentLoop_negative ?_ ht
          dsimp only
          omega
      | line hb ho hc hd0 =>
        obtain rfl := hd0
        have hrest := ih _ (by rw [List.length_nil]; omega) h.cut (Nat.zero_le _) rfl
        rw [visible_nil, List.append_nil, Fits] at hrest
        rw [if_pos rfl, List.append_nil]
        refine Ends.step hround ?_ hrest
        rw [atMark, if_neg (mt hescaped.1 hb), if_neg (hplain ho), if_neg (mt hclosing.1 hc),
          if_pos (by omega)]
      | inside hb ho hc hd0 =>
        have hrest := ih _ hafter h.pass hd rfl
        rw [if_neg hd0] at hrest ⊢
        refine Ends.step hround ?_ hrest
        rw [atMark, if_neg (mt hescaped.1 hb), if_neg (hplain ho), if_neg (mt hclosing.1 hc),
          if_neg (by omega)]

end Loop

/-! ## The lines of a file -/

section File

variable {d : ℕ} {s t : Load} {line : Line} {file : List Line}

/-- Between the lines. -/
structure Between (d : ℕ) (s : Load) : Prop where
  comment : s.comment = d
  bound : d ≤ maxNestedComments
  nest : s.nest.length = maxNestedComments

theorem between_init : Between 0 Load.init := ⟨rfl, Nat.zero_le _, List.length_replicate⟩

/-- What a line starts with. -/
def Load.scan (s : Load) (line : Line) : Scan :=
  ⟨line.text ++ [0], if s.comment ≠ 0 then none else some 0, 0, s.comment, s.nest⟩

theorem Between.inLine (h : Between d s) (line : Line) : InLine d [] line.text (s.scan line) := by
  refine ⟨h.comment, h.nest, ⟨[], by simp [Load.scan]⟩, line.noNul, List.not_mem_nil, ?_⟩
  unfold Load.scan
  have hcomment := h.comment
  by_cases hd : d = 0
  · have hzero : s.comment = 0 := by omega
    simp only [hzero, ne_eq, not_true_eq_false, if_false, if_pos hd]
    exact ⟨Stands.nil, rfl⟩
  · have hzero : s.comment ≠ 0 := by omega
    simp only [if_pos hzero]
    exact ⟨hd, trivial⟩

/-- A round is the loop over the line and what it gives on. -/
theorem step_iff : Step s line t ↔
    ∃ fuel r, commentLoop (s.lineno + 1) fuel (s.scan line) = some r ∧
      t = ⟨r.comment, r.nest, s.lineno + 1, s.passed ++ r.given⟩ := by
  unfold Step loadLine
  constructor
  · rintro ⟨fuel, h⟩
    obtain ⟨r, hr, ht⟩ := Option.bind_eq_some_iff.1 h
    exact ⟨fuel, r, hr, (Option.some.inj ht).symm⟩
  · rintro ⟨fuel, r, hr, rfl⟩
    refine ⟨fuel, ?_⟩
    unfold Load.scan at hr
    rw [hr]
    rfl

/-- **A line whose marks fit** is read right. -/
theorem Between.right (h : Between d s) (hfits : Fits d [] line.text) :
    ∃ t, Step s line t ∧ Right s line t ∧ Between (visible d [] line.text).2 t := by
  obtain ⟨fuel, r, hr, hcomment, hbound, hgiven, hnest⟩ :=
    ((h.inLine line).ends h.bound (s.lineno + 1)).right hfits
  refine ⟨_, step_iff.2 ⟨fuel, r, hr, rfl⟩, ⟨d, h.comment, h.bound, hcomment, hbound, ?_⟩,
    ⟨hcomment, hbound, hnest⟩⟩
  rw [hgiven, List.nil_append]

/-- **No other line** is. -/
theorem Between.fits (h : Between d s) (hstep : Step s line t) (hright : Right s line t) :
    Fits d [] line.text := by
  by_contra hfits
  obtain ⟨fuel, r, hr, rfl⟩ := step_iff.1 hstep
  have hneg := ((h.inLine line).ends h.bound _).wrong hfits fuel r hr
  obtain ⟨d', -, -, hcomment, -⟩ := hright
  have heq : r.comment = (visible d' [] line.text).2 := hcomment
  omega

/-- **A line is read in one way.** -/
theorem step_unique {u : Load} (h : Step s line t) (h' : Step s line u) : t = u := by
  obtain ⟨fuel, r, hr, rfl⟩ := step_iff.1 h
  obtain ⟨fuel', r', hr', rfl⟩ := step_iff.1 h'
  have hmax := commentLoop_mono hr (Nat.le_max_left fuel fuel')
  rw [commentLoop_mono hr' (Nat.le_max_right fuel fuel')] at hmax
  obtain rfl := Option.some.inj hmax
  rfl

/-- **A file is read right** from a depth exactly when its marks fit from
there. -/
theorem Between.reads_iff (h : Between d s) :
    (∃ t, Trace (fun s line t => Step s line t ∧ Right s line t) s file t) ↔ FileFits d file := by
  induction file generalizing d s with
  | nil => exact iff_of_true ⟨s, .nil⟩ trivial
  | cons line file ih =>
    constructor
    · rintro ⟨t, ht⟩
      rw [← List.singleton_append] at ht
      obtain ⟨m, hm, hrest⟩ := ht.split
      obtain ⟨hstep, hright⟩ := hm.step_of_single
      have hfits := h.fits hstep hright
      obtain ⟨u, hu, -, hnext⟩ := h.right hfits
      obtain rfl := step_unique hu hstep
      exact ⟨hfits, (ih hnext).1 ⟨t, hrest⟩⟩
    · rintro ⟨hfits, hfile⟩
      obtain ⟨m, hstep, hright, hnext⟩ := h.right hfits
      obtain ⟨t, ht⟩ := (ih hnext).2 hfile
      exact ⟨t, ht.cons ⟨hstep, hright⟩⟩

/-- **Which files are read right**: the loop ends on each line with a depth
between the bounds, and gives on the text outside of comments. -/
theorem reads_iff_fileFits (file : List Line) :
    (∃ t, Trace (fun s line t => Step s line t ∧ Right s line t) Load.init file t) ↔
      FileFits 0 file :=
  between_init.reads_iff

/-- **A mark that closes nothing**: the depth is below zero. -/
theorem not_reads : ¬∀ file : List Line,
    ∃ t, Trace (fun s line t => Step s line t ∧ Right s line t) Load.init file t := by
  intro h
  obtain ⟨t, ht⟩ := h [⟨str "--;", by decide, by decide⟩]
  obtain ⟨hstep, hright⟩ := ht.step_of_single
  have hfits := between_init.fits hstep hright
  have hpre : commentMeta ∉ str "--" := by decide
  have hiff : Fits 0 [] (str "--" ++ [commentMeta]) ↔ _ := fits_append hpre
  have hstray := hiff.1 hfits
  have hclosing : Closing ((str "--").reverse ++ []) := by decide
  rw [Fits, if_neg (by decide)] at hstray
  simp only [opening, if_pos hclosing] at hstray
  exact hstray.1 rfl

end File

end Comments

end Config

end Trismedia
