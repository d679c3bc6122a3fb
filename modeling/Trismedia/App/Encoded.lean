import Trismedia.Common.CString
/-!
# Characters with escapes

`tris_get_encoded_char` and `tris_get_encoded_str` of `main/app.c`. A pointer
into a string is what is left of it, and one behind its terminator is `none`.
-/


namespace Trismedia

namespace App

open CString

/-- A character of `"0123456789ABCDEFabcdef"`, and of `"01234567"`. -/
def isHexChar (c : CChar) : Bool := c ∈ str "0123456789ABCDEFabcdef"

def isOctalChar (c : CChar) : Bool := c ∈ str "01234567"

/-- The value of a hexadecimal digit. -/
def hexValue (c : CChar) : CChar :=
  if c.toInt ≤ (chr '9').toInt then c - chr '0'
  else if c.toInt ≤ (chr 'F').toInt then c - chr 'A' + 10
  else c - chr 'a' + 10

/-- What `tris_get_encoded_char` returns, whether that is 0 or -1, and what it
sets. -/
structure Encoded where
  ok : Bool
  result : CChar
  consumed : ℕ
  deriving DecidableEq

/-- The octal digits. -/
def octalLoop : CString → CChar → ℕ → Encoded
  | [], result, consumed => ⟨true, result, consumed⟩
  | c :: stream, result, consumed =>
    if isOctalChar c then octalLoop stream ((result <<< 3) + (c - chr '0')) (consumed + 1)
    else ⟨true, result, consumed⟩

/-- The hexadecimal digits. -/
def hexDigits : CString → Encoded
  | [] => ⟨false, 0, 2⟩
  | [c] => if isHexChar c then ⟨true, hexValue c, 3⟩ else ⟨false, 0, 2⟩
  | c :: d :: _ =>
    if isHexChar c then
      if isHexChar d then ⟨true, (hexValue c <<< 4) + hexValue d, 4⟩ else ⟨true, hexValue c, 3⟩
    else ⟨false, 0, 2⟩

/-- **`tris_get_encoded_char`** -/
def trisGetEncodedChar : CString → Encoded
  | [] => ⟨false, 0, 0⟩
  | c :: stream =>
    if c = chr '\\' then
      match stream with
      | [] => ⟨true, 0, 2⟩
      | e :: stream =>
        if e = chr 'n' then ⟨true, chr '\n', 2⟩
        else if e = chr 'r' then ⟨true, chr '\r', 2⟩
        else if e = chr 't' then ⟨true, chr '\t', 2⟩
        else if e = chr 'x' then hexDigits stream
        else if e = chr '0' then octalLoop stream 0 2
        else ⟨true, e, 2⟩
    else ⟨true, c, 1⟩

/-- `stream += n` -/
def advance (stream : CString) (n : ℕ) : Option CString :=
  if n ≤ stream.length then some (stream.drop n) else none

/-- The loop of `tris_get_encoded_str`, with room for `room` characters. A
character that is a terminator ends the string, whatever is written behind
it. -/
def encodedLoop : ℕ → CString → CString
  | 0, _ => []
  | room + 1, stream =>
    let e := trisGetEncodedChar stream
    if !e.ok ∨ e.result = 0 then [] else e.result :: encodedLoop room (stream.drop e.consumed)

/-- `tris_get_encoded_str` -/
def trisGetEncodedStr (stream : CString) (resultSize : ℕ) : CString :=
  encodedLoop (resultSize - 1) stream

/-! ## What is consumed -/

variable {stream : CString}

theorem octalLoop_consumed : ∀ (stream : CString) result consumed,
    (octalLoop stream result consumed).ok = true ∧
      consumed ≤ (octalLoop stream result consumed).consumed ∧
        (octalLoop stream result consumed).consumed ≤ consumed + stream.length := by
  intro stream
  induction stream with
  | nil => exact fun result consumed => ⟨rfl, Nat.le_refl _, Nat.le_refl _⟩
  | cons c stream ih =>
    intro result consumed
    unfold octalLoop
    by_cases hc : isOctalChar c = true
    · obtain ⟨hok, hge, hle⟩ := ih ((result <<< 3) + (c - chr '0')) (consumed + 1)
      rw [if_pos hc, List.length_cons]
      exact ⟨hok, by omega, by omega⟩
    · rw [if_neg hc]
      exact ⟨rfl, Nat.le_refl _, Nat.le_add_right _ _⟩

theorem hexDigits_consumed (h : (hexDigits stream).ok = true) :
    3 ≤ (hexDigits stream).consumed ∧ (hexDigits stream).consumed ≤ stream.length + 2 := by
  rcases stream with _ | ⟨c, _ | ⟨d, stream⟩⟩
  · exact absurd h Bool.false_ne_true
  · unfold hexDigits at h ⊢
    dsimp only at h ⊢
    by_cases hc : isHexChar c = true
    · rw [if_pos hc]
      exact ⟨Nat.le_refl 3, Nat.le_refl 3⟩
    · rw [if_neg hc] at h
      exact absurd h Bool.false_ne_true
  · unfold hexDigits at h ⊢
    dsimp only at h ⊢
    by_cases hc : isHexChar c = true
    · rw [if_pos hc, List.length_cons, List.length_cons]
      by_cases hd : isHexChar d = true
      · rw [if_pos hd]
        dsimp only
        omega
      · rw [if_neg hd]
        dsimp only
        omega
    · rw [if_neg hc] at h
      exact absurd h Bool.false_ne_true

/-- The backslash is the last character: its terminator is consumed as well. -/
def IsLoneBackslash (stream : CString) : Prop := stream = [chr '\\']

/-- **A character is consumed inside the string**, unless it is a backslash at
the end. -/
theorem trisGetEncodedChar_consumed (h : (trisGetEncodedChar stream).ok = true) :
    1 ≤ (trisGetEncodedChar stream).consumed ∧
      ((trisGetEncodedChar stream).consumed ≤ stream.length ↔ ¬IsLoneBackslash stream) := by
  rcases stream with _ | ⟨c, stream⟩
  · exact absurd h Bool.false_ne_true
  unfold trisGetEncodedChar at h ⊢
  dsimp only at h ⊢
  by_cases hc : c = chr '\\'
  · rw [if_pos hc] at h ⊢
    rcases stream with _ | ⟨e, stream⟩
    · refine ⟨Nat.le_succ 1, fun hle => ?_, fun hnot => absurd (by rw [hc]; rfl) hnot⟩
      exact absurd hle (show ¬2 ≤ 1 by omega)
    have hnot : ¬IsLoneBackslash (c :: e :: stream) := fun heq => by
      have hlength := congrArg List.length heq
      exact absurd hlength (by simp)
    dsimp only at h ⊢
    have htwo : 2 ≤ (c :: e :: stream).length := by
      rw [List.length_cons, List.length_cons]
      omega
    refine ⟨?_, iff_of_true ?_ hnot⟩
    · split_ifs at h ⊢
      · exact Nat.le_succ 1
      · exact Nat.le_succ 1
      · exact Nat.le_succ 1
      · exact Nat.le_trans (by omega) (hexDigits_consumed h).1
      · exact Nat.le_trans (by omega) (octalLoop_consumed stream 0 2).2.1
      · exact Nat.le_succ 1
    · split_ifs at h ⊢
      · exact htwo
      · exact htwo
      · exact htwo
      · exact (hexDigits_consumed h).2
      · have hle := (octalLoop_consumed stream 0 2).2.2
        rw [List.length_cons, List.length_cons]
        omega
      · exact htwo
  · rw [if_neg hc]
    refine ⟨Nat.le_refl 1, iff_of_true (Nat.le_add_left 1 _) fun heq => hc ?_⟩
    exact (List.cons.inj heq).1

end App

end Trismedia
