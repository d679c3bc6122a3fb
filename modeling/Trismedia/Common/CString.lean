import Mathlib.Data.List.Basic
/-!
# Strings of C

A string is the list of its bytes, up to the NUL that ends it; a null
pointer is `none`. The functions on characters are those of the C locale.
-/


/-- `char` -/
abbrev CChar := BitVec 8

instance : LawfulBEq CChar := inferInstance

abbrev CString := List CChar

namespace CString

/-- The character `c` of the source. -/
def chr (c : Char) : CChar := BitVec.ofNat 8 c.toNat

/-- A string of the source. -/
def str (s : String) : CString := s.toList.map chr

def toupper (c : CChar) : CChar :=
  if 97 ≤ c.toNat ∧ c.toNat ≤ 122 then c - 32 else c

def tolower (c : CChar) : CChar :=
  if 65 ≤ c.toNat ∧ c.toNat ≤ 90 then c + 32 else c

/-- The string in lower case. -/
def lower (s : CString) : CString := s.map tolower

/-- `strcasecmp` finds no difference. -/
def strcaseEq (a b : CString) : Bool := lower a = lower b

/-- `tris_copy_string` to a buffer of `size` bytes. -/
def trisCopyString (src : CString) (size : ℕ) : CString := src.take (size - 1)

/-- `tris_strlen_zero` -/
def trisStrlenZero : Option CString → Bool
  | none => true
  | some s => s.isEmpty

/-- `strchr`: what stands before the first `c` and what after it. -/
def strchr (c : CChar) : CString → Option (CString × CString)
  | [] => none
  | x :: xs => if x = c then some ([], xs) else (strchr c xs).map fun r => (x :: r.1, r.2)

theorem strchr_eq {c : CChar} {s before after : CString} (h : strchr c s = some (before, after)) :
    s = before ++ c :: after ∧ c ∉ before := by
  induction s generalizing before with
  | nil => simp [strchr] at h
  | cons x xs ih =>
    rw [strchr] at h
    by_cases hx : x = c
    · rw [if_pos hx] at h
      obtain ⟨rfl, rfl⟩ := Prod.ext_iff.1 (Option.some.inj h)
      exact ⟨by rw [hx]; rfl, List.not_mem_nil⟩
    · rw [if_neg hx, Option.map_eq_some_iff] at h
      obtain ⟨⟨b, a⟩, hr, heq⟩ := h
      rw [Prod.mk.injEq] at heq
      obtain ⟨rfl, rfl⟩ := heq
      obtain ⟨hs, hnot⟩ := ih hr
      refine ⟨by rw [hs]; rfl, fun hmem => ?_⟩
      rcases List.mem_cons.1 hmem with hc | hmem
      · exact hx hc.symm
      · exact hnot hmem

theorem strchr_length {c : CChar} {s before after : CString}
    (h : strchr c s = some (before, after)) : after.length < s.length := by
  have hs := (strchr_eq h).1
  rw [hs, List.length_append, List.length_cons]
  omega

end CString
