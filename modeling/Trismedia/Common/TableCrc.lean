import Mathlib.Data.BitVec
/-!
# Check bits from a table

A check sequence of 16 bits that is computed an octet at a time from a table.
Behind a message stands the complement of what is computed of it, the low octet
first. What is computed of both is then the same for every message, and only
two entries of the table decide what it is: nothing is asked of the others.
-/


namespace TableCrc

variable {Octet : Type*} (tab : ℕ → BitVec 16) (value : Octet → BitVec 16)

/-- One octet. -/
def step (fcs : BitVec 16) (c : Octet) : BitVec 16 :=
  (fcs >>> 8) ^^^ tab ((fcs ^^^ value c) &&& 0xff#16).toNat

/-- A message. -/
def run (fcs : BitVec 16) (cs : List Octet) : BitVec 16 := cs.foldl (step tab value) fcs

theorem run_cons (fcs : BitVec 16) (c : Octet) (cs : List Octet) :
    run tab value fcs (c :: cs) = run tab value (step tab value fcs c) cs := rfl

/-- What is left behind every message. -/
def residue : BitVec 16 :=
  (tab 0xff >>> 8) ^^^ tab ((tab 0xff ^^^ 0xff#16) &&& 0xff#16).toNat

theorem getElem_mask {i : ℕ} (h : i < 16) : (0xff#16)[i] = decide (i < 8) := by
  rw [BitVec.getElem_eq_testBit_toNat]
  exact Nat.testBit_two_pow_sub_one 8 i

theorem xor_ones (s : BitVec 16) : s ^^^ 0xffff#16 = ~~~s := BitVec.xor_allOnes

/-- With the low octet of the complement all ones are looked up. -/
theorem low_xor (s : BitVec 16) :
    (s ^^^ ((s ^^^ 0xffff#16) &&& 0xff#16)) &&& 0xff#16 = 0xff#16 := by
  rw [xor_ones]
  ext i hi
  have hmask := getElem_mask hi
  simp only [BitVec.getElem_and, BitVec.getElem_xor, BitVec.getElem_not]
  grind

/-- With the high one the entry before is. -/
theorem high_xor (s t : BitVec 16) :
    (((s >>> 8) ^^^ t) ^^^ (((s ^^^ 0xffff#16) >>> 8) &&& 0xff#16)) &&& 0xff#16 =
      (t ^^^ 0xff#16) &&& 0xff#16 := by
  rw [xor_ones]
  ext i hi
  have hmask := getElem_mask hi
  simp only [BitVec.getElem_and, BitVec.getElem_xor, BitVec.getElem_ushiftRight, BitVec.getLsbD_not]
  grind

/-- **The residue**: two octets that are the complement of the check bits. -/
theorem run_complement (s : BitVec 16) {low high : Octet}
    (hlow : value low = (s ^^^ 0xffff#16) &&& 0xff#16)
    (hhigh : value high = ((s ^^^ 0xffff#16) >>> 8) &&& 0xff#16) :
    run tab value s [low, high] = residue tab := by
  have hfirst : step tab value s low = (s >>> 8) ^^^ tab 0xff := by
    rw [step, hlow, low_xor]
    rfl
  have hshift : ((s >>> 8) ^^^ tab 0xff) >>> 8 = tab 0xff >>> 8 := by
    ext i hi
    have hhigh : s.getLsbD (8 + (8 + i)) = false := BitVec.getLsbD_of_ge s _ (by omega)
    simp [hhigh]
  rw [run_cons, run_cons, hfirst, step, hhigh, high_xor, hshift]
  rfl

end TableCrc
