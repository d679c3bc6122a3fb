import Mathlib.Data.BitVec
import Trismedia.Common.CString
import Trismedia.Common.Segment
import Trismedia.Common.Trace
/-!
# Host access lists

The access lists of `main/acl.c` in memory: `tris_append_ha`,
`tris_apply_ha` and `tris_duplicate_ha_list`, pointer by pointer. The
conversions of the C library are parameters, `inetAton` for `inet_aton`
and `sscanfInt` for `sscanf` with `%30d`; nothing is asked of them.

The result `none` is an access through a null pointer, to what is not
allocated or through a pointer that was never written, or a loop that has
not ended in `fuel` rounds. Memory is never short, and the log is left out.
-/


namespace Trismedia

namespace Acl

open CString

/-- `TRIS_SENSE_DENY` -/
def senseDeny : ℤ := 0

/-- `TRIS_SENSE_ALLOW` -/
def senseAllow : ℤ := 1

/-- `struct tris_ha`. `netaddr` and `netmask` hold an `s_addr` each, `next`
is `none` until it is written. -/
structure TrisHa where
  netaddr : BitVec 32
  netmask : BitVec 32
  sense : ℤ
  next : Option (Option ℕ)
  deriving DecidableEq, Repr

abbrev HaMem := ℕ → Option TrisHa

/-- What `tris_malloc` leaves in a new entry. -/
structure Garbage where
  netaddr : BitVec 32
  netmask : BitVec 32
  sense : ℤ

def Garbage.toHa (g : Garbage) : TrisHa := ⟨g.netaddr, g.netmask, g.sense, none⟩

/-- `htonl`, on a host that has the lowest octet first; `ntohl` is the same. -/
def htonl (x : BitVec 32) : BitVec 32 :=
  x.extractLsb' 0 8 ++ x.extractLsb' 8 8 ++ x.extractLsb' 16 8 ++ x.extractLsb' 24 8

/-- `prev->next = p` -/
def setNext (mem : HaMem) (prev p : Option ℕ) : Option HaMem := do
  let a ← prev
  let ha ← mem a
  some (Function.update mem a (some { ha with next := some p }))

/-! ## Appending -/

/-- The loop that leaves the last entry in `prev`. -/
def lastHa (mem : HaMem) : ℕ → Option ℕ → Option ℕ → Option (Option ℕ)
  | 0, _, _ => none
  | _ + 1, prev, none => some prev
  | fuel + 1, _, some path => do
    let ha ← mem path
    let next ← ha.next
    lastHa mem fuel (some path) next

/-- `strncasecmp(sense, "p", 1)` finds no difference. -/
def startsWithP (sense : CString) : Bool := (sense.head?.map tolower) = some (chr 'p')

section Libc

variable (inetAton : CString → Option (BitVec 32)) (sscanfInt : CString → Option ℤ)

/-- The mask behind the `/`, if there is one. -/
def netmaskOf (nm : Option CString) : Option (BitVec 32) :=
  match nm with
  | none => some (htonl 0xFFFFFFFF#32)
  | some nm =>
    if (strchr (chr '.') nm).isNone then
      match sscanfInt nm with
      | some x =>
        if 0 ≤ x ∧ x ≤ 32 then
          -- a shift by 32 is undefined
          some (if x = 0 then 0 else htonl (0xFFFFFFFF#32 <<< (32 - x).toNat))
        else
          none
      | none => none
    else
      inetAton nm

/-- What stands before the first `/`, and what after it. -/
def splitSlash (stuff : CString) : CString × Option CString :=
  match strchr (chr '/') stuff with
  | none => (stuff, none)
  | some (tmp, nm) => (tmp, some nm)

/-- `tris_append_ha`, with the new entry at `addr`: the memory, the list
and whether `error` is set. -/
def appendHa (fuel : ℕ) (mem : HaMem) (sense stuff : CString) (path : Option ℕ) (addr : ℕ)
    (garbage : Garbage) : Option (HaMem × Option ℕ × Bool) := do
  let prev ← lastHa mem fuel none path
  let mem := Function.update mem addr (some garbage.toHa)
  let (tmp, nm) := splitSlash stuff
  match netmaskOf inetAton sscanfInt nm with
  | none => some (Function.update mem addr none, path, true)
  | some netmask =>
    match inetAton tmp with
    | none => some (Function.update mem addr none, path, true)
    | some netaddr => do
      let sense := if startsWithP sense then senseAllow else senseDeny
      let mem := Function.update mem addr (some ⟨netaddr &&& netmask, netmask, sense, some none⟩)
      match prev with
      | some prev => do
        let mem ← setNext mem (some prev) (some addr)
        some (mem, path, false)
      | none => some (mem, some addr, false)

end Libc

/-! ## Applying -/

/-- `tris_apply_ha` to the address `sAddr`. The first entry that matches
ends the loop, whatever its sense. -/
def applyHa (mem : HaMem) (sAddr : BitVec 32) : ℕ → Option ℕ → Option ℤ
  | 0, _ => none
  | _ + 1, none => some senseAllow
  | fuel + 1, some p => do
    let ha ← mem p
    if sAddr &&& ha.netmask = ha.netaddr then
      some senseDeny
    else do
      let next ← ha.next
      applyHa mem sAddr fuel next

/-! ## Copying -/

/-- `tris_copy_ha` -/
def copyHa (orig new : TrisHa) : TrisHa :=
  { new with netaddr := orig.netaddr, netmask := orig.netmask, sense := orig.sense }

/-- The loop of `tris_duplicate_ha_list`, whose `k`-th `tris_malloc` returns
`addrs k`. -/
def duplicateLoop (addrs : ℕ → ℕ) (garbage : ℕ → Garbage) :
    ℕ → ℕ → HaMem → Option ℕ → Option ℕ → Option ℕ → Option (HaMem × Option ℕ)
  | 0, _, _, _, _, _ => none
  | _ + 1, _, mem, none, _, ret => some (mem, ret)
  | fuel + 1, k, mem, some start, prev, ret => do
    let ha ← mem start
    let current := addrs k
    let mem := Function.update mem current (some (copyHa ha (garbage k).toHa))
    let mem ← if prev.isSome then setNext mem prev (some current) else some mem
    let ret := if ret.isNone then some current else ret
    let ha ← mem start
    let next ← ha.next
    duplicateLoop addrs garbage fuel (k + 1) mem next (some current) ret

/-- `tris_duplicate_ha_list` -/
def duplicateHaList (fuel : ℕ) (mem : HaMem) (addrs : ℕ → ℕ) (garbage : ℕ → Garbage)
    (original : Option ℕ) : Option (HaMem × Option ℕ) :=
  duplicateLoop addrs garbage fuel 0 mem original none none

end Acl

/-!
## Rules

What an access list is for: a `Rule` permits or denies a network, which
is the address before the `/` under the first `n` bits or under a dotted
mask, and the last rule that contains an address decides. The masks in
memory are in network order; `Rule.matches_iff` says that the comparison
of `tris_apply_ha` still is that of the first `n` bits.
-/

namespace Acl

open CString Segment

/-! ## Network order -/

theorem getLsbD_htonl (x : BitVec 32) {i : ℕ} (hi : i < 32) :
    (htonl x).getLsbD i = x.getLsbD (24 - i / 8 * 8 + i % 8) := by
  have h : i / 8 = 0 ∨ i / 8 = 1 ∨ i / 8 = 2 ∨ i / 8 = 3 := by omega
  simp only [htonl, BitVec.getLsbD_append, BitVec.getLsbD_extractLsb']
  rcases h with h | h | h | h
  · have h8 : i < 8 := by omega
    have hidx : 24 + i = 24 - 0 * 8 + i % 8 := by omega
    simp only [h8, h, if_true, decide_true, Bool.true_and, hidx]
  · have h8 : ¬ i < 8 := by omega
    have h16 : i - 8 < 8 := by omega
    have hidx : 16 + (i - 8) = 24 - 1 * 8 + i % 8 := by omega
    simp only [h8, h16, h, if_true, if_false, decide_true, Bool.true_and, hidx]
  · have h8 : ¬ i < 8 := by omega
    have h16 : ¬ i - 8 < 8 := by omega
    have h24 : i - 8 - 8 < 8 := by omega
    have hidx : 8 + (i - 8 - 8) = 24 - 2 * 8 + i % 8 := by omega
    simp only [h8, h16, h24, h, if_true, if_false, decide_true, Bool.true_and, hidx]
  · have h8 : ¬ i < 8 := by omega
    have h16 : ¬ i - 8 < 8 := by omega
    have h24 : ¬ i - 8 - 8 < 8 := by omega
    have h32 : i - 8 - 8 - 8 < 8 := by omega
    have hidx : 0 + (i - 8 - 8 - 8) = 24 - 3 * 8 + i % 8 := by omega
    simp only [h8, h16, h24, h32, h, if_false, decide_true, Bool.true_and, hidx]

@[simp] theorem htonl_htonl (x : BitVec 32) : htonl (htonl x) = x := by
  refine BitVec.eq_of_getLsbD_eq fun i hi => ?_
  rw [getLsbD_htonl _ hi, getLsbD_htonl _ (by omega)]
  congr 1
  omega

theorem htonl_and (x y : BitVec 32) : htonl (x &&& y) = htonl x &&& htonl y := by
  refine BitVec.eq_of_getLsbD_eq fun i hi => ?_
  simp only [BitVec.getLsbD_and, getLsbD_htonl _ hi]

theorem htonl_inj {x y : BitVec 32} : htonl x = htonl y ↔ x = y := by
  refine ⟨fun h => ?_, fun h => h ▸ rfl⟩
  rw [← htonl_htonl x, h, htonl_htonl]

theorem getLsbD_ones {k i : ℕ} (hi : i < 32) :
    (0xFFFFFFFF#32 <<< k).getLsbD i = decide (k ≤ i) := by
  have hones : 0xFFFFFFFF#32 = BitVec.allOnes 32 := by decide
  rw [BitVec.getLsbD_shiftLeft, hones, BitVec.getLsbD_allOnes]
  by_cases h : k ≤ i
  · have hsub : i - k < 32 := by omega
    simp [h, hi, hsub]
  · have hlt : i < k := by omega
    simp [h, hlt]

/-- **A mask of leading ones compares the leading bits.** -/
theorem and_ones_iff (x y : BitVec 32) {k : ℕ} :
    x &&& (0xFFFFFFFF#32 <<< k) = y &&& (0xFFFFFFFF#32 <<< k) ↔ x >>> k = y >>> k := by
  constructor
  · intro h
    refine BitVec.eq_of_getLsbD_eq fun i hi => ?_
    rw [BitVec.getLsbD_ushiftRight, BitVec.getLsbD_ushiftRight]
    by_cases hki : k + i < 32
    · have hbit := congrArg (BitVec.getLsbD · (k + i)) h
      simpa only [BitVec.getLsbD_and, getLsbD_ones hki, Nat.le_add_right, decide_true,
        Bool.and_true] using hbit
    · rw [BitVec.getLsbD_of_ge _ _ (by omega), BitVec.getLsbD_of_ge _ _ (by omega)]
  · intro h
    refine BitVec.eq_of_getLsbD_eq fun i hi => ?_
    rw [BitVec.getLsbD_and, BitVec.getLsbD_and, getLsbD_ones hi]
    by_cases hki : k ≤ i
    · have hbit := congrArg (BitVec.getLsbD · (i - k)) h
      have hidx : k + (i - k) = i := by omega
      simp only [BitVec.getLsbD_ushiftRight, hidx] at hbit
      rw [hbit]
    · simp only [hki, decide_false, Bool.and_false]

/-! ## Rules -/

/-- The mask of a rule: so many leading bits, or a word given octet by
octet. -/
inductive Mask
  | bits (n : ℕ) (h : n ≤ 32)
  | dotted (m : BitVec 32)
  deriving DecidableEq

structure Rule where
  net : BitVec 32
  mask : Mask
  allow : Bool
  deriving DecidableEq

/-- The network of the rule contains the address `a`. -/
def Rule.Contains (r : Rule) (a : BitVec 32) : Prop :=
  match r.mask with
  | .bits n _ => htonl a >>> (32 - n) = htonl r.net >>> (32 - n)
  | .dotted m => a &&& m = r.net &&& m

instance (r : Rule) (a : BitVec 32) : Decidable (r.Contains a) :=
  match h : r.mask with
  | .bits n _ =>
    decidable_of_iff (htonl a >>> (32 - n) = htonl r.net >>> (32 - n)) (by rw [Rule.Contains, h])
  | .dotted m => decidable_of_iff (a &&& m = r.net &&& m) (by rw [Rule.Contains, h])

def Rule.sense (r : Rule) : ℤ := if r.allow then senseAllow else senseDeny

/-- **The decision of a list of rules**: the last rule that contains the
address, and else to allow it. -/
def verdict (rs : List Rule) (a : BitVec 32) : ℤ :=
  match (rs.filter (·.Contains a)).getLast? with
  | some r => r.sense
  | none => senseAllow

/-- The mask as it is stored. -/
def Mask.word : Mask → BitVec 32
  | .bits n _ => if n = 0 then 0 else htonl (0xFFFFFFFF#32 <<< (32 - n))
  | .dotted m => m

/-- The entry of a rule, in front of `next`. -/
def Rule.cell (r : Rule) (next : Option ℕ) : TrisHa :=
  ⟨r.net &&& r.mask.word, r.mask.word, r.sense, some next⟩

/-- The same entry in a copy: a null pointer is not written. -/
def Rule.copyCell (r : Rule) (next : Option ℕ) : TrisHa :=
  ⟨r.net &&& r.mask.word, r.mask.word, r.sense, next.map some⟩

/-- **The comparison of `tris_apply_ha` is that of the network.** -/
theorem Rule.matches_iff (r : Rule) (a : BitVec 32) :
    a &&& r.mask.word = r.net &&& r.mask.word ↔ r.Contains a := by
  obtain ⟨net, mask, allow⟩ := r
  cases mask with
  | dotted m => exact Iff.rfl
  | bits n hn =>
    rcases Nat.eq_zero_or_pos n with rfl | hpos
    · have hall : ∀ x : BitVec 32, x >>> 32 = 0 := fun x =>
        BitVec.ushiftRight_eq_zero (Nat.le_refl 32)
      simp [Mask.word, Rule.Contains, hall]
    · have hne : n ≠ 0 := by omega
      rw [← htonl_inj, htonl_and, htonl_and]
      simp only [Mask.word, Rule.Contains, hne, if_false, htonl_htonl]
      exact and_ones_iff _ _

section Texts

variable (inetAton : CString → Option (BitVec 32)) (sscanfInt : CString → Option ℤ)

/-- A word has thirty-two bits to set. -/
theorem Mask.bits_le : 32 ≤ 32 := Nat.le_refl 32

theorem Mask.toNat_le {x : ℤ} (h : 0 ≤ x ∧ x ≤ 32) : x.toNat ≤ 32 := by omega

/-- The mask that the text behind the `/` names. -/
def parseMask : Option CString → Option Mask
  | none => some (.bits 32 Mask.bits_le)
  | some nm =>
    if (strchr (chr '.') nm).isNone then
      (sscanfInt nm).bind fun x =>
        if h : 0 ≤ x ∧ x ≤ 32 then some (.bits x.toNat (Mask.toNat_le h)) else none
    else
      (inetAton nm).map .dotted

/-- The rule of a call of `tris_append_ha`, if its texts are accepted. -/
def ruleOf (sense stuff : CString) : Option Rule :=
  match parseMask inetAton sscanfInt (splitSlash stuff).2, inetAton (splitSlash stuff).1 with
  | some mask, some net => some ⟨net, mask, startsWithP sense⟩
  | _, _ => none

theorem netmaskOf_eq (nm : Option CString) :
    netmaskOf inetAton sscanfInt nm = (parseMask inetAton sscanfInt nm).map Mask.word := by
  cases nm with
  | none =>
    have hword : htonl 0xFFFFFFFF#32 = (Mask.bits 32 Mask.bits_le).word := by decide
    simp only [netmaskOf, parseMask, Option.map_some, hword]
  | some nm =>
    unfold netmaskOf parseMask
    dsimp only
    by_cases hdot : (strchr (chr '.') nm).isNone
    · rw [if_pos hdot, if_pos hdot]
      cases sscanfInt nm with
      | none => rfl
      | some x =>
        by_cases hx : 0 ≤ x ∧ x ≤ 32
        · have hshift : (32 - x).toNat = 32 - x.toNat := by omega
          have hzero : x = 0 ↔ x.toNat = 0 := by omega
          simp only [hx, and_self, if_true, dif_pos, Option.bind_some, Option.map_some, Mask.word,
            hshift, hzero]
        · simp only [hx, if_false, dif_neg, not_false_eq_true, Option.bind_some, Option.map_none]
    · rw [if_neg hdot, if_neg hdot]
      cases inetAton nm <;> rfl

end Texts

end Acl

end Trismedia
