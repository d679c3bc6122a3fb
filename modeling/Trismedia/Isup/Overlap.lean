import Trismedia.Common.Trace
import Trismedia.Isup.Call
import Trismedia.Isup.Received
/-!
# Digits that come later

The number dialled is kept in the `iam` of its circuit, and an SAM adds its
digits there, `process_iam` and `process_sam` of `channels/ss7/l4isup.c`. The
octets of `iam` are those of the member of the union, and what is written behind
them is written behind the member.

There is no number before the first IAM. What else happens to the circuit, a
timer, a release or another message, leaves the digits as they are.
-/


namespace Trismedia

namespace Isup

namespace Overlap

open Mtp2 Memory Isup.Union

/-! ## The circuit -/

/-- `sizeof(struct iam)` -/
def sizeofIam : ℕ := 128

/-- What of a `struct ss7_chan` is read and written here. -/
structure Pvt where
  state : CircuitState
  iam : Option (ℕ → Octet)
  t35 : Bool

/-- Whether the `int` at an address is not 0. -/
def isSet (m : ℕ → Octet) (address : ℕ) : Bool := load m address 4 ≠ [0, 0, 0, 0]

/-- `strcat`, where the string is looked for in `room` octets. -/
def strcat (m : ℕ → Octet) (room dst : ℕ) (src : List Octet) : ℕ → Octet :=
  store m (dst + (strFrom m room dst).length) (src ++ [0])

/-- `check_iam_sam`, where `complete` is set to 0. `canmatch` is the answer of
the dialplan. -/
def checkIamSam (canmatch : Bool) (pvt : Pvt) : Pvt :=
  if canmatch then { pvt with t35 := true } else { pvt with state := .sentRel }

/-- `process_iam`. A call of this end on the circuit that gives way is moved to
another, one received before is ended. -/
def processIam (canmatch : Bool) (inmsg : Received) (pvt : Pvt) : Pvt :=
  if pvt.state = .sentIam ∧ iscontrolling inmsg.header then pvt
  else if pvt.state ≠ .sentIam ∧ pvt.state ≠ .gotIam ∧ pvt.state ≠ .idle then pvt
  else checkIamSam canmatch { pvt with state := .gotIam, iam := some inmsg.union }

/-- What `process_sam` makes of the number. -/
def addSni (inmsg : Received) (iam : ℕ → Octet) : ℕ → Octet :=
  let iam := strcat iam (sizeofIam - (iamDni.base + offsetofNum)) (iamDni.base + offsetofNum)
    (numAt inmsg.union samSni.base)
  let complete := putInt (iamDni.base + offsetofComplete)
    (if isSet iam (iamDni.base + offsetofComplete) ∨
      isSet inmsg.union (samSni.base + offsetofComplete) then 1 else 0)
  store iam complete.address complete.octets

/-- `process_sam` -/
def processSam (canmatch : Bool) (inmsg : Received) (pvt : Pvt) : Pvt :=
  if pvt.state ≠ .gotIam then pvt
  else
    let pvt := { pvt with t35 := false }
    if (numAt inmsg.union samSni.base).length = phonenumMax - 1 then { pvt with state := .sentRel }
    else checkIamSam canmatch { pvt with iam := pvt.iam.map (addSni inmsg) }

/-! ## Runs -/

/-- What happens to a circuit: a message comes, with what the dialplan answers,
or something else does. -/
inductive Event where
  | message (buf : List Octet) (canmatch : Bool)
  | other (state : CircuitState) (t35 complete : Bool)

/-- What the circuit is behind an event. `complete` is set when the number is
taken as it is. -/
def handle (variant : Ss7Variant) (pvt : Pvt) : Event → Pvt
  | .message buf canmatch =>
    match received variant buf with
    | none => pvt
    | some inmsg =>
      match inmsg.typ with
      | .iam => processIam canmatch inmsg pvt
      | .sam => processSam canmatch inmsg pvt
      | _ => pvt
  | .other state t35 complete =>
    ⟨state, if complete then pvt.iam.map fun iam =>
      store iam (iamDni.base + offsetofComplete) (putInt 0 1).octets else pvt.iam, t35⟩

/-- A step of a circuit. -/
def Step (variant : Ss7Variant) (t : Pvt) (e : Event) (u : Pvt) : Prop := u = handle variant t e

/-- A circuit that has had no call. -/
def fresh : Pvt := ⟨.idle, none, false⟩

/-- **The number is a string in its place.** -/
def Pvt.NumFits (pvt : Pvt) : Prop :=
  ∀ iam ∈ pvt.iam, ∃ num, StrAt iam (iamDni.base + offsetofNum) num ∧ num.length ≤ phonenumMax

/-- The octet is one of `dni.num` or of `dni.complete`. -/
def OfSam (x : ℕ) : Prop :=
  (offsetofComplete ≤ x ∧ x < offsetofComplete + 4) ∨
    (offsetofNum ≤ x ∧ x < offsetofNum + (phonenumMax + 1))

/-- **The step keeps the number**, and an SAM changes nothing else but
`complete`. -/
structure Kept (variant : Ss7Variant) (t : Pvt) (e : Event) (u : Pvt) : Prop where
  fits : u.NumFits
  frame : ∀ buf canmatch inmsg, e = .message buf canmatch → received variant buf = some inmsg →
    inmsg.typ = .sam → ∀ iam ∈ t.iam, ∀ iam' ∈ u.iam, ∀ x, ¬OfSam x → iam' x = iam x

/-- **There is room**: with the digits of an SAM that are added, those that are
there are twenty at most. -/
def Room (variant : Ss7Variant) (t : Pvt) (e : Event) : Prop :=
  ∀ buf canmatch inmsg, e = .message buf canmatch → received variant buf = some inmsg →
    inmsg.typ = .sam → t.state = .gotIam →
      (numAt inmsg.union samSni.base).length ≠ phonenumMax - 1 → ∀ iam ∈ t.iam,
        (numAt iam iamDni.base).length + (numAt inmsg.union samSni.base).length ≤ phonenumMax

variable {variant : Ss7Variant} {inmsg : Received} {iam : ℕ → Octet} {num : List Octet}
variable {canmatch : Bool} {buf : List Octet} {t u pvt : Pvt} {e : Event}

/-! ## One step -/

@[simp] theorem checkIamSam_iam : (checkIamSam canmatch pvt).iam = pvt.iam := by
  unfold checkIamSam
  split_ifs <;> rfl

theorem numAt_eq (h : StrAt iam (iamDni.base + offsetofNum) num) (hlen : num.length ≤ phonenumMax) :
    numAt iam iamDni.base = num := h.strFrom_eq (Nat.lt_succ_of_le hlen)

/-- **The digits are added** behind those that are there. -/
theorem addSni_strAt (h : StrAt iam (iamDni.base + offsetofNum) num)
    (hlen : num.length ≤ phonenumMax) :
    StrAt (addSni inmsg iam) (iamDni.base + offsetofNum)
      (num ++ numAt inmsg.union samSni.base) := by
  have hfrom : strFrom iam (sizeofIam - (iamDni.base + offsetofNum)) (iamDni.base + offsetofNum) =
      num := h.strFrom_eq (Nat.lt_of_le_of_lt hlen (by decide))
  have happend := h.append (zero_notMem_strFrom (m := inmsg.union) (n := phonenumMax + 1)
    (p := samSni.base + offsetofNum))
  unfold addSni strcat
  rw [hfrom]
  exact happend.congr (load_store_apart (Or.inr (Nat.le_refl _)))

/-- And nothing else is changed where there is room for them. -/
theorem addSni_frame (h : StrAt iam (iamDni.base + offsetofNum) num)
    (hlen : num.length + (numAt inmsg.union samSni.base).length ≤ phonenumMax) {x : ℕ}
    (hx : ¬OfSam x) : addSni inmsg iam x = iam x := by
  have hfrom : strFrom iam (sizeofIam - (iamDni.base + offsetofNum)) (iamDni.base + offsetofNum) =
      num := h.strFrom_eq (Nat.lt_of_le_of_lt (by omega : num.length ≤ phonenumMax) (by decide))
  unfold OfSam offsetofComplete offsetofNum at hx
  unfold addSni strcat
  rw [hfrom, store_apart, store_apart]
  · rw [List.length_append, List.length_singleton]
    show x < 0 + 12 + num.length ∨ _
    rw [show iamDni.base + offsetofNum = 12 from rfl]
    omega
  · show x < 0 + 8 ∨ 0 + 8 + 4 ≤ x
    omega

/-- The number that an IAM brings fits. -/
theorem numFits_processIam (hr : received variant buf = some inmsg) (htyp : inmsg.typ = .iam)
    (ht : t.NumFits) : (processIam canmatch inmsg t).NumFits := by
  unfold processIam
  split_ifs
  · exact ht
  · exact ht
  · intro iam hiam
    rw [checkIamSam_iam] at hiam
    obtain rfl := Option.some.inj hiam
    exact num_terminated hr (Or.inl htyp)

/-- **An SAM** keeps the number, and the rest of `iam`, exactly if its digits
have room. -/
theorem processSam_iff (ht : t.NumFits) :
    (processSam canmatch inmsg t).NumFits ∧
        (∀ iam ∈ t.iam, ∀ iam' ∈ (processSam canmatch inmsg t).iam, ∀ x, ¬OfSam x →
          iam' x = iam x) ↔
      (t.state = .gotIam → (numAt inmsg.union samSni.base).length ≠ phonenumMax - 1 →
        ∀ iam ∈ t.iam, (numAt iam iamDni.base).length +
          (numAt inmsg.union samSni.base).length ≤ phonenumMax) := by
  have hsame : ∀ iam ∈ t.iam, ∀ iam' ∈ t.iam, ∀ x, ¬OfSam x → iam' x = iam x := by
    intro iam hiam iam' hiam' x _
    rw [Option.some.inj (hiam'.symm.trans hiam)]
  unfold processSam
  by_cases hstate : t.state ≠ .gotIam
  · rw [if_pos hstate]
    exact iff_of_true ⟨ht, hsame⟩ fun h => absurd h hstate
  rw [if_neg hstate]
  by_cases hlast : (numAt inmsg.union samSni.base).length = phonenumMax - 1
  · rw [if_pos hlast]
    exact iff_of_true ⟨ht, hsame⟩ fun _ h => absurd hlast h
  rw [if_neg hlast]
  constructor
  · rintro ⟨hfits, -⟩ - - iam hiam
    obtain ⟨num, hnum, hlen⟩ := ht iam hiam
    have hadded := @addSni_strAt inmsg iam num hnum hlen
    obtain ⟨num', hnum', hlen'⟩ := hfits (addSni inmsg iam) (by
      rw [checkIamSam_iam]
      exact Option.mem_map_of_mem _ hiam)
    rw [hnum'.unique hadded, List.length_append] at hlen'
    rwa [numAt_eq hnum hlen]
  · intro hroom
    have hall : ∀ iam ∈ t.iam, ∃ num, StrAt iam (iamDni.base + offsetofNum) num ∧
        num.length + (numAt inmsg.union samSni.base).length ≤ phonenumMax := by
      intro iam hiam
      obtain ⟨num, hnum, hlen⟩ := ht iam hiam
      have hsum := hroom (not_not.1 hstate) hlast iam hiam
      rw [numAt_eq hnum hlen] at hsum
      exact ⟨num, hnum, hsum⟩
    refine ⟨fun iam' hiam' => ?_, fun iam hiam iam' hiam' x hx => ?_⟩
    · rw [checkIamSam_iam] at hiam'
      obtain ⟨iam, hiam, rfl⟩ := Option.mem_map.1 hiam'
      obtain ⟨num, hnum, hsum⟩ := hall iam hiam
      exact ⟨_, addSni_strAt hnum (by omega), by rwa [List.length_append]⟩
    · rw [checkIamSam_iam] at hiam'
      obtain ⟨iam₀, hiam₀, rfl⟩ := Option.mem_map.1 hiam'
      obtain rfl := Option.some.inj (hiam.symm.trans hiam₀)
      obtain ⟨num, hnum, hsum⟩ := hall iam hiam
      exact addSni_frame hnum hsum hx

/-- **A step keeps the number exactly if there is room.** -/
theorem kept_iff_room (ht : t.NumFits) (h : Step variant t e u) :
    Kept variant t e u ↔ Room variant t e := by
  obtain rfl : u = handle variant t e := h
  cases e with
  | other state t35 complete =>
    refine iff_of_true ⟨fun iam' hiam' => ?_, fun buf canmatch inmsg h => Event.noConfusion h⟩
      fun buf canmatch inmsg h => Event.noConfusion h
    dsimp only [handle] at hiam'
    by_cases hcomplete : complete = true
    · rw [if_pos hcomplete] at hiam'
      obtain ⟨iam, hiam, rfl⟩ := Option.mem_map.1 hiam'
      obtain ⟨num, hnum, hlen⟩ := ht iam hiam
      exact ⟨num, hnum.congr (load_store_apart (Or.inr (Nat.le_refl _))), hlen⟩
    · rw [if_neg hcomplete] at hiam'
      exact ht iam' hiam'
  | message buf canmatch =>
    -- what is not an SAM needs no room
    have hother : (handle variant t (.message buf canmatch)).NumFits →
        (∀ inmsg, received variant buf = some inmsg → inmsg.typ ≠ .sam) →
          (Kept variant t (.message buf canmatch) (handle variant t (.message buf canmatch)) ↔
            Room variant t (.message buf canmatch)) := by
      intro hfits hnot
      refine iff_of_true ⟨hfits, ?_⟩ ?_
      · rintro buf' canmatch' inmsg ⟨⟩ hr htyp
        exact absurd htyp (hnot inmsg hr)
      · rintro buf' canmatch' inmsg ⟨⟩ hr htyp
        exact absurd htyp (hnot inmsg hr)
    rcases hr : received variant buf with _ | inmsg
    · refine hother ?_ fun inmsg h => absurd (hr.symm.trans h) (Option.some_ne_none _).symm
      rw [handle, hr]
      exact ht
    by_cases htyp : inmsg.typ = .sam
    · have hsam : handle variant t (.message buf canmatch) = processSam canmatch inmsg t := by
        rw [handle, hr]
        dsimp only
        rw [htyp]
      rw [hsam]
      constructor
      · rintro ⟨hfits, hframe⟩ buf' canmatch' inmsg' ⟨⟩ hr'
        obtain rfl := Option.some.inj (hr.symm.trans hr')
        intro _
        exact (processSam_iff ht).1 ⟨hfits, hframe buf canmatch inmsg rfl hr htyp⟩
      · intro hroom
        obtain ⟨hfits, hframe⟩ := (@processSam_iff inmsg canmatch t ht).2
          (hroom buf canmatch inmsg rfl hr htyp)
        refine ⟨hfits, ?_⟩
        rintro buf' canmatch' inmsg' ⟨⟩ hr' -
        exact hframe
    · refine hother ?_ fun inmsg' h => by rwa [← Option.some.inj (hr.symm.trans h)]
      by_cases hiam : inmsg.typ = .iam
      · have hfits := @numFits_processIam variant inmsg canmatch buf t hr hiam ht
        rw [handle, hr]
        dsimp only
        rw [hiam]
        exact hfits
      · have hleft : handle variant t (.message buf canmatch) = t := by
          rw [handle, hr]
          dsimp only
          split
          · exact absurd ‹_› hiam
          · exact absurd ‹_› htyp
          · rfl
        rw [hleft]
        exact ht

/-- **Any run of a circuit**: the number is a string in its place in every
state, and no SAM changes another field than `complete`, exactly if there is
room for the digits of every SAM. -/
theorem runsKept_iff (variant : Ss7Variant) (evs : List Event) (t : Pvt) :
    Trace (fun t e u => Step variant t e u ∧ Kept variant t e u) fresh evs t ↔
      Trace (fun t e u => Step variant t e u ∧ Room variant t e) fresh evs t :=
  Trace.kept_iff_met_step (P := Pvt.NumFits) (fun _ _ _ h => h.fits)
    (fun _ _ _ ht h => kept_iff_room ht h) fun _ h => absurd h (Option.not_mem_none _)

/-- An IAM with twenty digits. -/
def twentyDigits : List Octet :=
  [0, 0, 0, 0, 0, 0, 0x01, 0, 0, 0, 0, 0, 2, 0, 12, 0x03, 0x10, 0x21, 0x43, 0x65, 0x87, 0x09, 0x21,
    0x43, 0x65, 0x87, 0x09]

/-- An SAM with one. -/
def oneDigit : List Octet := [0, 0, 0, 0, 0, 0, 0x02, 1, 2, 0x80, 0x01]

theorem not_runsKept : ¬∀ evs t, Trace (Step .itu) fresh evs t →
    Trace (fun t e u => Step .itu t e u ∧ Kept .itu t e u) fresh evs t := by
  intro h
  have hrun : Trace (Step .itu) fresh [.message twentyDigits true, .message oneDigit true]
      (handle .itu (handle .itu fresh (.message twentyDigits true)) (.message oneDigit true)) :=
    (Trace.nil.snoc rfl).snoc rfl
  have hfits := (h _ _ hrun).inv_state (I := Pvt.NumFits)
    (fun _ h => absurd h (Option.not_mem_none _)) fun _ _ _ _ he => he.2.fits
  have hlong : (handle .itu (handle .itu fresh (.message twentyDigits true))
      (.message oneDigit true)).iam.map (fun iam => (strFrom iam 22 12).length) = some 21 := by
    decide +kernel
  obtain ⟨iam, hiam, hlen⟩ := Option.map_eq_some_iff.1 hlong
  obtain ⟨num, hnum, hle⟩ := hfits iam hiam
  rw [phonenumMax] at hle
  rw [show strFrom iam 22 12 = num from hnum.strFrom_eq (by omega)] at hlen
  omega

end Overlap

end Isup

end Trismedia
