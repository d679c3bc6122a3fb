import Trismedia.Common.GoBackN
import Trismedia.Mtp2.Calls
/-!
# Frames on the line

What a frame of this code says of a unit and an acknowledgement of the
go-back-N protocol: their numbers modulo 128 and their phases modulo 2, both
counted from where the direction started. A receive buffer that holds the
frame gives these back.
-/


namespace Trismedia

namespace Mtp2

open GoBackN

/-- Where a direction starts: the number before its first message, and the
bit of its first phase. -/
structure Base where
  seq : ℕ
  bit : Bool

/-- The number on the line. -/
def Base.number (b : Base) (n : ℕ) : ℕ := (b.seq + n) % 128

/-- The indicator bit on the line. -/
def Base.indicator (b : Base) (n : ℕ) : Bool := bitOf b.bit n

variable {b bo bi : Base} {buf : ℕ → Octet} {f : List Octet} {u : DataUnit Msu} {k : Ack} {a : Msu}
variable {m n : ℕ}

theorem Base.number_lt (b : Base) (n : ℕ) : b.number n < 128 := Nat.mod_lt _ (by omega)

theorem Base.mtpNextSeq_number (b : Base) (n : ℕ) : mtpNextSeq (b.number n) = b.number (n + 1) := by
  unfold mtpNextSeq Base.number
  omega

/-- Numbers of one window are told apart. -/
theorem Base.number_inj (hle : m ≤ n) (hlt : n < m + 128) : b.number n = b.number m ↔ n = m :=
  ⟨fun h => mod_inj hle hlt h, fun h => by rw [h]⟩

theorem Base.indicator_succ_ne (b : Base) (n : ℕ) : b.indicator (n + 1) ≠ b.indicator n :=
  bitOf_succ_ne b.bit n

/-! ## Octets -/

theorem seqOctet_toNat : ∀ n < 128, ∀ bit : Bool,
    (seqOctet n bit).toNat &&& 0x7f = n ∧ decide ((seqOctet n bit).toNat >>> 7 = 1) = bit := by
  decide +kernel

theorem li_toNat : ∀ n < 64, (UInt8.ofNat n).toNat &&& 0x3f = n := by decide +kernel

/-- The receive buffer holds the frame. -/
def Holds (buf : ℕ → Octet) (f : List Octet) : Prop := ∀ i < f.length, buf i = f.getD i 0

/-- The part of a unit's frame behind the numbers. -/
def bodyOctets : Option Msu → List Octet
  | none => [0]
  | some a => (slotOf a.sio a.sif).drop 2

/-- **The frame of a unit and an acknowledgement**; `bo` is the base of the
direction of the unit, `bi` of the other. -/
def suFrame (bo bi : Base) (u : DataUnit Msu) (k : Ack) : List Octet :=
  seqOctet (bi.number k.got) (bi.indicator k.phase) ::
    seqOctet (bo.number u.seq) (bo.indicator u.phase) :: bodyOctets u.body

theorem Holds.bsnOf (h : Holds buf (suFrame bo bi u k)) :
    Mtp2.bsnOf buf = bi.number k.got ∧ Mtp2.bibOf buf = bi.indicator k.phase := by
  have h0 : buf 0 = seqOctet (bi.number k.got) (bi.indicator k.phase) := h 0 (by simp [suFrame])
  have hd := seqOctet_toNat (bi.number k.got) (bi.number_lt _) (bi.indicator k.phase)
  rw [Mtp2.bsnOf, Mtp2.bibOf, h0]
  exact hd

theorem Holds.fsnOf (h : Holds buf (suFrame bo bi u k)) :
    Mtp2.fsnOf buf = bo.number u.seq ∧ Mtp2.fibOf buf = bo.indicator u.phase := by
  have h1 : buf 1 = seqOctet (bo.number u.seq) (bo.indicator u.phase) := h 1 (by simp [suFrame])
  have hd := seqOctet_toNat (bo.number u.seq) (bo.number_lt _) (bo.indicator u.phase)
  rw [Mtp2.fsnOf, Mtp2.fibOf, h1]
  exact hd

/-- A fill-in unit has nothing behind its length indicator. -/
theorem Holds.fisu (h : Holds buf (suFrame bo bi u k)) (hu : u.body = none) :
    liOf buf = 0 ∧ (suFrame bo bi u k).length = 3 := by
  have hf : suFrame bo bi u k = [seqOctet (bi.number k.got) (bi.indicator k.phase),
      seqOctet (bo.number u.seq) (bo.indicator u.phase), 0] := by
    simp [suFrame, bodyOctets, hu]
  rw [hf] at h ⊢
  have h2 : buf 2 = 0 := h 2 (by simp)
  rw [liOf, h2]
  exact ⟨rfl, rfl⟩

/-- A message unit with a label: its length indicator fits the frame, and its
message is read back. -/
theorem Holds.msu (h : Holds buf (suFrame bo bi u k)) (hu : u.body = some a)
    (ha : 4 ≤ a.sif.length) :
    5 ≤ liOf buf ∧ liOf buf + 3 ≤ (suFrame bo bi u k).length ∧
      msuOf buf (suFrame bo bi u k).length = a := by
  have hf : suFrame bo bi u k = seqOctet (bi.number k.got) (bi.indicator k.phase) ::
      seqOctet (bo.number u.seq) (bo.indicator u.phase) ::
        UInt8.ofNat (if a.sif.length ≥ 62 then 63 else 1 + a.sif.length) :: a.sio :: a.sif := by
    simp [suFrame, bodyOctets, hu, slotOf]
  have hlen : (suFrame bo bi u k).length = 4 + a.sif.length := by
    rw [hf]
    simp only [List.length_cons]
    omega
  have h2 : buf 2 = UInt8.ofNat (if a.sif.length ≥ 62 then 63 else 1 + a.sif.length) := by
    rw [h 2 (by omega), hf]
    rfl
  have h3 : buf 3 = a.sio := by
    rw [h 3 (by omega), hf]
    rfl
  have hli : liOf buf = if a.sif.length ≥ 62 then 63 else 1 + a.sif.length := by
    rw [liOf, h2]
    exact li_toNat _ (by split_ifs <;> omega)
  refine ⟨by rw [hli]; split_ifs <;> omega, by rw [hli, hlen]; split_ifs <;> omega, ?_⟩
  have hsif : octetsFrom buf 4 ((suFrame bo bi u k).length - 4) = a.sif := by
    refine List.ext_getElem (by simp [octetsFrom, hlen]) fun i hi hi' => ?_
    have hb := h (4 + i) (by omega)
    rw [hf] at hb
    simp only [octetsFrom, List.getElem_map, List.getElem_range]
    rw [hb, Nat.add_comm 4 i]
    simp [hi']
  rw [msuOf, h3, hsif]

/-- A frame of the unit kind is no status unit, and as long as it says. -/
theorem Holds.unit (h : Holds buf (suFrame bo bi u k))
    (hlong : ∀ a, u.body = some a → 4 ≤ a.sif.length) :
    liOf buf + 3 ≤ (suFrame bo bi u k).length ∧ ¬ (liOf buf = 1 ∨ liOf buf = 2) := by
  cases hu : u.body with
  | none =>
    obtain ⟨hli, hlen⟩ := h.fisu hu
    omega
  | some a =>
    obtain ⟨hli, hlen, -⟩ := h.msu hu (hlong a hu)
    omega

/-! ## What is in flight -/

/-- A frame in flight: a unit with an acknowledgement, or a status unit. -/
inductive Gram where
  | su (u : DataUnit Msu) (k : Ack)
  | lssu (f : List Octet)

/-- Its octets. -/
def Gram.octets (bo bi : Base) : Gram → List Octet
  | .su u k => suFrame bo bi u k
  | .lssu f => f

/-- The unit a frame carries, for its own direction. -/
def Gram.unit? : Gram → Option (DataUnit Msu)
  | .su u _ => some u
  | .lssu _ => none

/-- The acknowledgement it carries, for the other direction. -/
def Gram.ack? : Gram → Option Ack
  | .su _ k => some k
  | .lssu _ => none

/-- The units in flight. -/
def units (g : List Gram) : List (DataUnit Msu) := g.filterMap Gram.unit?

/-- The acknowledgements in flight. -/
def acks (g : List Gram) : List Ack := g.filterMap Gram.ack?

@[simp] theorem units_su (g : List Gram) : units (.su u k :: g) = u :: units g := rfl

theorem units_concat_su (g : List Gram) : units (g ++ [.su u k]) = units g ++ [u] := by
  simp [units, Gram.unit?]

theorem acks_concat_su (g : List Gram) : acks (g ++ [.su u k]) = acks g ++ [k] := by
  simp [acks, Gram.ack?]

theorem units_concat_lssu (g : List Gram) : units (g ++ [.lssu f]) = units g := by
  simp [units, Gram.unit?]

theorem acks_concat_lssu (g : List Gram) : acks (g ++ [.lssu f]) = acks g := by
  simp [acks, Gram.ack?]

end Mtp2

end Trismedia
