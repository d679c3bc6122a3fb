import Trismedia.Udptl.Fec
/-!
# FEC, the repair

The last sixteen slots of the receiver hold the last sixteen packets
(`Window`): as they came, or repaired, or still bad. An entry whose packets
are all good changes nothing, and an entry over one bad packet repairs it.
At most one packet is bad at a time, and the datagram that repairs it has
exactly one entry over it.
-/


namespace Trismedia

namespace Udptl

open Parity

variable {s e q p m n x c fuel left l stop : ℕ} {sent : List (List UInt8)} {lost bad : ℕ → Prop}
variable {rx : ℕ → UdptlFecRx} {flags : ℕ → Bool} {slot : UdptlFecRx} {group : List ℕ} {z : ℤ}
variable {r r' : Repair}

/-! ## The slots -/

/-- The slot of a packet that came. -/
structure Arrived (s e : ℕ) (sent : List (List UInt8)) (slot : UdptlFecRx) (x : ℕ) : Prop where
  bufLen : slot.bufLen = (sent.getD x []).length
  buf : slot.buf = sent.getD x []
  fecSpan : slot.fecSpan = spanAt s e x
  fecEntries : slot.fecEntries = entriesAt s e x
  fec : ∀ m < entriesAt s e x, slot.fec m = fecEntry s e sent x m
  fecLen : ∀ m < entriesAt s e x, slot.fecLen m = (fecEntry s e sent x m).length

/-- The slot of a packet that was repaired: it may have been filled up with
zeros. -/
structure Repaired (sent : List (List UInt8)) (slot : UdptlFecRx) (x : ℕ) : Prop where
  noFec : slot.fecLen 0 = 0
  buf : ∃ k, slot.buf = sent.getD x [] ++ List.replicate k 0
  bufLen : slot.bufLen = slot.buf.length

/-- The slot of a packet that is missing. -/
structure Missing (slot : UdptlFecRx) : Prop where
  noFec : slot.fecLen 0 = 0
  bufLen : slot.bufLen = -1

/-- **The last sixteen packets** before the packet `q`. -/
structure Window (s e : ℕ) (sent : List (List UInt8)) (lost bad : ℕ → Prop)
    (rx : ℕ → UdptlFecRx) (q : ℕ) : Prop where
  arrived : ∀ x < q, q ≤ x + 16 → ¬ lost x → Arrived s e sent (rx (x % 16)) x
  repaired : ∀ x < q, q ≤ x + 16 → lost x → ¬ bad x → Repaired sent (rx (x % 16)) x
  missing : ∀ x < q, q ≤ x + 16 → lost x → bad x → Missing (rx (x % 16))
  fresh : ∀ w < 16, q ≤ w → (rx w).fecLen 0 = 0

/-- The octet of a slot, or zero after its end. -/
def slotOctet (slot : UdptlFecRx) (j : ℕ) : UInt8 :=
  if slot.bufLen > j then slot.buf.getD j 0 else 0

theorem Arrived.octet (h : Arrived s e sent slot x) (j : ℕ) :
    slotOctet slot j = (sent.getD x []).getD j 0 := by
  unfold slotOctet
  rw [h.bufLen, h.buf]
  split
  · rfl
  · exact (getD_of_le (by omega)).symm

/-- Zeros at the end are no octets. -/
theorem padded_getD (d : List UInt8) (k j : ℕ) :
    (d ++ List.replicate k 0).getD j 0 = d.getD j 0 := by
  rw [List.getD_eq_getElem?_getD, List.getD_eq_getElem?_getD]
  by_cases hj : j < d.length
  · rw [List.getElem?_append_left hj]
  · rw [List.getElem?_append_right (not_lt.1 hj), List.getElem?_eq_none (not_lt.1 hj),
      List.getElem?_replicate]
    split <;> rfl

theorem Repaired.octet (h : Repaired sent slot x) (j : ℕ) :
    slotOctet slot j = (sent.getD x []).getD j 0 := by
  obtain ⟨k, hk⟩ := h.buf
  unfold slotOctet
  rw [h.bufLen, hk, padded_getD]
  split
  · rfl
  · rename_i hlen
    rw [List.length_append] at hlen
    exact (getD_of_le (by omega)).symm

section Good

variable (hw : Window s e sent lost bad rx q) (hne : ∀ ifp ∈ sent, ifp ≠ []) (hq : q ≤ sent.length)
include hw

theorem Window.octet (hx : x < q) (hxq : q ≤ x + 16) (hgood : ¬ bad x) (j : ℕ) :
    slotOctet (rx (x % 16)) j = (sent.getD x []).getD j 0 := by
  by_cases hlost : lost x
  · exact (hw.repaired x hx hxq hlost hgood).octet j
  · exact (hw.arrived x hx hxq hlost).octet j

include hne hq

theorem Window.bufLen_pos (hx : x < q) (hxq : q ≤ x + 16) (hgood : ¬ bad x) :
    0 < (rx (x % 16)).bufLen := by
  have hpos : 0 < (sent.getD x []).length := by
    have hget : sent[x]? = some (sent.getD x []) := getD_mem (by omega)
    exact List.length_pos_of_ne_nil (hne _ (List.mem_of_getElem? hget))
  by_cases hlost : lost x
  · have hrep := hw.repaired x hx hxq hlost hgood
    obtain ⟨k, hk⟩ := hrep.buf
    rw [hrep.bufLen, hk, List.length_append]
    omega
  · rw [(hw.arrived x hx hxq hlost).bufLen]
    omega

end Good

/-! ## Which packet is missing -/

theorem whichFold_good (which : ℤ) (h : ∀ k ∈ group, 0 < (rx k).bufLen) :
    group.foldl (fun which k =>
      if (rx k).bufLen ≤ 0 then (if which = -1 then (k : ℤ) else -2) else which) which = which := by
  induction group generalizing which with
  | nil => rfl
  | cons k group ih =>
    have hk := h k List.mem_cons_self
    rw [List.foldl_cons, if_neg (by omega)]
    exact ih which fun j hj => h j (List.mem_cons_of_mem _ hj)

theorem whichMissing_good (h : ∀ k ∈ group, 0 < (rx k).bufLen) : whichMissing rx group = -1 :=
  whichFold_good (-1) h

theorem whichMissing_one {w : ℕ} (hmem : w ∈ group) (hnd : group.Nodup) (hw : (rx w).bufLen ≤ 0)
    (h : ∀ k ∈ group, k ≠ w → 0 < (rx k).bufLen) : whichMissing rx group = w := by
  obtain ⟨g₁, g₂, rfl⟩ := List.append_of_mem hmem
  obtain ⟨-, hnd₂, hdis⟩ := List.nodup_append.1 hnd
  have h₁ : ∀ k ∈ g₁, 0 < (rx k).bufLen := fun k hk =>
    h k (List.mem_append_left _ hk) (hdis k hk w List.mem_cons_self)
  have h₂ : ∀ k ∈ g₂, 0 < (rx k).bufLen := fun k hk =>
    h k (List.mem_append_right _ (List.mem_cons_of_mem _ hk)) fun heq =>
      (List.nodup_cons.1 hnd₂).1 (heq ▸ hk)
  unfold whichMissing
  rw [List.foldl_append, whichFold_good _ h₁, List.foldl_cons, if_pos hw, if_pos rfl]
  exact whichFold_good _ h₂

/-! ## One entry -/

/-- What `repairEntry` does with the entry `m` of a packet that came. -/
theorem repairEntry_eq (hp : FecParams s e) (ha : Arrived s e sent (rx (p % 16)) p)
    (hm : m < entriesAt s e p) :
    repairEntry (p % 16) m (rx, flags) =
      let group := (groupNumbers s e p m).map (· % 16)
      let which := whichMissing rx group
      if which ≥ 0 then
        some (Function.update rx which.toNat { rx which.toNat with
          buf := (List.range (fecEntry s e sent p m).length).map
            (repairOctet rx group (fecEntry s e sent p m)),
          bufLen := (fecEntry s e sent p m).length }, Function.update flags which.toNat true)
      else
        some (rx, flags) := by
  have hsp : s ≤ p := by
    by_contra hlt
    rw [hp.entriesAt_zero (not_le.1 hlt)] at hm
    omega
  have hmask : mask (((p % 16 : ℕ) : ℤ) + (m : ℤ)) = (p + m) % 16 := by
    unfold mask
    omega
  have hgroup : fecGroup (mask (((p % 16 : ℕ) : ℤ) + (m : ℤ))) (rx (p % 16)).fecSpan
      (rx (p % 16)).fecEntries = some ((groupNumbers s e p m).map (· % 16)) := by
    rw [hmask, ha.fecSpan, ha.fecEntries, spanAt_eq hsp]
    exact fecGroup_eq hp hm
  unfold repairEntry
  simp only
  rw [hgroup, ha.fec m hm, ha.fecLen m hm]
  rfl

section Entry

variable (hp : FecParams s e) (hw : Window s e sent lost bad rx q)
variable (hne : ∀ ifp ∈ sent, ifp ≠ []) (hq : q ≤ sent.length)
variable (hpq : p < q) (hpw : q ≤ p + 16) (harr : ¬ lost p) (hm : m < entriesAt s e p)
variable (hback : q ≤ p - entriesAt s e p * s + 16)
include hp hw hne hq hpq hpw harr hm hback

/-- **An entry over good packets** changes nothing. -/
theorem repairEntry_good (hgood : ∀ x ∈ groupNumbers s e p m, ¬ bad x) :
    repairEntry (p % 16) m (rx, flags) = some (rx, flags) := by
  have hall : ∀ k ∈ (groupNumbers s e p m).map (· % 16), 0 < (rx k).bufLen := by
    intro k hk
    obtain ⟨x, hx, rfl⟩ := List.mem_map.1 hk
    obtain ⟨hlow, hlt⟩ := group_bounds hm hx
    exact hw.bufLen_pos hne hq (by omega) (by omega) (hgood x hx)
  rw [repairEntry_eq hp (hw.arrived p hpq hpw harr) hm]
  simp only [whichMissing_good hall]
  rfl

omit hne hq harr in
/-- One octet of the packet is repaired. -/
theorem repairOctet_eq (hn : n ∈ groupNumbers s e p m) (hbad : bad n) (hlost : lost n)
    (hgood : ∀ x ∈ groupNumbers s e p m, x ≠ n → ¬ bad x) (j : ℕ) :
    repairOctet rx ((groupNumbers s e p m).map (· % 16)) (fecEntry s e sent p m) j =
      (sent.getD n []).getD j 0 := by
  have hmiss : slotOctet (rx (n % 16)) j = 0 := by
    obtain ⟨hlow, hlt⟩ := group_bounds hm hn
    have hlen := (hw.missing n (by omega) (by omega) hlost hbad).bufLen
    unfold slotOctet
    rw [if_neg (by omega)]
  have hrest : ∀ x ∈ groupNumbers s e p m, x ≠ n →
      slotOctet (rx (x % 16)) j = (sent.getD x []).getD j 0 := by
    intro x hx hxn
    obtain ⟨hlow, hlt⟩ := group_bounds hm hx
    exact hw.octet (by omega) (by omega) (hgood x hx hxn) j
  have hnd : (groupNumbers s e p m).Nodup := List.Nodup.of_map _ (hp.group_nodup hm)
  have hrepair := repair (m := fun a b : UInt8 => a ^^^ b) (z := 0)
    (f := fun x => (sent.getD x []).getD j 0) (fun a => UInt8.xor_self) hnd hn hmiss hrest
  have hparity : (fecEntry s e sent p m).getD j 0 =
      parity (· ^^^ ·) 0 (fun x => (sent.getD x []).getD j 0) (groupNumbers s e p m) := by
    unfold fecEntry
    rw [block_getD]
    unfold parity
    rw [List.foldl_map]
  unfold repairOctet
  rw [List.foldl_map, hparity]
  exact hrepair

/-- **An entry over one bad packet** repairs it. -/
theorem repairEntry_bad (flags : ℕ → Bool) (hn : n ∈ groupNumbers s e p m) (hbad : bad n) (hlost : lost n)
    (hgood : ∀ x ∈ groupNumbers s e p m, x ≠ n → ¬ bad x) :
    ∃ fixed k, repairEntry (p % 16) m (rx, flags) =
        some (Function.update rx (n % 16) fixed, Function.update flags (n % 16) true) ∧
      fixed.buf = sent.getD n [] ++ List.replicate k 0 ∧ fixed.bufLen = fixed.buf.length ∧
      fixed.fecLen 0 = 0 := by
  obtain ⟨hlow, hlt⟩ := group_bounds hm hn
  have hmiss := hw.missing n (by omega) (by omega) hlost hbad
  have hwhich : whichMissing rx ((groupNumbers s e p m).map (· % 16)) = ((n % 16 : ℕ) : ℤ) := by
    refine whichMissing_one (List.mem_map_of_mem hn) (hp.group_nodup hm) ?_ fun k hk hkn => ?_
    · rw [hmiss.bufLen]
      decide
    · obtain ⟨x, hx, rfl⟩ := List.mem_map.1 hk
      obtain ⟨hlow', hlt'⟩ := group_bounds hm hx
      exact hw.bufLen_pos hne hq (by omega) (by omega) (hgood x hx fun heq => hkn (by rw [heq]))
  have hlen := le_fecEntry_length sent hn
  refine ⟨{ rx (n % 16) with
    buf := (List.range (fecEntry s e sent p m).length).map
      (repairOctet rx ((groupNumbers s e p m).map (· % 16)) (fecEntry s e sent p m))
    bufLen := (fecEntry s e sent p m).length },
    (fecEntry s e sent p m).length - (sent.getD n []).length, ?_, ?_, ?_, hmiss.noFec⟩
  · rw [repairEntry_eq hp (hw.arrived p hpq hpw harr) hm]
    simp only [hwhich]
    rw [if_pos (by omega), Int.toNat_natCast]
  · refine List.ext_getElem ?_ fun j h1 h2 => ?_
    · rw [List.length_map, List.length_range, List.length_append, List.length_replicate]
      omega
    · have hoct := repairOctet_eq hp hw hpq hpw hm hback hn hbad hlost hgood j
      rw [List.getElem_map, List.getElem_range, hoct]
      by_cases hj : j < (sent.getD n []).length
      · rw [List.getElem_append_left hj, List.getD_eq_getElem?_getD, List.getElem?_eq_getElem hj]
        rfl
      · rw [List.getElem_append_right (not_lt.1 hj), List.getElem_replicate,
          getD_of_le (not_lt.1 hj)]
  · rw [List.length_map, List.length_range]

end Entry

/-! ## The loops -/

theorem repairEntries_quiet (h : ∀ i < left, repairEntry l (m + i) r = some r) :
    repairEntries l left m r = some r := by
  induction left generalizing m with
  | zero => rfl
  | succ left ih =>
    have hfirst := h 0 (Nat.succ_pos _)
    rw [Nat.add_zero] at hfirst
    rw [repairEntries, hfirst]
    refine ih fun i hi => ?_
    rw [Nat.add_assoc, Nat.add_comm 1 i]
    exact h (i + 1) (by omega)

theorem repairEntries_concat (l left m : ℕ) (r : Repair) : repairEntries l (left + 1) m r =
    (repairEntries l left m r).bind (repairEntry l (m + left)) := by
  induction left generalizing m r with
  | zero =>
    show (repairEntry l m r).bind some = repairEntry l m r
    cases repairEntry l m r <;> rfl
  | succ left ih =>
    have hlong : repairEntries l (left + 1 + 1) m r =
        (repairEntry l m r).bind (repairEntries l (left + 1) (m + 1)) := rfl
    have hshort : repairEntries l (left + 1) m r =
        (repairEntry l m r).bind (repairEntries l left (m + 1)) := rfl
    have hidx : m + 1 + left = m + (left + 1) := by omega
    rw [hlong, hshort, Option.bind_assoc]
    congr 1
    funext r
    rw [ih, hidx]

/-- The slot has no entry that changes anything. -/
def Quiet (r : Repair) (l : ℕ) : Prop :=
  (r.1 l).fecLen 0 = 0 ∨ ∀ m < (r.1 l).fecEntries, repairEntry l m r = some r

theorem Quiet.entries (h : Quiet r l) :
    (if (r.1 l).fecLen 0 ≤ 0 then some r else repairEntries l (r.1 l).fecEntries 0 r) = some r := by
  rcases h with h | h
  · rw [if_pos (by omega)]
  · split
    · rfl
    · refine repairEntries_quiet fun i hi => ?_
      rw [Nat.zero_add]
      exact h i hi

/-- One slot more. -/
theorem repairSlots_step (hstop : mask z ≠ stop)
    (h : (if (r.1 (mask z)).fecLen 0 ≤ 0 then some r
      else repairEntries (mask z) (r.1 (mask z)).fecEntries 0 r) = some r') :
    repairSlots stop (fuel + 1) (mask z) r = repairSlots stop fuel (mask (z - 1)) r' := by
  have hnext : mask (((mask z : ℕ) : ℤ) - 1) = mask (z - 1) := by
    unfold mask
    omega
  rw [repairSlots, if_pos hstop]
  simp only [Option.bind_eq_bind, Option.pure_def, hnext]
  by_cases hzero : (r.1 (mask z)).fecLen 0 ≤ 0
  · rw [if_pos hzero] at h ⊢
    cases h
    rfl
  · rw [if_neg hzero] at h ⊢
    rw [h]
    rfl

/-- **The loop over quiet slots** changes nothing. -/
theorem repairSlots_quiet (hc : c < 16) (hfuel : c ≤ fuel) (hstop : stop = mask (z - c))
    (hquiet : ∀ i : ℕ, i < c → Quiet r (mask (z - i))) :
    repairSlots stop fuel (mask z) r = some r := by
  induction c generalizing fuel z with
  | zero =>
    have heq : mask z = stop := by
      rw [hstop]
      congr 1
      omega
    cases fuel with
    | zero => rw [repairSlots, if_neg (not_not.2 heq)]
    | succ fuel =>
      rw [repairSlots, if_neg (not_not.2 heq)]
      rfl
  | succ c ih =>
    obtain ⟨fuel, rfl⟩ : ∃ k, fuel = k + 1 := ⟨fuel - 1, by omega⟩
    have hne : mask z ≠ stop := by
      rw [hstop]
      unfold mask
      omega
    have hfirst := hquiet 0 (Nat.succ_pos _)
    have hz : z - ((0 : ℕ) : ℤ) = z := by omega
    rw [hz] at hfirst
    rw [repairSlots_step hne hfirst.entries]
    refine ih (by omega) (by omega) ?_ fun i hi => ?_
    · rw [hstop]
      congr 1
      omega
    · have hi' := hquiet (i + 1) (by omega)
      have hzi : z - ((i + 1 : ℕ) : ℤ) = z - 1 - i := by omega
      rwa [hzi] at hi'

end Udptl

end Trismedia
