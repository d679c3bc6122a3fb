import Mathlib.Data.List.Range
import Trismedia.Udptl.FecRepair
/-!
# FEC, the receiver

A lost packet is repaired by the datagram after it, or by the first one
that has entries (`repairAt`). Where losses are far apart, that datagram
comes, and no two packets are bad at a time; so every datagram brings its
own packet and the one it repairs, if there is one.
-/


namespace Trismedia

namespace Udptl

variable {buflen s e q p m n x k c fuel left l stop b : ℕ} {sent ifps : List (List UInt8)}
variable {lost bad bad' : ℕ → Prop} {rx : ℕ → UdptlFecRx} {flags : ℕ → Bool}
variable {slot fixed : UdptlFecRx} {z j : ℤ} {r r' : Repair} {ur ur' : UdptlRx} {rest : List UInt8}

/-- The packet that repairs the packet `n`. -/
def repairAt (s n : ℕ) : ℕ := max (n + 1) s

/-- The packet is lost and not repaired by a packet before `q`. -/
def Bad (s : ℕ) (lost : ℕ → Prop) (q x : ℕ) : Prop := lost x ∧ q ≤ repairAt s x

/-- **Isolated losses.** -/
def FarApart (s e : ℕ) (lost : ℕ → Prop) : Prop := ∀ a b, lost a → lost b → a < b → a + s * e < b

/-! ## What the steps do to the window -/

theorem window_new : Window s e sent lost bad newRx.rx 0 where
  arrived := fun x h => absurd h (Nat.not_lt_zero x)
  repaired := fun x h => absurd h (Nat.not_lt_zero x)
  missing := fun x h => absurd h (Nat.not_lt_zero x)
  fresh := fun _ _ _ => rfl

section Steps

variable (hw : Window s e sent lost bad rx q)
include hw

theorem Window.congr (h : ∀ x < q, lost x → (bad x ↔ bad' x)) :
    Window s e sent lost bad' rx q where
  arrived := hw.arrived
  repaired := fun x hx hxq hlost hb => hw.repaired x hx hxq hlost fun hbad =>
    hb ((h x hx hlost).1 hbad)
  missing := fun x hx hxq hlost hb => hw.missing x hx hxq hlost ((h x hx hlost).2 hb)
  fresh := hw.fresh

theorem Window.save (harr : ¬ lost q) (ha : Arrived s e sent slot q) :
    Window s e sent lost bad (Function.update rx (q % 16) slot) (q + 1) where
  arrived := by
    intro x hx hxq hlost
    by_cases hxeq : x = q
    · rw [hxeq, Function.update_self]
      exact ha
    · rw [Function.update_of_ne (by omega)]
      exact hw.arrived x (by omega) (by omega) hlost
  repaired := by
    intro x hx hxq hlost hb
    have hxeq : x ≠ q := fun heq => harr (heq ▸ hlost)
    rw [Function.update_of_ne (by omega)]
    exact hw.repaired x (by omega) (by omega) hlost hb
  missing := by
    intro x hx hxq hlost hb
    have hxeq : x ≠ q := fun heq => harr (heq ▸ hlost)
    rw [Function.update_of_ne (by omega)]
    exact hw.missing x (by omega) (by omega) hlost hb
  fresh := by
    intro w hw' hqw
    rw [Function.update_of_ne (by omega)]
    exact hw.fresh w hw' (by omega)

theorem Window.miss (hlost : lost q) (hbad : bad q) (hm : Missing slot) :
    Window s e sent lost bad (Function.update rx (q % 16) slot) (q + 1) where
  arrived := by
    intro x hx hxq harr
    have hxeq : x ≠ q := fun heq => harr (heq ▸ hlost)
    rw [Function.update_of_ne (by omega)]
    exact hw.arrived x (by omega) (by omega) harr
  repaired := by
    intro x hx hxq hl hb
    have hxeq : x ≠ q := fun heq => hb (heq ▸ hbad)
    rw [Function.update_of_ne (by omega)]
    exact hw.repaired x (by omega) (by omega) hl hb
  missing := by
    intro x hx hxq hl hb
    by_cases hxeq : x = q
    · rw [hxeq, Function.update_self]
      exact hm
    · rw [Function.update_of_ne (by omega)]
      exact hw.missing x (by omega) (by omega) hl hb
  fresh := by
    intro w hw' hqw
    rw [Function.update_of_ne (by omega)]
    exact hw.fresh w hw' (by omega)

theorem Window.mend (hn : n < q) (hnq : q ≤ n + 16) (hlost : lost n)
    (hf : Repaired sent fixed n) :
    Window s e sent lost (fun x => bad x ∧ x ≠ n) (Function.update rx (n % 16) fixed) q where
  arrived := by
    intro x hx hxq harr
    have hxn : x ≠ n := fun heq => harr (heq ▸ hlost)
    rw [Function.update_of_ne (by omega)]
    exact hw.arrived x hx hxq harr
  repaired := by
    intro x hx hxq hl hb
    by_cases hxn : x = n
    · rw [hxn, Function.update_self]
      exact hf
    · rw [Function.update_of_ne (by omega)]
      exact hw.repaired x hx hxq hl fun hbad => hb ⟨hbad, hxn⟩
  missing := by
    rintro x hx hxq hl ⟨hb, hxn⟩
    rw [Function.update_of_ne (by omega)]
    exact hw.missing x hx hxq hl hb
  fresh := by
    intro w hw' hqw
    rw [Function.update_of_ne (by omega)]
    exact hw.fresh w hw' hqw

end Steps

/-! ## Which entry repairs -/

/-- The last entry of the packet is over the packet it repairs. -/
theorem repair_mem (hp : FecParams s e) (hn : repairAt s n = q) :
    n ∈ groupNumbers s e q (entriesAt s e q - 1) := by
  unfold repairAt at hn
  have hpos := hp.entriesAt_pos (n := q) (by omega)
  have hreach := reach_le s e q
  have hspan := hp.span
  unfold groupNumbers
  rw [List.mem_map]
  by_cases hqs : q = s
  · -- the first packet with an entry: it is over all before it
    have hone : entriesAt s e q = 1 := by
      have hmul : entriesAt s e q * s ≤ 1 * s := by omega
      have hle := Nat.le_of_mul_le_mul_right hmul hspan
      omega
    refine ⟨n, List.mem_range.2 (by omega), ?_⟩
    rw [hone]
    omega
  · refine ⟨s - 1, List.mem_range.2 (by omega), ?_⟩
    have hmul : entriesAt s e q * (s - 1) + entriesAt s e q = entriesAt s e q * s := by
      rw [← Nat.mul_succ]
      congr 1
      omega
    omega

/-- The other entries are not. -/
theorem repair_notMem (hp : FecParams s e) (hn : repairAt s n = q)
    (hm : m < entriesAt s e q - 1) : n ∉ groupNumbers s e q m := by
  intro hmem
  unfold repairAt at hn
  have hreach := reach_le s e q
  have hspan := hp.span
  obtain ⟨i, hi, heq⟩ := List.mem_map.1 hmem
  have hstep := Nat.mul_le_mul_left (entriesAt s e q) (List.mem_range.1 hi)
  rw [Nat.mul_succ] at hstep
  by_cases hqs : q = s
  · have hmul : entriesAt s e q * s ≤ 1 * s := by omega
    have hle := Nat.le_of_mul_le_mul_right hmul hspan
    omega
  · omega

/-- Where losses are far apart, the packet that repairs is not lost. -/
theorem FarApart.repairAt_arrives (hp : FecParams s e) (hfar : FarApart s e lost) (hlost : lost n) :
    ¬ lost (repairAt s n) := by
  intro hlost'
  have hlt : n < repairAt s n := by
    unfold repairAt
    omega
  have hgap := hfar n _ hlost hlost' hlt
  have h1 : s * 1 ≤ s * e := Nat.mul_le_mul_left s hp.entries
  have hspan := hp.span
  unfold repairAt at hgap
  omega

/-- One packet repairs only one. -/
theorem FarApart.repairAt_inj (hp : FecParams s e) (hfar : FarApart s e lost) (hlost : lost n)
    (hlost' : lost x) (heq : repairAt s n = repairAt s x) : n = x := by
  have h1 : s * 1 ≤ s * e := Nat.mul_le_mul_left s hp.entries
  unfold repairAt at heq
  rcases lt_trichotomy n x with hlt | hxn | hlt
  · have hgap := hfar n x hlost hlost' hlt
    omega
  · exact hxn
  · have hgap := hfar x n hlost' hlost hlt
    omega

/-! ## The repair of one datagram -/

section Repair

variable (hp : FecParams s e) (hne : ∀ ifp ∈ sent, ifp ≠ []) (hq : q < sent.length)
include hp hne hq

/-- Where nothing is bad the slots are quiet. -/
theorem Window.quiet (flags : ℕ → Bool) (hw : Window s e sent lost bad rx (q + 1)) (hgood : ∀ x ≤ q, ¬ bad x)
    {t : ℕ} (ht : t + entriesAt s e q * s ≤ 15) :
    Quiet (rx, flags) (mask ((q : ℤ) - t)) := by
  by_cases htq : t ≤ q
  · obtain ⟨p, hpq⟩ : ∃ p, q = p + t := ⟨q - t, by omega⟩
    have hmask : mask ((q : ℤ) - t) = p % 16 := by
      unfold mask
      omega
    have hmono := Nat.mul_le_mul_right s (entriesAt_mono (s := s) (e := e) (by omega : p ≤ q))
    have hreach := reach_le s e p
    rw [hmask]
    by_cases hlost : lost p
    · exact .inl (hw.repaired p (by omega) (by omega) hlost (hgood p (by omega))).noFec
    · have ha := hw.arrived p (by omega) (by omega) hlost
      refine .inr fun m hm => ?_
      have hm' : m < entriesAt s e p := ha.fecEntries ▸ hm
      refine repairEntry_good hp hw hne (by omega) (by omega) (by omega) hlost hm' (by omega) ?_
      intro x hx
      have hlt := (group_bounds hm' hx).2
      exact hgood x (by omega)
  · left
    refine hw.fresh _ ?_ ?_
    · unfold mask
      omega
    · unfold mask
      omega

/-- **Nothing is bad**, or there are no entries yet: the repair changes
nothing. -/
theorem repairSlots_good (flags : ℕ → Bool) (hw : Window s e sent lost bad rx (q + 1))
    (hgood : s ≤ q → ∀ x ≤ q, ¬ bad x) :
    repairSlots (mask (((q % 16 : ℕ) : ℤ) -
        (16 - (spanAt s e q : ℤ) * (entriesAt s e q : ℤ)))) 16 (q % 16) (rx, flags) =
      some (rx, flags) := by
  have hmask : mask (q : ℤ) = q % 16 := mask_natCast q
  rw [← hmask]
  by_cases hqs : q < s
  · rw [hp.spanAt_zero hqs]
    refine repairSlots_quiet (c := 0) (by omega) (by omega) ?_ fun i hi => by omega
    rw [hmask]
    unfold mask
    omega
  · have hpos := hp.entriesAt_pos (n := q) (not_lt.1 hqs)
    have hlt := hp.reach_lt (n := q)
    have hone : 1 * 1 ≤ entriesAt s e q * s := Nat.mul_le_mul hpos hp.span
    have hcast : (s : ℤ) * (entriesAt s e q : ℤ) = ((entriesAt s e q * s : ℕ) : ℤ) := by
      rw [Nat.mul_comm]
      exact (Int.natCast_mul _ _).symm
    rw [spanAt_eq (not_lt.1 hqs), hcast]
    refine repairSlots_quiet (c := 16 - entriesAt s e q * s) (by omega) (by omega) ?_ ?_
    · rw [hmask]
      unfold mask
      omega
    · intro i hi
      exact hw.quiet hp hne hq flags (hgood (not_lt.1 hqs)) (by omega)

/-- **One packet is bad**, and the datagram repairs it. -/
theorem repairSlots_bad (flags : ℕ → Bool) (hw : Window s e sent lost bad rx (q + 1)) (harr : ¬ lost q)
    (hn : repairAt s n = q) (hlost : lost n) (hbad : bad n)
    (hgood : ∀ x ≤ q, x ≠ n → ¬ bad x) :
    ∃ fixed, repairSlots (mask (((q % 16 : ℕ) : ℤ) -
          (16 - (spanAt s e q : ℤ) * (entriesAt s e q : ℤ)))) 16 (q % 16) (rx, flags) =
        some (Function.update rx (n % 16) fixed, Function.update flags (n % 16) true) ∧
      Repaired sent fixed n := by
  have hqs : s ≤ q := by
    unfold repairAt at hn
    omega
  have hpos := hp.entriesAt_pos hqs
  have hlt := hp.reach_lt (n := q)
  have hreach := reach_le s e q
  have hone : 1 * 1 ≤ entriesAt s e q * s := Nat.mul_le_mul hpos hp.span
  have ha := hw.arrived q (by omega) (by omega) harr
  have hmem := repair_mem hp hn
  obtain ⟨hlow, hnq⟩ := group_bounds (by omega) hmem
  have hcast : (s : ℤ) * (entriesAt s e q : ℤ) = ((entriesAt s e q * s : ℕ) : ℤ) := by
    rw [Nat.mul_comm]
    exact (Int.natCast_mul _ _).symm
  have hmask : mask (q : ℤ) = q % 16 := mask_natCast q
  -- the entries of this packet: the last one repairs
  obtain ⟨fixed, k, hrep, hbuf, hlen, hnofec⟩ := repairEntry_bad hp hw hne
    (by omega) (by omega) (by omega) harr (by omega : entriesAt s e q - 1 < entriesAt s e q)
    (by omega) flags hmem hbad hlost fun x hx hxn => hgood x (by
      have hx' := (group_bounds (by omega) hx).2
      omega) hxn
  have hfixed : Repaired sent fixed n := ⟨hnofec, ⟨k, hbuf⟩, hlen⟩
  have hentries : repairEntries (q % 16) (entriesAt s e q) 0 (rx, flags) =
      some (Function.update rx (n % 16) fixed, Function.update flags (n % 16) true) := by
    obtain ⟨t, ht⟩ : ∃ t, entriesAt s e q = t + 1 := ⟨entriesAt s e q - 1, by omega⟩
    rw [ht, Nat.add_sub_cancel] at hrep
    rw [ht, repairEntries_concat, repairEntries_quiet fun i hi => ?_]
    · rw [Option.bind_some, Nat.zero_add]
      exact hrep
    · rw [Nat.zero_add]
      refine repairEntry_good hp hw hne (by omega) (by omega) (by omega) harr (by omega) (by omega) ?_
      intro x hx
      have hx' := (group_bounds (by omega) hx).2
      refine hgood x (by omega) fun heq => ?_
      exact repair_notMem hp hn (by omega : i < entriesAt s e q - 1) (heq ▸ hx)
  have hfec : ¬ (rx (q % 16)).fecLen 0 ≤ 0 := by
    have hentry : n ∈ groupNumbers s e q (entriesAt s e q - 1) := hmem
    obtain ⟨x, hx⟩ : ∃ x, x ∈ groupNumbers s e q 0 := by
      unfold groupNumbers
      exact ⟨_, List.mem_map_of_mem (List.mem_range.2 (by have := hp.span; omega : 0 < s))⟩
    have hx' := (group_bounds (by omega) hx).2
    have hle := le_fecEntry_length sent hx
    have hxpos := List.length_pos_of_ne_nil
      (hne _ (List.mem_of_getElem? (getD_mem (x := x) (by omega))))
    rw [ha.fecLen 0 (by omega)]
    omega
  have hw' := hw.mend (by omega) (by omega) hlost hfixed
  refine ⟨fixed, ?_, hfixed⟩
  rw [spanAt_eq hqs, hcast, ← hmask]
  have hstop : mask (((mask (q : ℤ) : ℕ) : ℤ) - (16 - ((entriesAt s e q * s : ℕ) : ℤ))) =
      mask ((q : ℤ) - 1 - ((15 - entriesAt s e q * s : ℕ) : ℤ)) := by
    unfold mask
    omega
  have hne' : mask (q : ℤ) ≠ mask (((mask (q : ℤ) : ℕ) : ℤ) -
      (16 - ((entriesAt s e q * s : ℕ) : ℤ))) := by
    unfold mask
    omega
  have hfirst : (if (rx (mask (q : ℤ))).fecLen 0 ≤ 0 then some (rx, flags)
      else repairEntries (mask (q : ℤ)) (rx (mask (q : ℤ))).fecEntries 0 (rx, flags)) =
      some (Function.update rx (n % 16) fixed, Function.update flags (n % 16) true) := by
    rw [hmask, if_neg hfec, ha.fecEntries]
    exact hentries
  rw [repairSlots_step hne' hfirst]
  refine repairSlots_quiet (c := 15 - entriesAt s e q * s) (by omega) (by omega) hstop ?_
  intro i hi
  have hquiet := hw'.quiet hp hne hq (Function.update flags (n % 16) true)
    (fun x hx hb => hgood x hx hb.2 hb.1) (t := i + 1) (by omega)
  have hidx : (q : ℤ) - ((i + 1 : ℕ) : ℤ) = (q : ℤ) - 1 - i := by omega
  rwa [hidx] at hquiet

end Repair

end Udptl

end Trismedia
