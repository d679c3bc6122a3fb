import Trismedia.Isup.GroupReset
/-!
# The answer to a group reset

The loops one after the other: what the marks are after some circuits, what the
circuits are behind the second loop, and how they are freed. A blocking in front
of the acknowledgement is never accepted, and neither is the acknowledgement for
one circuit.
-/


namespace Trismedia

namespace Isup

namespace Group

open Mtp2 Isup.Union

variable {s s' t t' : Circuits} {ls : Linkset} {grsMsg : Received} {moves : Moves} {pvt : Pvt}
variable {m : Marks} {range n i cic chan : ℕ} {isMarked : ℕ → Bool}

/-! ## The marks -/

/-- **The marks of the first `n` circuits**, and the place of the next. -/
structure Marks.At (m : Marks) (range n : ℕ) (isMarked : ℕ → Bool) : Prop where
  place : m.i = 1 + n / 8
  mask : m.mask = 2 ^ (n % 8)
  range : m.param 0 = UInt8.ofNat range
  bit : ∀ k, (m.param (1 + k / 8)).toNat.testBit (k % 8) = (decide (k < n) && isMarked k)

theorem Marks.at_start : (Marks.start range).At range 0 isMarked where
  place := rfl
  mask := rfl
  range := rfl
  bit := by
    intro k
    have hplace : ¬1 + k / 8 = 0 := by omega
    show (if 1 + k / 8 = 0 then UInt8.ofNat range else 0).toNat.testBit _ = _
    rw [if_neg hplace, decide_eq_false (Nat.not_lt_zero k), Bool.false_and]
    exact Nat.zero_testBit _

/-- One circuit more. -/
theorem Marks.At.next (h : m.At range n isMarked) :
    (if isMarked n = true then m.mark else m).next.At range (n + 1) isMarked := by
  -- the circuit is marked in its place
  have hmask : m.mask < 256 := by
    rw [h.mask]
    exact Nat.pow_lt_pow_right (by omega) (Nat.mod_lt n (by omega))
  have hmark : ∀ k, ((if isMarked n = true then m.mark else m).param (1 + k / 8)).toNat.testBit (k % 8) =
      (decide (k < n + 1) && isMarked k) := by
    intro k
    have hlt : decide (k < n + 1) = (decide (k < n) || decide (k = n)) := by
      rw [← Bool.decide_or]
      exact decide_eq_decide.2 (by omega)
    by_cases hn : isMarked n = true
    · rw [if_pos hn, Marks.mark]
      dsimp only
      rw [h.place, hlt]
      by_cases hk : k / 8 = n / 8
      · rw [hk, Function.update_self, UInt8.toNat_or, Nat.testBit_or, ← hk, h.bit,
          UInt8.toNat_ofNat', Nat.mod_eq_of_lt hmask, h.mask, Nat.testBit_two_pow]
        by_cases heq : k = n
        · rw [heq, hn, decide_eq_true rfl, decide_eq_true rfl]
          simp
        · rw [decide_eq_false heq, decide_eq_false (p := n % 8 = k % 8) (by omega)]
          simp
      · rw [Function.update_of_ne (by omega), h.bit, decide_eq_false (p := k = n) (by omega),
          Bool.or_false]
    · rw [if_neg hn, h.bit, hlt]
      by_cases heq : k = n
      · rw [heq, Bool.eq_false_iff.2 hn, Bool.and_false, Bool.and_false]
      · rw [decide_eq_false heq, Bool.or_false]
  have hfield : ∀ b : Bool, (if b = true then m.mark else m).i = m.i ∧
      (if b = true then m.mark else m).mask = m.mask ∧
        (if b = true then m.mark else m).param 0 = m.param 0 := by
    intro b
    cases b with
    | false => exact ⟨rfl, rfl, rfl⟩
    | true =>
      refine ⟨rfl, rfl, ?_⟩
      have hplace : (0 : ℕ) ≠ m.i := by
        rw [h.place]
        omega
      exact Function.update_of_ne hplace _ _
  obtain ⟨hi, hm, hzero⟩ := hfield (isMarked n)
  generalize (if isMarked n = true then m.mark else m) = m' at hmark hi hm hzero ⊢
  have hshift : m'.mask <<< 1 = 2 ^ (n % 8 + 1) := by
    rw [hm, h.mask, Nat.shiftLeft_eq, ← Nat.pow_add]
  unfold Marks.next
  dsimp only
  rw [hshift]
  by_cases hlast : n % 8 = 7
  · rw [if_pos (by rw [hlast]; decide)]
    refine ⟨?_, ?_, hzero.trans h.range, hmark⟩
    · show m'.i + 1 = _
      rw [hi, h.place]
      omega
    · show 1 = 2 ^ ((n + 1) % 8)
      rw [show (n + 1) % 8 = 0 by omega, Nat.pow_zero]
  · rw [if_neg]
    · refine ⟨?_, ?_, hzero.trans h.range, hmark⟩
      · show m'.i = _
        rw [hi, h.place]
        omega
      · show 2 ^ (n % 8 + 1) = 2 ^ ((n + 1) % 8)
        rw [show (n + 1) % 8 = n % 8 + 1 by omega]
    · intro heq
      have hpow : n % 8 + 1 = 8 := Nat.pow_right_injective (Nat.le_refl 2) heq
      omega

/-- **The octets**: the range, and the status. -/
theorem Marks.At.octets (h : m.At range n isMarked) : m.octets =
    UInt8.ofNat range :: (List.range ((n + 7) / 8)).map fun j => m.param (1 + j) := by
  have hcount : (if m.mask ≠ 1 then m.i + 1 else m.i) = (n + 7) / 8 + 1 := by
    by_cases hpad : n % 8 = 0
    · rw [if_neg, h.place]
      · omega
      · rw [h.mask, hpad, Nat.pow_zero]
        exact not_not.2 rfl
    · rw [if_pos, h.place]
      · omega
      · rw [h.mask]
        intro heq
        have hpow : n % 8 = 0 := Nat.pow_right_injective (Nat.le_refl 2) heq
        exact hpad hpow
  unfold Marks.octets
  rw [hcount, List.range_succ_eq_map, List.map_cons, List.map_map, h.range]
  refine congrArg _ (List.map_congr_left fun j _ => ?_)
  rw [Function.comp_apply, Nat.add_comm 1 j]

/-! ## The first loop -/

theorem equippedAt_some (h : s.cicList i = some pvt) : s.equippedAt i = pvt.equipped := by
  unfold Circuits.equippedAt
  rw [h]
  rfl

theorem blockedAt_some {bit : BitVec 32} (h : s.cicList i = some pvt) :
    s.blockedAt bit i = decide (pvt.blocked &&& bit ≠ 0) := by
  unfold Circuits.blockedAt
  rw [h]
  rfl

/-- A circuit that is not equipped ends it. -/
theorem hwBlockLoop_none {first : ℕ} : ∀ left cic h,
    (∃ i, cic ≤ i ∧ i < cic + left ∧ s.equippedAt i = false) → hwBlockLoop s first left cic h = none := by
  intro left
  induction left with
  | zero =>
    rintro cic h ⟨i, hge, hlt, -⟩
    omega
  | succ left ih =>
    rintro cic h ⟨i, hge, hlt, hnot⟩
    unfold hwBlockLoop
    rcases hpvt : s.cicList cic with _ | pvt
    · rfl
    · dsimp only
      by_cases hequipped : pvt.equipped = true
      · have hne : i ≠ cic := by
          rintro rfl
          rw [equippedAt_some hpvt, hequipped] at hnot
          exact absurd hnot Bool.true_eq_false_eq_False.elim
        rw [hequipped, Bool.not_true, if_neg Bool.false_ne_true]
        exact ih (cic + 1) _ ⟨i, by omega, by omega, hnot⟩
      · rw [Bool.eq_false_iff.2 hequipped, Bool.not_false, if_pos rfl]

/-- **The first loop** tells whether a circuit is hardware blocked. -/
theorem hwBlockLoop_some {first : ℕ} : ∀ left cic h,
    (∀ i, cic ≤ i → i < cic + left → s.equippedAt i = true) →
      ∃ h', hwBlockLoop s first left cic h = some h' ∧ (h'.needHwBlock = true ↔
        h.needHwBlock = true ∨ ∃ i, cic ≤ i ∧ i < cic + left ∧ s.blockedAt blLh i = true) := by
  intro left
  induction left with
  | zero =>
    intro cic h _
    refine ⟨h, rfl, fun hneed => Or.inl hneed, ?_⟩
    rintro (hneed | ⟨i, hge, hlt, -⟩)
    · exact hneed
    · omega
  | succ left ih =>
    intro cic h hall
    obtain ⟨pvt, hpvt⟩ := Option.isSome_iff_exists.1
      (equippedAt_eq_true (hall cic (Nat.le_refl _) (by omega)))
    have hequipped : pvt.equipped = true := by
      rw [← equippedAt_some hpvt]
      exact hall cic (Nat.le_refl _) (by omega)
    obtain ⟨h', hloop, hneed⟩ := ih (cic + 1) (hwBlockRound cic first pvt h)
      fun i hge hlt => hall i (by omega) (by omega)
    have hround : (hwBlockRound cic first pvt h).needHwBlock = true ↔
        h.needHwBlock = true ∨ s.blockedAt blLh cic = true := by
      rw [blockedAt_some hpvt, decide_eq_true_iff]
      unfold hwBlockRound
      by_cases hbit : pvt.blocked &&& blLh ≠ 0
      · rw [if_pos hbit]
        exact ⟨fun _ => Or.inr hbit, fun _ => rfl⟩
      · rw [if_neg hbit]
        exact ⟨Or.inl, fun h => h.resolve_right hbit⟩
    refine ⟨h', ?_, ?_⟩
    · rw [hwBlockLoop, hpvt]
      dsimp only
      rw [hequipped, Bool.not_true, if_neg Bool.false_ne_true, hloop]
    · rw [hneed, hround, or_assoc]
      refine or_congr_right ⟨?_, ?_⟩
      · rintro (hhere | ⟨i, hge, hlt, hbit⟩)
        · exact ⟨cic, Nat.le_refl _, by omega, hhere⟩
        · exact ⟨i, by omega, by omega, hbit⟩
      · rintro ⟨i, hge, hlt, hbit⟩
        rcases Nat.eq_or_lt_of_le hge with heq | hgt
        · exact Or.inl (heq ▸ hbit)
        · exact Or.inr ⟨i, hgt, by omega, hbit⟩

/-! ## The second loop -/

/-- What the second loop does to a circuit. -/
def unblock (pvt : Pvt) : Pvt := { pvt with blocked := unblocked pvt.blocked }

theorem unblocked_and_blLm (blocked : BitVec 32) : unblocked blocked &&& blLm = blocked &&& blLm := by
  have hkeeps : ~~~(blRm ||| blRh ||| blUnequipped) &&& blLm = blLm := by decide
  rw [unblocked, BitVec.and_assoc, hkeeps]

/-- **The second loop** marks what is maintenance blocked, and unblocks each
circuit of the range for the other end. -/
theorem graLoop_spec : ∀ left k t m, k + left = n →
    (∀ j, k ≤ j → j < n → t.equippedAt (cic + j) = true ∧ t.blockedAt blLm (cic + j) = isMarked j) →
      m.At range k isMarked →
        ∃ t' m', graLoop left (cic + k) t m = (t', some m') ∧ m'.At range n isMarked ∧
          t'.out = t.out ∧ t'.idleList = t.idleList ∧ ∀ i, t'.cicList i =
            if cic + k ≤ i ∧ i < cic + n then (t.cicList i).map unblock else t.cicList i := by
  intro left
  induction left with
  | zero =>
    intro k t m hk _ hm
    obtain rfl : k = n := hk
    exact ⟨t, m, rfl, hm, rfl, rfl, fun i => by rw [if_neg (by omega)]⟩
  | succ left ih =>
    intro k t m hk hall hm
    obtain ⟨hequipped, hbit⟩ := hall k (Nat.le_refl _) (by omega)
    obtain ⟨pvt, hpvt⟩ := Option.isSome_iff_exists.1 (equippedAt_eq_true hequipped)
    rw [equippedAt_some hpvt] at hequipped
    rw [blockedAt_some hpvt] at hbit
    have hmark : (if unblocked pvt.blocked &&& blLm ≠ 0 then m.mark else m) =
        if isMarked k = true then m.mark else m := by
      rw [unblocked_and_blLm, ← hbit]
      exact if_congr decide_eq_true_iff.symm rfl rfl
    have hrest : ∀ j, k + 1 ≤ j → j < n →
        (t.modify (cic + k) unblock).equippedAt (cic + j) = true ∧
          (t.modify (cic + k) unblock).blockedAt blLm (cic + j) = isMarked j := by
      intro j hge hlt
      have hother : (t.modify (cic + k) unblock).cicList (cic + j) = t.cicList (cic + j) := by
        rw [modify_cicList, Function.update_of_ne (by omega)]
      obtain ⟨hj, hjbit⟩ := hall j (by omega) hlt
      unfold Circuits.equippedAt at hj ⊢
      unfold Circuits.blockedAt at hjbit ⊢
      rw [hother]
      exact ⟨hj, hjbit⟩
    obtain ⟨t', m', hloop, hm', hout, hidle, hlist⟩ := ih (k + 1) (t.modify (cic + k) unblock)
      (if isMarked k = true then m.mark else m).next (by omega) hrest hm.next
    refine ⟨t', m', ?_, hm', hout, hidle, fun i => ?_⟩
    · rw [graLoop, hpvt]
      dsimp only
      rw [hequipped, Bool.not_true, if_neg Bool.false_ne_true, hmark]
      exact hloop
    · rw [hlist, modify_cicList]
      by_cases hi : i = cic + k
      · rw [hi, if_neg (by omega), Function.update_self, if_pos (by omega)]
      · rw [Function.update_of_ne hi]
        exact if_congr (by omega) rfl rfl

/-! ## The third loop -/

theorem ofCalls_append {mid mid' : List Output} (h : OfCalls moves mid) (h' : OfCalls moves mid') :
    OfCalls moves (mid ++ mid') := by
  intro msg hmsg
  rcases List.mem_append.1 hmsg with hmsg | hmsg
  · exact h msg hmsg
  · exact h' msg hmsg

theorem ofCalls_hangup {c : ℕ} : OfCalls moves [.hangup c] := by
  intro msg hmsg
  exact absurd (List.mem_singleton.1 hmsg) Output.noConfusion

theorem ofCalls_nil : OfCalls moves [] := fun _ hmsg => absurd hmsg List.not_mem_nil

/-- Idle, and without a channel. -/
def IsFree (pvt : Pvt) : Prop := pvt.state = .idle ∧ pvt.owner = none

/-- A circuit is as it was, or is free, or has the call of `chan`. -/
def MovedTo (chan : ℕ) (old new : Option Pvt) : Prop :=
  new = old ∨ ∃ g : Pvt → Pvt, new = old.map g ∧
    ∀ pvt, IsFree (g pvt) ∨ (g pvt).state = .sentIam ∧ (g pvt).owner = some chan

theorem isSome_update (l : ℕ → Option Pvt) (g : Pvt → Pvt) :
    (Function.update l cic ((l cic).map g) i).isSome = (l i).isSome := by
  by_cases hi : i = cic
  · rw [hi, Function.update_self, Option.isSome_map]
  · rw [Function.update_of_ne hi]

theorem freeCic_self (h : (s.cicList cic).isSome) :
    ∃ pvt, (s.freeCic cic).cicList cic = some pvt ∧ IsFree pvt := by
  obtain ⟨pvt, hpvt⟩ := Option.isSome_iff_exists.1 h
  refine ⟨{ pvt with state := .idle, owner := none }, ?_, rfl, rfl⟩
  rw [freeCic_cicList, Function.update_self, hpvt]
  rfl

theorem freeCic_other (h : i ≠ cic) : (s.freeCic cic).cicList i = s.cicList i := by
  rw [freeCic_cicList, Function.update_of_ne h]

theorem mem_freeCic : i ∈ (s.freeCic cic).idleList ↔ i = cic ∨ i ∈ s.idleList := by
  unfold Circuits.freeCic Circuits.addToIdlelist
  by_cases hmem : cic ∈ (s.modify cic fun pvt => { pvt with state := .idle, owner := none }).idleList
  · rw [if_pos hmem]
    exact ⟨Or.inr, fun h => h.elim (fun heq => heq ▸ hmem) id⟩
  · rw [if_neg hmem]
    exact List.mem_cons

theorem freeCic_out : (s.freeCic cic).out = s.out := by
  unfold Circuits.freeCic Circuits.addToIdlelist
  split_ifs <;> rfl

/-- **The call that is moved** goes out on its circuit, or frees it. -/
theorem ss7Call_spec {newpvt : ℕ} :
    (∃ mid, (s.ss7Call moves chan newpvt).out = s.out ++ mid ∧ OfCalls moves mid) ∧
      ∃ g : Pvt → Pvt, (s.ss7Call moves chan newpvt).cicList =
          Function.update s.cicList newpvt ((s.cicList newpvt).map g) ∧
        ∀ pvt, IsFree (g pvt) ∨ (g pvt).state = .sentIam ∧ (g pvt).owner = pvt.owner := by
  unfold Circuits.ss7Call
  rcases hmsgs : moves.ss7Call s newpvt with _ | msgs
  · exact ⟨⟨[.hangup chan], freeCic_out, ofCalls_hangup⟩, _, freeCic_cicList,
      fun pvt => Or.inl ⟨rfl, rfl⟩⟩
  · refine ⟨⟨msgs.map Output.message, rfl, fun msg hmsg => ?_⟩, _, rfl, fun pvt => Or.inr ⟨rfl, rfl⟩⟩
    obtain ⟨msg', hmsg', heq⟩ := List.mem_map.1 hmsg
    exact ⟨s, newpvt, msgs, hmsgs, Output.message.inj heq ▸ hmsg'⟩

/-- What the hunt and the call change, the circuit of the call apart. -/
theorem hunted_spec {idle : List ℕ} (newpvt : ℕ) :
    (∃ mid, (({ s with idleList := idle }.modify newpvt fun pvt => { pvt with owner := some chan }).ss7Call
        moves chan newpvt).out = s.out ++ mid ∧ OfCalls moves mid) ∧
      ∀ i, MovedTo chan (s.cicList i) ((({ s with idleList := idle }.modify newpvt fun pvt =>
        { pvt with owner := some chan }).ss7Call moves chan newpvt).cicList i) := by
  obtain ⟨hout, g, hlist, hg⟩ := @ss7Call_spec
    ({ s with idleList := idle }.modify newpvt fun pvt => { pvt with owner := some chan }) moves chan newpvt
  refine ⟨hout, fun i => ?_⟩
  rw [hlist]
  by_cases hi : i = newpvt
  · refine Or.inr ⟨fun pvt => g { pvt with owner := some chan }, ?_, fun pvt => hg _⟩
    rw [hi, modify_cicList, update_map_map, Function.update_self]
  · refine Or.inl ?_
    rw [modify_cicList, Function.update_of_ne hi, Function.update_of_ne hi]

/-- **A call is moved** away from its circuit, which is freed. -/
theorem reattemptCall_spec (h : (s.cicList cic).isSome) :
    (∃ mid, (s.reattemptCall moves cic chan).out = s.out ++ mid ∧ OfCalls moves mid) ∧
      (∃ pvt, (s.reattemptCall moves cic chan).cicList cic = some pvt ∧ IsFree pvt) ∧
        cic ∈ (s.reattemptCall moves cic chan).idleList ∧
          ∀ i, i ≠ cic → MovedTo chan (s.cicList i) ((s.reattemptCall moves cic chan).cicList i) := by
  unfold Circuits.reattemptCall
  dsimp only
  have hother : ∀ i, i ≠ cic →
      (s.modify cic fun pvt => { pvt.clear [.t7] with owner := none }).cicList i = s.cicList i :=
    fun i hi => Function.update_of_ne hi _ _
  have hself : ((s.modify cic fun pvt => { pvt.clear [.t7] with owner := none }).cicList cic).isSome :=
    (isSome_update s.cicList _).trans h
  have hout : (s.modify cic fun pvt => { pvt.clear [.t7] with owner := none }).out = s.out := rfl
  generalize (s.modify cic fun pvt => { pvt.clear [.t7] with owner := none }) = s₁ at hother hself hout ⊢
  rcases (moves.cicHunt s₁).1 with _ | newpvt
  · refine ⟨⟨[.hangup chan], ?_, ofCalls_hangup⟩, freeCic_self hself, mem_freeCic.2 (Or.inl rfl),
      fun i hi => Or.inl ?_⟩
    · rw [freeCic_out, ← hout]
      rfl
    · rw [freeCic_other hi]
      exact hother i hi
  · obtain ⟨⟨mid, hmid, hcalls⟩, hlist⟩ :=
      @hunted_spec s₁ moves chan (moves.cicHunt s₁).2 newpvt
    refine ⟨⟨mid, ?_, hcalls⟩, freeCic_self ?_, mem_freeCic.2 (Or.inl rfl), fun i hi => ?_⟩
    · rw [freeCic_out, ← hout]
      exact hmid
    · rcases hlist cic with hsame | ⟨g, hmap, -⟩
      · rw [hsame]
        exact hself
      · rw [hmap, Option.isSome_map]
        exact hself
    · rw [freeCic_other hi, ← hother i hi]
      exact hlist i

/-- A circuit is freed behind what leaves the others, and the idle list, as they
are. -/
theorem freeCic_spec (hself : (t.cicList cic).isSome) (hother : ∀ i, i ≠ cic → t.cicList i = s.cicList i)
    (hidle : t.idleList = s.idleList) :
    (∃ pvt, (t.freeCic cic).cicList cic = some pvt ∧ IsFree pvt) ∧ cic ∈ (t.freeCic cic).idleList ∧
      ∀ i, i ≠ cic → (t.freeCic cic).cicList i = s.cicList i ∧
        (i ∈ s.idleList → i ∈ (t.freeCic cic).idleList) := by
  refine ⟨freeCic_self hself, mem_freeCic.2 (Or.inl rfl), fun i hi => ⟨?_, fun hmem => ?_⟩⟩
  · rw [freeCic_other hi, hother i hi]
  · exact mem_freeCic.2 (Or.inr (hidle ▸ hmem))

/-- **A round**: nothing is done for an idle circuit. Another is freed, and the
others stay as they are unless a call is moved. -/
theorem freeRound_spec (hpvt : t.cicList cic = some pvt) (hround : freeRound moves cic t = some t') :
    (∃ mid, t'.out = t.out ++ mid ∧ OfCalls moves mid) ∧
      (pvt.state = .idle ∧ t' = t ∨
        (∃ pvt', t'.cicList cic = some pvt' ∧ IsFree pvt') ∧ cic ∈ t'.idleList ∧
          ((∀ i, i ≠ cic → t'.cicList i = t.cicList i ∧ (i ∈ t.idleList → i ∈ t'.idleList)) ∨
            ∃ chan, pvt.state = .sentIam ∧ pvt.owner = some chan ∧
              ∀ i, i ≠ cic → MovedTo chan (t.cicList i) (t'.cicList i))) := by
  have hsome : (t.cicList cic).isSome := by
    rw [hpvt]
    rfl
  -- timers are cleared, and the circuit is freed
  have hcleared : ∀ ts, some ((t.modify cic (Pvt.clear ts)).freeCic cic) = some t' →
      (∃ mid, t'.out = t.out ++ mid ∧ OfCalls moves mid) ∧
        ((∃ pvt', t'.cicList cic = some pvt' ∧ IsFree pvt') ∧ cic ∈ t'.idleList ∧
          ∀ i, i ≠ cic → t'.cicList i = t.cicList i ∧ (i ∈ t.idleList → i ∈ t'.idleList)) := by
    intro ts h
    rw [← Option.some.inj h]
    refine ⟨⟨[], ?_, ofCalls_nil⟩, freeCic_spec ((isSome_update t.cicList _).trans hsome)
      (fun i hi => Function.update_of_ne hi _ _) rfl⟩
    rw [freeCic_out, List.append_nil]
    rfl
  -- the channel is asked to hang up, and the circuit is freed
  have hhangup : (pvt.owner.map fun chan => (t.requestHangup (some chan)).freeCic cic) = some t' →
      (∃ mid, t'.out = t.out ++ mid ∧ OfCalls moves mid) ∧
        ((∃ pvt', t'.cicList cic = some pvt' ∧ IsFree pvt') ∧ cic ∈ t'.idleList ∧
          ∀ i, i ≠ cic → t'.cicList i = t.cicList i ∧ (i ∈ t.idleList → i ∈ t'.idleList)) := by
    intro h
    obtain ⟨c, -, rfl⟩ := Option.map_eq_some_iff.1 h
    exact ⟨⟨[.hangup c], freeCic_out, ofCalls_hangup⟩, freeCic_spec hsome (fun i _ => rfl) rfl⟩
  unfold freeRound at hround
  rw [hpvt, Option.bind_some] at hround
  rcases hstate : pvt.state with _ | _ | _ | _ | _ | _ | _ | _ | _ <;> rw [hstate] at hround <;>
    dsimp only at hround
  case idle =>
    obtain rfl := Option.some.inj hround
    exact ⟨⟨[], (List.append_nil _).symm, ofCalls_nil⟩, Or.inl ⟨rfl, rfl⟩⟩
  case sentIam =>
    obtain ⟨c, howner, rfl⟩ := Option.map_eq_some_iff.1 hround
    obtain ⟨hout, hself, hidle, hother⟩ := @reattemptCall_spec t moves cic c hsome
    exact ⟨hout, Or.inr ⟨hself, hidle, Or.inr ⟨c, rfl, howner, hother⟩⟩⟩
  case sentRel =>
    obtain ⟨hout, hself, hidle, hother⟩ := hcleared _ hround
    exact ⟨hout, Or.inr ⟨hself, hidle, Or.inl hother⟩⟩
  case sentAcm =>
    obtain ⟨hout, hself, hidle, hother⟩ := hcleared _ hround
    exact ⟨hout, Or.inr ⟨hself, hidle, Or.inl hother⟩⟩
  case gotRel =>
    obtain ⟨hself, hidle, hother⟩ := @freeCic_spec t t cic hsome (fun i _ => rfl) rfl
    obtain rfl := Option.some.inj hround
    exact ⟨⟨[], freeCic_out.trans (List.append_nil _).symm, ofCalls_nil⟩,
      Or.inr ⟨hself, hidle, Or.inl hother⟩⟩
  all_goals
    obtain ⟨hout, hself, hidle, hother⟩ := hhangup hround
    exact ⟨hout, Or.inr ⟨hself, hidle, Or.inl hother⟩⟩

/-- A round needs the channel of a call. -/
theorem freeRound_isSome (hpvt : t.cicList cic = some pvt) :
    (freeRound moves cic t).isSome = true ↔ (ofCall pvt.state = true → pvt.owner ≠ none) := by
  have howner : ∀ f : ℕ → Circuits, (pvt.owner.map f).isSome = true ↔ pvt.owner ≠ none := by
    intro f
    rw [Option.isSome_map]
    exact Option.isSome_iff_ne_none
  unfold freeRound
  rw [hpvt, Option.bind_some]
  rcases hstate : pvt.state with _ | _ | _ | _ | _ | _ | _ | _ | _ <;> dsimp only
  case idle | sentRel | sentAcm | gotRel =>
    exact ⟨fun _ h => absurd h (by decide), fun _ => rfl⟩
  all_goals
    rw [howner]
    exact ⟨fun h _ => h, fun h => h (by decide)⟩

/-- What goes out in the loop. -/
theorem freeLoop_out : ∀ left cic t, freeLoop moves left cic t = some t' →
    ∃ mid, t'.out = t.out ++ mid ∧ OfCalls moves mid := by
  intro left
  induction left with
  | zero =>
    intro cic t h
    obtain rfl := Option.some.inj h
    exact ⟨[], (List.append_nil _).symm, ofCalls_nil⟩
  | succ left ih =>
    intro cic t h
    obtain ⟨t₁, hround, hloop⟩ := Option.bind_eq_some_iff.1 h
    obtain ⟨pvt, hpvt, -⟩ := Option.bind_eq_some_iff.1 hround
    obtain ⟨⟨mid, hmid, hcalls⟩, -⟩ := freeRound_spec hpvt hround
    obtain ⟨mid', hmid', hcalls'⟩ := ih (cic + 1) t₁ hloop
    exact ⟨mid ++ mid', by rw [hmid', hmid, List.append_assoc], ofCalls_append hcalls hcalls'⟩

/-- **How far the circuits are freed**: those of the range are as they were or
have been freed, and those below `bound` that were not idle have been. -/
structure FreedUpTo (s : Circuits) (grsMsg : Received) (t : Circuits) (bound : ℕ) : Prop where
  held : ∀ i pvt, Concerns grsMsg i → s.cicList i = some pvt → ∃ pvt', t.cicList i = some pvt' ∧
    (pvt'.state = pvt.state ∧ pvt'.owner = pvt.owner ∨ FreedAs s grsMsg t i pvt')
  freed : ∀ i pvt, Concerns grsMsg i → i < bound → s.cicList i = some pvt → pvt.state ≠ .idle →
    ∃ pvt', t.cicList i = some pvt' ∧ FreedAs s grsMsg t i pvt'

/-- What has been freed stays so while the idle list grows, or if a call is
moved. -/
theorem FreedAs.mono {i : ℕ} (h : FreedAs s grsMsg t i pvt)
    (hidle : i ∈ t.idleList → i ∈ t'.idleList ∨ ∃ chan, Moved s grsMsg chan) :
    FreedAs s grsMsg t' i pvt := by
  rcases h with ⟨hstate, howner, hmem | hmoved⟩ | h
  · exact Or.inl ⟨hstate, howner, hidle hmem⟩
  · exact Or.inl ⟨hstate, howner, Or.inr hmoved⟩
  · exact Or.inr h

/-- The channel of a circuit that waits for an answer is of a call that is
moved. -/
theorem FreedUpTo.moved {bound : ℕ} (h : FreedUpTo s grsMsg t bound) (hc : Concerns grsMsg cic)
    (hsome : (s.cicList cic).isSome) (hpvt : t.cicList cic = some pvt) (hstate : pvt.state = .sentIam)
    (howner : pvt.owner = some chan) : Moved s grsMsg chan := by
  obtain ⟨pvt₀, hpvt₀⟩ := Option.isSome_iff_exists.1 hsome
  obtain ⟨pvt', hpvt', hcase⟩ := h.held cic pvt₀ hc hpvt₀
  obtain rfl := Option.some.inj (hpvt.symm.trans hpvt')
  rcases hcase with ⟨hstate', howner'⟩ | ⟨hidle, -⟩ | ⟨-, c, hmoved, hc⟩
  · exact ⟨cic, pvt₀, hc, hpvt₀, hstate' ▸ hstate, howner' ▸ howner⟩
  · exact absurd (hstate.symm.trans hidle) CircuitState.noConfusion
  · obtain rfl := Option.some.inj (howner.symm.trans hc)
    exact hmoved

/-- **A round frees one circuit more.** -/
theorem FreedUpTo.step {bound : ℕ} (h : FreedUpTo s grsMsg t bound) (hc : Concerns grsMsg bound)
    (hsome : (s.cicList bound).isSome) (hround : freeRound moves bound t = some t') :
    FreedUpTo s grsMsg t' (bound + 1) := by
  obtain ⟨pvt, hpvt, -⟩ := Option.bind_eq_some_iff.1 hround
  obtain ⟨-, ⟨hidle, rfl⟩ | ⟨⟨pvt₁, hself, hfree⟩, hmem, hothers⟩⟩ := freeRound_spec hpvt hround
  · refine ⟨h.held, fun i pvt₀ hi hlt hpvt₀ hnot => ?_⟩
    rcases Nat.lt_succ_iff_lt_or_eq.1 hlt with hlt | rfl
    · exact h.freed i pvt₀ hi hlt hpvt₀ hnot
    · obtain ⟨pvt', hpvt', ⟨hstate, -⟩ | hfreed⟩ := h.held i pvt₀ hi hpvt₀
      · obtain rfl := Option.some.inj (hpvt.symm.trans hpvt')
        exact absurd (hstate.symm.trans hidle) hnot
      · exact ⟨pvt', hpvt', hfreed⟩
  -- this circuit, and the others
  have hhere : FreedAs s grsMsg t' bound pvt₁ := Or.inl ⟨hfree.1, hfree.2, Or.inl hmem⟩
  have hkeeps : ∀ i, i ≠ bound → ∀ pvt', t.cicList i = some pvt' → ∃ pvt'', t'.cicList i = some pvt'' ∧
      (pvt'' = pvt' ∧ (i ∈ t.idleList → i ∈ t'.idleList ∨ ∃ chan, Moved s grsMsg chan) ∨
        FreedAs s grsMsg t' i pvt'') := by
    intro i hi pvt' hpvt'
    rcases hothers with hothers | ⟨c, hstate, howner, hothers⟩
    · obtain ⟨hsame, hidle⟩ := hothers i hi
      exact ⟨pvt', hsame.trans hpvt', Or.inl ⟨rfl, fun hmem => Or.inl (hidle hmem)⟩⟩
    · have hmoved := h.moved hc hsome hpvt hstate howner
      rcases hothers i hi with hsame | ⟨g, hmap, hg⟩
      · exact ⟨pvt', hsame.trans hpvt', Or.inl ⟨rfl, fun _ => Or.inr ⟨c, hmoved⟩⟩⟩
      · refine ⟨g pvt', by rw [hmap, hpvt', Option.map_some], Or.inr ?_⟩
        rcases hg pvt' with ⟨hfree, hnone⟩ | ⟨hsent, hchan⟩
        · exact Or.inl ⟨hfree, hnone, Or.inr ⟨c, hmoved⟩⟩
        · exact Or.inr ⟨hsent, c, hmoved, hchan⟩
  refine ⟨fun i pvt₀ hi hpvt₀ => ?_, fun i pvt₀ hi hlt hpvt₀ hnot => ?_⟩
  · by_cases heq : i = bound
    · rw [heq]
      exact ⟨pvt₁, hself, Or.inr hhere⟩
    · obtain ⟨pvt', hpvt', hcase⟩ := h.held i pvt₀ hi hpvt₀
      obtain ⟨pvt'', hpvt'', ⟨rfl, hidle⟩ | hfreed⟩ := hkeeps i heq pvt' hpvt'
      · exact ⟨pvt'', hpvt'', hcase.imp_right fun hfreed => hfreed.mono hidle⟩
      · exact ⟨pvt'', hpvt'', Or.inr hfreed⟩
  · by_cases heq : i = bound
    · rw [heq]
      exact ⟨pvt₁, hself, hhere⟩
    · obtain ⟨pvt', hpvt', hfreed⟩ := h.freed i pvt₀ hi (by omega) hpvt₀ hnot
      obtain ⟨pvt'', hpvt'', ⟨rfl, hidle⟩ | hfreed'⟩ := hkeeps i heq pvt' hpvt'
      · exact ⟨pvt'', hpvt'', hfreed.mono hidle⟩
      · exact ⟨pvt'', hpvt'', hfreed'⟩

/-- **The third loop frees the circuits** if those in a call have their
channels. -/
theorem freeLoop_freed (hsome : ∀ i, Concerns grsMsg i → (s.cicList i).isSome)
    (howned : ∀ i pvt, Concerns grsMsg i → s.cicList i = some pvt → ofCall pvt.state = true →
      pvt.owner ≠ none) :
    ∀ left bound t, (∀ i, bound ≤ i → i < bound + left → Concerns grsMsg i) →
      FreedUpTo s grsMsg t bound →
        ∃ t', freeLoop moves left bound t = some t' ∧ FreedUpTo s grsMsg t' (bound + left) := by
  intro left
  induction left with
  | zero => exact fun bound t _ h => ⟨t, rfl, h⟩
  | succ left ih =>
    intro bound t hrange h
    have hc := hrange bound (Nat.le_refl _) (by omega)
    obtain ⟨pvt₀, hpvt₀⟩ := Option.isSome_iff_exists.1 (hsome bound hc)
    obtain ⟨pvt, hpvt, hcase⟩ := h.held bound pvt₀ hc hpvt₀
    have hchan : ofCall pvt.state = true → pvt.owner ≠ none := by
      intro hcall
      rcases hcase with ⟨hstate, howner⟩ | ⟨hidle, -⟩ | ⟨-, c, -, howner⟩
      · rw [howner]
        exact howned bound pvt₀ hc hpvt₀ (hstate ▸ hcall)
      · rw [hidle] at hcall
        exact absurd hcall (by decide)
      · rw [howner]
        exact Option.some_ne_none c
    obtain ⟨t₁, hround⟩ := Option.isSome_iff_exists.1 ((@freeRound_isSome t moves pvt bound hpvt).2 hchan)
    obtain ⟨t', hloop, hfreed⟩ := ih (bound + 1) t₁ (fun i hge hlt => hrange i (by omega) (by omega))
      (h.step hc (hsome bound hc) hround)
    refine ⟨t', ?_, ?_⟩
    · rw [freeLoop, hround, Option.bind_some, hloop]
    · rw [Nat.add_assoc, Nat.add_comm 1 left] at hfreed
      exact hfreed

/-- No circuit is found for a call. -/
def noMoves : Moves := ⟨fun s => (none, s.idleList), fun _ _ => none⟩

theorem freeRound_noMoves (hround : freeRound noMoves cic t = some t') (hi : i ≠ cic) :
    t'.cicList i = t.cicList i := by
  obtain ⟨pvt, hpvt, hmatch⟩ := Option.bind_eq_some_iff.1 hround
  obtain ⟨-, ⟨-, rfl⟩ | ⟨-, -, hothers | ⟨c, hstate, howner, -⟩⟩⟩ := freeRound_spec hpvt hround
  · rfl
  · exact (hothers i hi).1
  · rw [hstate] at hmatch
    dsimp only at hmatch
    rw [howner] at hmatch
    rw [← Option.some.inj hmatch]
    show ((Circuits.requestHangup _ (some c)).freeCic cic).cicList i = _
    rw [freeCic_other hi]
    exact Function.update_of_ne hi _ _

/-- **A call without its channel** ends it. -/
theorem freeLoop_none : ∀ left cic t, (∃ i pvt, cic ≤ i ∧ i < cic + left ∧ t.cicList i = some pvt ∧
    ofCall pvt.state = true ∧ pvt.owner = none) → freeLoop noMoves left cic t = none := by
  intro left
  induction left with
  | zero =>
    rintro cic t ⟨i, pvt, hge, hlt, -⟩
    omega
  | succ left ih =>
    rintro cic t ⟨i, pvt, hge, hlt, hpvt, hcall, howner⟩
    rw [freeLoop]
    rcases hround : freeRound noMoves cic t with _ | t'
    · rfl
    · rw [Option.bind_some]
      have hne : i ≠ cic := by
        rintro rfl
        have hchan := (@freeRound_isSome t noMoves pvt _ hpvt).1 (by rw [hround]; rfl)
        exact hchan hcall howner
      exact ih (cic + 1) t' ⟨i, pvt, by omega, by omega, (freeRound_noMoves hround hne).trans hpvt, hcall,
        howner⟩

/-! ## The handler -/

/-- **What is discarded** is discarded before anything is changed. -/
theorem handle_discarded (h : GrsDiscarded ls s grsMsg) :
    handleGrsSendHwblock moves ls s grsMsg = some s := by
  unfold handleGrsSendHwblock
  dsimp only
  by_cases hgrs : ls.grs = true
  · rw [hgrs, Bool.not_true, if_neg Bool.false_ne_true]
    by_cases hlist : grsMsg.header.cic + grsRangeOf grsMsg + 1 ≥ maxCic
    · rw [if_pos hlist]
    rw [if_neg hlist]
    by_cases hrange : grsRangeOf grsMsg > 31
    · rw [if_pos hrange]
    rw [if_neg hrange]
    rcases h with h | h | h | ⟨i, ⟨hge, hlt⟩, hnot⟩
    · exact absurd (hgrs.symm.trans h) Bool.true_eq_false_eq_False.elim
    · exact absurd h hlist
    · exact absurd h hrange
    · rw [hwBlockLoop_none _ _ _ ⟨i, hge, hlt, hnot⟩]
  · rw [Bool.eq_false_iff.2 hgrs, Bool.not_false, if_pos rfl]

/-- A circuit is in a state, with a channel, as it was. -/
def SameCalls (s t : Circuits) : Prop := ∀ i pvt, s.cicList i = some pvt →
  ∃ pvt', t.cicList i = some pvt' ∧ pvt'.state = pvt.state ∧ pvt'.owner = pvt.owner

/-- A write that leaves what the other loops read. -/
theorem sendHwBlock_at {hw : HwBlock} (i : ℕ) : ∃ g : Pvt → Pvt,
    (sendHwBlock ls grsMsg hw s).cicList i = (s.cicList i).map g ∧ ∀ pvt,
      (g pvt).equipped = pvt.equipped ∧ (g pvt).blocked = pvt.blocked ∧ (g pvt).state = pvt.state ∧
        (g pvt).owner = pvt.owner := by
  have hlist : (sendHwBlock ls grsMsg hw s).cicList = Function.update s.cicList grsMsg.header.cic
      ((s.cicList grsMsg.header.cic).map fun pvt => { pvt with cgbMask := hw.cgbMask }.start .t18) :=
    update_map_map s.cicList (fun pvt => { pvt with cgbMask := hw.cgbMask }) (Pvt.start .t18)
  rw [hlist]
  by_cases hi : i = grsMsg.header.cic
  · refine ⟨fun pvt => { pvt with cgbMask := hw.cgbMask }.start .t18, ?_,
      fun pvt => ⟨rfl, rfl, rfl, rfl⟩⟩
    rw [hi, Function.update_self]
  · refine ⟨id, ?_, fun pvt => ⟨rfl, rfl, rfl, rfl⟩⟩
    rw [Function.update_of_ne hi, Option.map_id_fun, id]

/-- **What is not discarded** comes to the third loop, with the blocking sent if a
circuit is hardware blocked. -/
theorem handle_obeys (h : ¬GrsDiscarded ls s grsMsg) : ∃ t, ∃ m : Marks,
    (∀ moves, handleGrsSendHwblock moves ls s grsMsg =
      (freeLoop moves (grsRangeOf grsMsg + 1) grsMsg.header.cic t).map fun s =>
        s.enqueue (graMessage ls grsMsg.header.opc grsMsg.header.cic m.octets)) ∧
      m.At (grsRangeOf grsMsg) (grsRangeOf grsMsg + 1)
        (fun k => s.blockedAt blLm (grsMsg.header.cic + k)) ∧
      SameCalls s t ∧
      ((∃ i, Concerns grsMsg i ∧ s.blockedAt blLh i = true) →
        t.out = s.out ++ [.message (hwBlockMessage ls grsMsg.header.opc grsMsg.header.cic)]) ∧
      ((¬∃ i, Concerns grsMsg i ∧ s.blockedAt blLh i = true) → t.out = s.out) := by
  obtain ⟨hgrs, hlist, hrange, hequipped⟩ : ¬ls.grs = false ∧
      ¬maxCic ≤ grsMsg.header.cic + grsRangeOf grsMsg + 1 ∧ ¬31 < grsRangeOf grsMsg ∧
        ¬∃ i, Concerns grsMsg i ∧ s.equippedAt i = false := by
    simpa only [GrsDiscarded, not_or] using h
  have hall : ∀ i, Concerns grsMsg i → s.equippedAt i = true := by
    intro i hi
    exact Bool.eq_true_of_not_eq_false fun hnot => hequipped ⟨i, hi, hnot⟩
  obtain ⟨hw, hloop, hneed⟩ := @hwBlockLoop_some s grsMsg.header.cic (grsRangeOf grsMsg + 1)
    grsMsg.header.cic ⟨.start (grsRangeOf grsMsg), false, 0⟩ fun i hge hlt => hall i ⟨hge, hlt⟩
  have hneed' : hw.needHwBlock = true ↔ ∃ i, Concerns grsMsg i ∧ s.blockedAt blLh i = true := by
    rw [hneed]
    refine ⟨fun h => ?_, fun ⟨i, ⟨hge, hlt⟩, hbit⟩ => Or.inr ⟨i, hge, hlt, hbit⟩⟩
    rcases h with h | ⟨i, hge, hlt, hbit⟩
    · exact absurd h Bool.false_ne_true
    · exact ⟨i, ⟨hge, hlt⟩, hbit⟩
  let t₁ : Circuits := if hw.needHwBlock = true then sendHwBlock ls grsMsg hw s else s
  have hat : ∀ i, ∃ g : Pvt → Pvt, t₁.cicList i = (s.cicList i).map g ∧ ∀ pvt,
      (g pvt).equipped = pvt.equipped ∧ (g pvt).blocked = pvt.blocked ∧ (g pvt).state = pvt.state ∧
        (g pvt).owner = pvt.owner := by
    intro i
    by_cases hn : hw.needHwBlock = true
    · obtain ⟨g, hg, hsame⟩ := @sendHwBlock_at s ls grsMsg hw i
      refine ⟨g, ?_, hsame⟩
      show (if hw.needHwBlock = true then sendHwBlock ls grsMsg hw s else s).cicList i = _
      rw [if_pos hn, hg]
    · refine ⟨id, ?_, fun pvt => ⟨rfl, rfl, rfl, rfl⟩⟩
      show (if hw.needHwBlock = true then sendHwBlock ls grsMsg hw s else s).cicList i = _
      rw [if_neg hn, Option.map_id_fun, id]
  have hout : t₁.out = s.out ++ if hw.needHwBlock = true then
      [.message (hwBlockMessage ls grsMsg.header.opc grsMsg.header.cic)] else [] := by
    show (if hw.needHwBlock = true then sendHwBlock ls grsMsg hw s else s).out = _
    by_cases hn : hw.needHwBlock = true
    · rw [if_pos hn, if_pos hn]
      rfl
    · rw [if_neg hn, if_neg hn, List.append_nil]
  have hreads : ∀ j, 0 ≤ j → j < grsRangeOf grsMsg + 1 →
      t₁.equippedAt (grsMsg.header.cic + j) = true ∧ t₁.blockedAt blLm (grsMsg.header.cic + j) =
        s.blockedAt blLm (grsMsg.header.cic + j) := by
    intro j _ hlt
    have hj := hall (grsMsg.header.cic + j) ⟨Nat.le_add_right _ _, by omega⟩
    obtain ⟨g, hg, hsame⟩ := hat (grsMsg.header.cic + j)
    obtain ⟨pvt, hpvt⟩ := Option.isSome_iff_exists.1 (equippedAt_eq_true hj)
    rw [hpvt, Option.map_some] at hg
    rw [equippedAt_some hpvt] at hj
    rw [equippedAt_some hg, blockedAt_some hg, blockedAt_some hpvt, (hsame pvt).1, (hsame pvt).2.1]
    exact ⟨hj, rfl⟩
  obtain ⟨t, m, hgra, hm, hgraOut, -, hgraList⟩ := graLoop_spec (grsRangeOf grsMsg + 1) 0 t₁
    (.start (grsRangeOf grsMsg)) (Nat.zero_add _) hreads Marks.at_start
  refine ⟨t, m, fun moves => ?_, hm, fun i pvt hpvt => ?_, fun hlh => ?_, fun hlh => ?_⟩
  · unfold handleGrsSendHwblock
    dsimp only
    rw [Bool.eq_true_of_not_eq_false hgrs, Bool.not_true, if_neg Bool.false_ne_true, if_neg hlist,
      if_neg hrange, hloop]
    dsimp only
    rw [show graLoop (grsRangeOf grsMsg + 1) grsMsg.header.cic _ _ = (t, some m) from hgra]
  · obtain ⟨g, hg, hsame⟩ := hat i
    rw [hpvt, Option.map_some] at hg
    obtain ⟨-, -, hstate, howner⟩ := hsame pvt
    rw [hgraList, hg, Option.map_some]
    split_ifs
    · exact ⟨unblock (g pvt), rfl, hstate, howner⟩
    · exact ⟨g pvt, rfl, hstate, howner⟩
  · rw [hgraOut, hout, if_pos (hneed'.2 hlh)]
  · rw [hgraOut, hout, if_neg (fun hn => hlh (hneed'.1 hn)), List.append_nil]

/-! ## The messages -/

/-- **The acknowledgement is read** by the other end, of two circuits or more. -/
theorem graMessage_read (hdpc : grsMsg.header.opc < 2 ^ (if ls.variant = .itu then 14 else 24))
    (hlist : ¬maxCic ≤ grsMsg.header.cic + grsRangeOf grsMsg + 1) (hpos : 1 ≤ grsRangeOf grsMsg)
    (hle : ¬31 < grsRangeOf grsMsg)
    (hm : m.At (grsRangeOf grsMsg) (grsRangeOf grsMsg + 1)
      fun k => isMarked (grsMsg.header.cic + k)) :
    StatusRead ls grsMsg .gra isMarked
      (graMessage ls grsMsg.header.opc grsMsg.header.cic m.octets) := by
  have hstatus : ((List.range ((grsRangeOf grsMsg + 1 + 7) / 8)).map fun j => m.param (1 + j)).length =
      (grsRangeOf grsMsg + 8) / 8 := by
    rw [List.length_map, List.length_range]
  obtain ⟨r, hr, htyp, hcic, hrange, hread⟩ := @received_gra ls _ _ _ _ hdpc
    (show grsMsg.header.cic < maxCic by omega) hpos (by omega) hstatus
  rw [← hm.octets] at hr
  refine ⟨r, hr, htyp, hcic, hrange, fun k hk => ?_⟩
  have hat := hread (k / 8) (by rw [hstatus]; exact hk)
  rw [List.getElem_map, List.getElem_range] at hat
  show (statusAt r.union graRangeStatus.base (k / 8)).toNat.testBit (k % 8) = _
  rw [hat, hm.bit]

/-- Of one circuit it is not. -/
theorem graMessage_not_read (hdpc : grsMsg.header.opc < 2 ^ (if ls.variant = .itu then 14 else 24))
    (hlist : ¬maxCic ≤ grsMsg.header.cic + grsRangeOf grsMsg + 1) (hzero : grsRangeOf grsMsg = 0)
    (hm : m.At (grsRangeOf grsMsg) (grsRangeOf grsMsg + 1) isMarked) :
    received ls.variant (graMessage ls grsMsg.header.opc grsMsg.header.cic m.octets) = none := by
  rw [hm.octets, hzero]
  exact received_gra_zero hdpc (show grsMsg.header.cic < maxCic by omega)

/-- The first of what goes out, and the last. -/
theorem outputs_eq {out cgb mid mid' : List Output} {a b : Output}
    (h : out ++ cgb ++ mid ++ [a] = out ++ mid' ++ [b]) : cgb ++ mid = mid' ∧ a = b := by
  obtain ⟨hinit, hlast⟩ := List.append_inj' h rfl
  rw [List.append_assoc] at hinit
  exact ⟨List.append_cancel_left hinit, List.singleton_inj.1 hlast⟩

/-- **A group reset is answered exactly if it is discarded, or can be obeyed**:
without a circuit that is hardware blocked, for whose blocking no range is put
into the message, of two circuits or more, since a range of 0 is not accepted,
and with the channels of the calls there. -/
theorem grsAnswered_iff (ls : Linkset) (s : Circuits) (grsMsg : Received) (buf : List Octet)
    (hreceived : received ls.variant buf = some grsMsg) :
    GrsAnswered ls s grsMsg ↔ GrsDiscarded ls s grsMsg ∨ GrsFit s grsMsg := by
  obtain ⟨⟨hdr, rest⟩, hhdr, hrest⟩ := Option.bind_eq_some_iff.1 hreceived
  have hdpc : grsMsg.header.opc < 2 ^ (if ls.variant = .itu then 14 else 24) := by
    obtain ⟨typ, -, hrest⟩ := Option.bind_eq_some_iff.1 hrest
    obtain ⟨d, -, hrest⟩ := Option.bind_eq_some_iff.1 hrest
    split_ifs at hrest
    rw [← Option.some.inj hrest]
    exact decodeHeader_opc_lt hhdr
  by_cases hdiscarded : GrsDiscarded ls s grsMsg
  · exact ⟨fun _ => Or.inl hdiscarded,
      fun _ moves => ⟨s, handle_discarded hdiscarded, Or.inl ⟨hdiscarded, rfl⟩⟩⟩
  obtain ⟨t, m, hhandle, hm, hcalls, hblocked, hunblocked⟩ := handle_obeys hdiscarded
  obtain ⟨-, hlist, hrange, hequipped⟩ : ¬ls.grs = false ∧
      ¬maxCic ≤ grsMsg.header.cic + grsRangeOf grsMsg + 1 ∧ ¬31 < grsRangeOf grsMsg ∧
        ¬∃ i, Concerns grsMsg i ∧ s.equippedAt i = false := by
    simpa only [GrsDiscarded, not_or] using hdiscarded
  have hsome : ∀ i, Concerns grsMsg i → (s.cicList i).isSome := fun i hi =>
    equippedAt_eq_true (Bool.eq_true_of_not_eq_false fun hnot => hequipped ⟨i, hi, hnot⟩)
  refine ⟨fun h => Or.inr ?_, fun h moves => ?_⟩
  · -- what is sent is read, and there is a result without a circuit for calls
    obtain ⟨s', hs', ⟨hd, -⟩ | ⟨-, hobeyed⟩⟩ := h noMoves
    · exact absurd hd hdiscarded
    rw [hhandle] at hs'
    obtain ⟨t', hloop, rfl⟩ := Option.map_eq_some_iff.1 hs'
    obtain ⟨mid', hmid', -⟩ := freeLoop_out _ _ _ hloop
    obtain ⟨cgb, mid, gra, hsent, -, hgra, hcgb, -⟩ := hobeyed.sent
    have hout : t.out ++ mid' ++ [Output.message
        (graMessage ls grsMsg.header.opc grsMsg.header.cic m.octets)] =
          s.out ++ (cgb.map .message ++ mid ++ [.message gra]) := by
      rw [← hmid']
      exact hsent
    have hlh : ¬∃ i, Concerns grsMsg i ∧ s.blockedAt blLh i = true := by
      intro hlh
      obtain ⟨msg, rfl, r, hr, -⟩ := hcgb hlh
      rw [hblocked hlh, ← List.append_assoc s.out] at hout
      obtain ⟨hfirst, -⟩ := outputs_eq hout
      have heq : hwBlockMessage ls grsMsg.header.opc grsMsg.header.cic = msg :=
        Output.message.inj (List.cons.inj hfirst).1
      rw [← heq, received_hwBlock hdpc (show grsMsg.header.cic < maxCic by omega)] at hr
      exact absurd hr (Option.some_ne_none r).symm
    refine ⟨?_, fun i hi => Bool.eq_false_iff.2 fun hbit => hlh ⟨i, hi, hbit⟩, ?_⟩
    · rw [Nat.one_le_iff_ne_zero]
      intro hzero
      obtain ⟨r, hr, -⟩ := hgra
      rw [hunblocked hlh, ← List.append_assoc s.out] at hout
      have heq := Output.message.inj (List.singleton_inj.1 (List.append_inj' hout rfl).2)
      rw [← heq, graMessage_not_read hdpc hlist hzero hm] at hr
      exact absurd hr (Option.some_ne_none r).symm
    · intro i pvt hi hpvt hcall howner
      obtain ⟨pvt', hpvt', hstate, howner'⟩ := hcalls i pvt hpvt
      have hnone := freeLoop_none _ _ t ⟨i, pvt', hi.1, hi.2, hpvt', hstate ▸ hcall, howner' ▸ howner⟩
      exact absurd (hloop.symm.trans hnone) (Option.some_ne_none t')
  · obtain ⟨hpos, hlh, howned⟩ := h.resolve_left hdiscarded
    have hstart : FreedUpTo s grsMsg t grsMsg.header.cic :=
      ⟨fun i pvt _ hpvt => (hcalls i pvt hpvt).imp fun pvt' h => ⟨h.1, Or.inl h.2⟩,
        fun i pvt hi hlt => absurd hi.1 (Nat.not_le.2 hlt)⟩
    obtain ⟨t', hloop, hfreed⟩ := @freeLoop_freed s grsMsg moves hsome howned
      (grsRangeOf grsMsg + 1) grsMsg.header.cic t (fun i hge hlt => ⟨hge, hlt⟩) hstart
    obtain ⟨mid, hmid, hofCalls⟩ := freeLoop_out _ _ _ hloop
    have hnone : ¬∃ i, Concerns grsMsg i ∧ s.blockedAt blLh i = true := by
      rintro ⟨i, hi, hbit⟩
      exact absurd (hbit.symm.trans (hlh i hi)) Bool.true_eq_false_eq_False.elim
    refine ⟨t'.enqueue _, by rw [hhandle, hloop]; rfl, Or.inr ⟨hdiscarded, ?_, ?_⟩⟩
    · exact fun i pvt hi hpvt hnot => hfreed.freed i pvt hi hi.2 hpvt hnot
    · refine ⟨[], mid, _, ?_, hofCalls, graMessage_read hdpc hlist hpos hrange hm,
        fun hex => absurd hex hnone, fun _ => rfl⟩
      show t'.out ++ [_] = _
      rw [hmid, hunblocked hnone, List.append_assoc]
      rfl

/-- Two circuits, the first of them blocked with `blocked`. -/
def twoCircuits (blocked : BitVec 32) : Circuits where
  cicList cic :=
    if cic = 0 then some ⟨none, true, true, blocked, .gotRel, -1, 0, fun _ => false⟩
    else if cic = 1 then some ⟨none, true, true, 0, .idle, -1, 0, fun _ => false⟩
    else none
  idleList := [1]
  out := []

/-- A group reset of the two, and what is received of it. -/
def grsBoth : List Octet := [0, 0, 0, 0, 0, 0, 0x17, 1, 1, 1]

def grsReceived : Received := (received .itu grsBoth).getD ⟨⟨0, 0, 0, 0, 0⟩, .iam, fun _ => 0⟩

theorem received_grsBoth : received .itu grsBoth = some grsReceived := by
  obtain ⟨r, hr⟩ := Option.isSome_iff_exists.1
    (show (received .itu grsBoth).isSome = true by decide +kernel)
  rw [grsReceived, hr, Option.getD_some]

theorem grsAnswered_iff_both : GrsAnswered someLinkset (twoCircuits 0) grsReceived ↔
    GrsDiscarded someLinkset (twoCircuits 0) grsReceived ∨ GrsFit (twoCircuits 0) grsReceived :=
  grsAnswered_iff someLinkset (twoCircuits 0) grsReceived grsBoth received_grsBoth

/-- A blocking for a circuit that is hardware blocked is not accepted. -/
theorem not_grsAnswered : ¬∀ (ls : Linkset) (s : Circuits) (grsMsg : Received) (buf : List Octet),
    received ls.variant buf = some grsMsg → GrsAnswered ls s grsMsg := by
  intro h
  have hrange : grsRangeOf grsReceived = 1 := by decide +kernel
  have hcic : grsReceived.header.cic = 0 := by decide +kernel
  have hout : ((handleGrsSendHwblock noMoves someLinkset (twoCircuits blLh) grsReceived).map
      Circuits.out).bind List.head? = some (.message [0, 64, 0, 0, 0, 0, 0x18, 1, 0]) := by
    decide +kernel
  obtain ⟨s', hs', ⟨hdiscarded, -⟩ | ⟨-, hobeyed⟩⟩ :=
    h someLinkset (twoCircuits blLh) grsReceived grsBoth received_grsBoth noMoves
  · rcases hdiscarded with hgrs | hlist | hlarge | ⟨i, ⟨-, hlt⟩, hnot⟩
    · exact absurd hgrs (by decide)
    · rw [hrange, hcic] at hlist
      exact absurd hlist (by decide)
    · rw [hrange] at hlarge
      exact absurd hlarge (by decide)
    · rw [hrange, hcic] at hlt
      obtain rfl | rfl : i = 0 ∨ i = 1 := by omega
      · exact absurd hnot (by decide)
      · exact absurd hnot (by decide)
  · obtain ⟨cgb, mid, gra, hsent, -, -, hcgb, -⟩ := hobeyed.sent
    obtain ⟨msg, rfl, r, hr, -⟩ := hcgb ⟨0, ⟨by omega, by omega⟩, by decide⟩
    rw [hs', Option.map_some, Option.bind_some, hsent] at hout
    have hmsg : msg = [0, 64, 0, 0, 0, 0, 0x18, 1, 0] :=
      Output.message.inj (Option.some.inj hout)
    have hnone : (received .itu msg).isSome = false := by
      rw [hmsg]
      decide +kernel
    rw [show received .itu msg = some r from hr] at hnone
    exact absurd hnone Bool.true_eq_false_eq_False.elim

end Group

end Isup

end Trismedia
