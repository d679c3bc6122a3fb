import Trismedia.Mtp2.Model
/-!
# The changeover among the links of a host

`mtp_changeover` of `channels/ss7/mtp.c` over `mtp2_state[]`. The loop that
looks for a link to take over declares a `newm` of its own, so the one behind
the loop stays NULL. The second loop goes on only behind a message of a user
part; at another message it stays where it is.
-/


namespace Trismedia

namespace Mtp2

/-! ## The function -/

/-- An entry of `mtp2_state[]`, with the linkset of its link. -/
structure Channel where
  linkset : ℕ
  mtp : Mtp2State

/-- The state of a channel is set. -/
def setMtp (channels : ℕ → Channel) (i : ℕ) (m : Mtp2State) : ℕ → Channel :=
  Function.update channels i { channels i with mtp := m }

/-- The first loop; what is returned is the `newm` outside of it. -/
def searchLink (channels : ℕ → Channel) (self : ℕ) (newm : Option ℕ) : List ℕ → Option ℕ
  | [] => newm
  | i :: rest =>
    -- struct mtp2_state* newm = &mtp2_state[i]
    let inner := i
    if i = self then searchLink channels self newm rest
    else if (channels self).linkset ≠ (channels inner).linkset then
      searchLink channels self newm rest
    else if (channels i).mtp.state = .inservice then newm
    else searchLink channels self newm rest

/-- The message of a slot is handed over, and leaves the buffer. -/
def moveSlot (self : ℕ) (newm : Option ℕ) (i : ℕ) (channels : ℕ → Channel) : ℕ → Channel :=
  match newm with
  | some k =>
    let slot := (channels self).mtp.retransBuf i
    let channels :=
      setMtp channels k (mtp2QueueMsu (channels k).mtp (slot.getD 3 0) (slot.drop 4))
    let m := (channels self).mtp
    setMtp channels self { m with retransBuf := Function.update m.retransBuf i (toLssu slot) }
  | none => setMtp channels self (forwardSlot (channels self).mtp i)

/-- The second loop; `none` when it has not ended in that many rounds. -/
def changeoverRounds (self : ℕ) (newm : Option ℕ) : ℕ → ℕ → (ℕ → Channel) → Option (ℕ → Channel)
  | 0, _, _ => none
  | fuel + 1, i, channels =>
    let m := (channels self).mtp
    if i = mtpNextSeq m.retransLastSent then some channels
    else if serviceOf (m.retransBuf i) ≥ 3 then
      changeoverRounds self newm fuel (mtpNextSeq i) (moveSlot self newm i channels)
    else changeoverRounds self newm fuel i channels

/-- `mtp_changeover` for the channel `self`; `alive` is what
`cluster_receivers_alive` answers. -/
def mtpChangeoverIn (alive : Bool) (nSchannels self fuel : ℕ) (channels : ℕ → Channel) :
    Option (ℕ → Channel) :=
  let newm := searchLink channels self none (List.range nSchannels)
  let m := (channels self).mtp
  if newm.isNone ∧ alive = false then
    some (setMtp channels self
      { m with retransLastAcked := mtpNextSeq m.retransLastSent, retransSeq := none })
  else changeoverRounds self newm fuel (mtpNextSeq m.retransLastAcked) channels

/-! ## What is asked of it -/

/-- How many messages are not acknowledged. -/
def pendingCount (m : Mtp2State) : ℕ :=
  (mtpNextSeq m.retransLastSent + 128 - mtpNextSeq m.retransLastAcked) % 128

/-- The messages that are not acknowledged. -/
def pendingSlots (m : Mtp2State) : List (List Octet) :=
  (List.range (pendingCount m)).map fun k =>
    m.retransBuf ((mtpNextSeq m.retransLastAcked + k) % 128)

/-- Those of them that are of user parts. -/
def userParts (m : Mtp2State) : List Msu :=
  ((pendingSlots m).filter fun slot => 3 ≤ serviceOf slot).map fun slot =>
    ⟨slot.getD 3 0, slot.drop 4⟩

/-- How many messages may be queued. -/
def room (m : Mtp2State) : ℕ :=
  (m.retransLastAcked + 128 - mtpNextSeq m.retransLastSent) % 128

/-- Another link of the linkset is in service, with enough room. -/
structure Replacement (channels : ℕ → Channel) (nSchannels self k : ℕ) : Prop where
  inside : k < nSchannels
  other : k ≠ self
  same : (channels k).linkset = (channels self).linkset
  inservice : (channels k).mtp.state = .inservice
  fits : (userParts (channels self).mtp).length ≤ room (channels k).mtp

/-- **The changeover is right**: it ends, and if there is a link for it, the
messages of user parts are queued on one, each once and in order, and on no
other. -/
def ChangeoverRight (alive : Bool) (nSchannels self : ℕ) (channels : ℕ → Channel) : Prop :=
  ∃ fuel channels', mtpChangeoverIn alive nSchannels self fuel channels = some channels' ∧
    ((∃ k, Replacement channels nSchannels self k) → ∃ k, Replacement channels nSchannels self k ∧
      (channels' k).mtp.accepted =
        (channels k).mtp.accepted ++ userParts (channels self).mtp ∧
      ∀ j, j ≠ k → (channels' j).mtp.accepted = (channels j).mtp.accepted)

/-- No other host is there to take over, or all messages are of user parts; and
where there is a link for it, there is no message of a user part. -/
def ChangeoverMeets (alive : Bool) (nSchannels self : ℕ) (channels : ℕ → Channel) : Prop :=
  (alive = false ∨ ∀ slot ∈ pendingSlots (channels self).mtp, 3 ≤ serviceOf slot) ∧
    ((∃ k, Replacement channels nSchannels self k) → userParts (channels self).mtp = [])

/-! ## The loops -/

variable {channels channels' : ℕ → Channel} {self i n fuel : ℕ}

@[simp] theorem setMtp_self (channels : ℕ → Channel) (i : ℕ) (m : Mtp2State) :
    (setMtp channels i m i).mtp = m := by
  rw [setMtp, Function.update_self]

theorem setMtp_ne {j : ℕ} (h : j ≠ i) (channels : ℕ → Channel) (m : Mtp2State) :
    setMtp channels i m j = channels j := Function.update_of_ne h _ _

/-- **No link is found.** -/
theorem searchLink_eq (newm : Option ℕ) (is : List ℕ) :
    searchLink channels self newm is = newm := by
  induction is with
  | nil => rfl
  | cons i is ih =>
    rw [searchLink]
    split_ifs
    · exact ih
    · exact ih
    · rfl
    · exact ih

/-- Nothing is queued without a link. -/
theorem changeoverRounds_accepted (fuel : ℕ) : ∀ (i : ℕ) (channels : ℕ → Channel),
    changeoverRounds self none fuel i channels = some channels' →
      ∀ j, (channels' j).mtp.accepted = (channels j).mtp.accepted := by
  induction fuel with
  | zero => exact fun _ _ h => absurd h (Option.some_ne_none _).symm
  | succ fuel ih =>
    intro i channels h j
    rw [changeoverRounds] at h
    split_ifs at h with hend huser
    · rw [Option.some.inj h]
    · rw [ih _ _ h j]
      unfold moveSlot
      dsimp only
      by_cases hj : j = self
      · rw [hj, setMtp_self]
        rfl
      · rw [setMtp_ne hj]
    · exact ih _ _ h j

/-- At a message that is not of a user part the loop stays. -/
theorem changeoverRounds_stuck (hi : i ≠ mtpNextSeq (channels self).mtp.retransLastSent)
    (hservice : ¬3 ≤ serviceOf ((channels self).mtp.retransBuf i)) (fuel : ℕ) :
    changeoverRounds self none fuel i channels = none := by
  induction fuel with
  | zero => rfl
  | succ fuel ih =>
    rw [changeoverRounds]
    rw [if_neg hi, if_neg hservice, ih]

/-- **Exactly when the loop ends**: if the messages from `i` on are all of user
parts. -/
theorem changeoverRounds_iff (n : ℕ) : ∀ (i : ℕ) (channels : ℕ → Channel), i < 128 → n < 128 →
    (i + n) % 128 = mtpNextSeq (channels self).mtp.retransLastSent →
      ((∃ fuel channels', changeoverRounds self none fuel i channels = some channels') ↔
        ∀ k < n, 3 ≤ serviceOf ((channels self).mtp.retransBuf ((i + k) % 128))) := by
  induction n with
  | zero =>
    intro i channels hi _ hend
    refine iff_of_true ⟨1, channels, ?_⟩ fun k hk => absurd hk (Nat.not_lt_zero k)
    rw [changeoverRounds]
    exact if_pos (by omega)
  | succ n ih =>
    intro i channels hi hn hend
    have hne : i ≠ mtpNextSeq (channels self).mtp.retransLastSent := by omega
    have hmod : (i + 0) % 128 = i := by omega
    by_cases hservice : 3 ≤ serviceOf ((channels self).mtp.retransBuf i)
    · have hnext : mtpNextSeq i = (i + 1) % 128 := rfl
      have hmoved : (moveSlot self none i channels self).mtp = forwardSlot (channels self).mtp i :=
        setMtp_self _ _ _
      have hrest := ih (mtpNextSeq i) (moveSlot self none i channels) (by omega) (by omega) (by
        rw [hmoved]
        show (mtpNextSeq i + n) % 128 = mtpNextSeq (channels self).mtp.retransLastSent
        omega)
      have hstep : (∃ fuel channels', changeoverRounds self none fuel i channels = some channels') ↔
          ∃ fuel channels', changeoverRounds self none fuel (mtpNextSeq i)
            (moveSlot self none i channels) = some channels' := by
        have hone : ∀ fuel, changeoverRounds self none (fuel + 1) i channels =
            changeoverRounds self none fuel (mtpNextSeq i) (moveSlot self none i channels) :=
          fun _ => (if_neg hne).trans (if_pos hservice)
        constructor
        · rintro ⟨fuel, channels', h⟩
          rcases fuel with _ | fuel
          · exact absurd h (Option.some_ne_none _).symm
          · exact ⟨fuel, channels', (hone fuel).symm.trans h⟩
        · rintro ⟨fuel, channels', h⟩
          exact ⟨fuel + 1, channels', (hone fuel).trans h⟩
      -- the other slots are as they were
      have hkept : ∀ k < n, (forwardSlot (channels self).mtp i).retransBuf
          ((mtpNextSeq i + k) % 128) = (channels self).mtp.retransBuf ((i + (k + 1)) % 128) := by
        intro k hk
        have hplace : (mtpNextSeq i + k) % 128 = (i + (k + 1)) % 128 := by omega
        rw [hplace]
        exact Function.update_of_ne (by omega) _ _
      rw [hstep, hrest, hmoved]
      constructor
      · intro h k hk
        rcases k with _ | k
        · rw [hmod]
          exact hservice
        · rw [← hkept k (by omega)]
          exact h k (by omega)
      · intro h k hk
        rw [hkept k hk]
        exact h (k + 1) (by omega)
    · refine iff_of_false ?_ fun h => hservice ?_
      · rintro ⟨fuel, channels', h⟩
        rw [changeoverRounds_stuck hne hservice] at h
        exact absurd h (Option.some_ne_none _).symm
      · have hzero := h 0 (by omega)
        rwa [hmod] at hzero

/-! ## When it is right -/

theorem mem_pendingSlots {m : Mtp2State} {P : List Octet → Prop} :
    (∀ slot ∈ pendingSlots m, P slot) ↔
      ∀ k < pendingCount m, P (m.retransBuf ((mtpNextSeq m.retransLastAcked + k) % 128)) := by
  unfold pendingSlots
  simp only [List.forall_mem_map, List.mem_range]

/-- **It ends** where no other host is there, or all messages are of user
parts. -/
theorem mtpChangeoverIn_ends (alive : Bool) (nSchannels self : ℕ) (channels : ℕ → Channel) :
    (∃ fuel channels', mtpChangeoverIn alive nSchannels self fuel channels = some channels') ↔
      (alive = false ∨ ∀ slot ∈ pendingSlots (channels self).mtp, 3 ≤ serviceOf slot) := by
  unfold mtpChangeoverIn
  rw [searchLink_eq]
  cases alive with
  | false => exact iff_of_true ⟨0, _, if_pos ⟨rfl, rfl⟩⟩ (Or.inl rfl)
  | true =>
    have hsent : mtpNextSeq (channels self).mtp.retransLastSent < 128 := Nat.mod_lt _ (by omega)
    have hacked : mtpNextSeq (channels self).mtp.retransLastAcked < 128 := Nat.mod_lt _ (by omega)
    have hcount : pendingCount (channels self).mtp < 128 := Nat.mod_lt _ (by omega)
    have hend : (mtpNextSeq (channels self).mtp.retransLastAcked +
        pendingCount (channels self).mtp) % 128 =
          mtpNextSeq (channels self).mtp.retransLastSent := by
      unfold pendingCount
      omega
    have hiff := changeoverRounds_iff _ _ channels hacked hcount hend
    rw [← mem_pendingSlots (P := fun slot => 3 ≤ serviceOf slot)] at hiff
    simp only [Bool.true_eq_false, and_false, if_false, false_or]
    exact hiff

theorem mtpChangeoverIn_accepted {alive : Bool} {nSchannels : ℕ}
    (h : mtpChangeoverIn alive nSchannels self fuel channels = some channels') (j : ℕ) :
    (channels' j).mtp.accepted = (channels j).mtp.accepted := by
  unfold mtpChangeoverIn at h
  rw [searchLink_eq] at h
  dsimp only at h
  split_ifs at h
  · obtain rfl := Option.some.inj h
    by_cases hj : j = self
    · rw [hj, setMtp_self]
    · rw [setMtp_ne hj]
  · exact changeoverRounds_accepted _ _ _ h j

/-- **Exactly when the changeover is right.** -/
theorem changeoverRight_iff (alive : Bool) (nSchannels self : ℕ) (channels : ℕ → Channel) :
    ChangeoverRight alive nSchannels self channels ↔
      ChangeoverMeets alive nSchannels self channels := by
  unfold ChangeoverRight ChangeoverMeets
  rw [← mtpChangeoverIn_ends alive nSchannels self channels]
  constructor
  · rintro ⟨fuel, channels', hrun, hqueued⟩
    refine ⟨⟨fuel, channels', hrun⟩, fun hsome => ?_⟩
    obtain ⟨k, -, hk, -⟩ := hqueued hsome
    rw [mtpChangeoverIn_accepted hrun k] at hk
    exact List.self_eq_append_right.1 hk
  · rintro ⟨⟨fuel, channels', hrun⟩, hnone⟩
    refine ⟨fuel, channels', hrun, fun hsome => ?_⟩
    have hkept := mtpChangeoverIn_accepted hrun
    obtain ⟨k, hk⟩ := hsome
    refine ⟨k, hk, ?_, fun j _ => hkept j⟩
    rw [hnone ⟨k, hk⟩, List.append_nil]
    exact hkept k

/-- Two links in service, the first with a message of ISUP that is not
acknowledged. -/
def twoInService (i : ℕ) : Channel :=
  ⟨0, mtp2QueueMsu { mtpInitLinkData none with state := .inservice } 0x85
    (if i = 0 then [1, 2, 3, 4, 5] else [])⟩

theorem twoInService_replacement : Replacement twoInService 2 0 1 :=
  ⟨by decide, by decide, rfl, by decide, by decide⟩

/-- The second link does not get the message. -/
theorem not_changeoverRight : ¬∀ (alive : Bool) (nSchannels self : ℕ) (channels : ℕ → Channel),
    ChangeoverRight alive nSchannels self channels := by
  intro hall
  obtain ⟨fuel, channels', hrun, hqueued⟩ := hall false 2 0 twoInService
  obtain ⟨k, -, hk, -⟩ := hqueued ⟨1, twoInService_replacement⟩
  rw [mtpChangeoverIn_accepted hrun k] at hk
  exact absurd (List.self_eq_append_right.1 hk) (by decide)

end Mtp2

end Trismedia
