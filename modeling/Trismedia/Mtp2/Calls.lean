import Trismedia.Mtp2.Model
/-!
# What the calls of MTP2 change

For each function the fields it may change, and for `mtp2_queue_msu` when it
takes an MSU. The unit that brings a link into service is read a second
time as one received in service, and found to carry nothing new.
-/


namespace Trismedia

namespace Mtp2

variable {c : Link} {alive : Bool} {m m' : Mtp2State} {buf : ℕ → Octet} {len : ℕ}
variable {sio : Octet} {sif : List Octet}

theorem mtpNextSeq_ne (x : ℕ) : x ≠ mtpNextSeq x := by
  unfold mtpNextSeq
  omega

/-! ## Queueing -/

/-- `mtp2_queue_msu` takes the MSU. -/
def Accepts (m : Mtp2State) (sif : List Octet) : Prop :=
  (m.state = .inservice ∨ m.state = .ready) ∧ 2 ≤ sif.length ∧
    mtpNextSeq m.retransLastSent ≠ m.retransLastAcked

/-- What an MSU taken changes. -/
def accept (m : Mtp2State) (sio : Octet) (sif : List Octet) : Mtp2State :=
  { m with
    retransBuf :=
      Function.update m.retransBuf (mtpNextSeq m.retransLastSent) (slotOf sio sif)
    retransLastSent := mtpNextSeq m.retransLastSent
    retransSeq :=
      if m.retransSeq = none then some (mtpNextSeq m.retransLastSent) else m.retransSeq
    t7 := if m.retransSeq = none then true else m.t7
    accepted := m.accepted ++ [⟨sio, sif⟩] }

theorem mtp2QueueMsu_of_accepts (h : Accepts m sif) : mtp2QueueMsu m sio sif = accept m sio sif := by
  obtain ⟨hs, hlen, hfull⟩ := h
  have hs' : ¬ (m.state ≠ .inservice ∧ m.state ≠ .ready) := by
    rcases hs with hs | hs <;> simp [hs]
  have hlen' : ¬ sif.length < 2 := by omega
  rw [mtp2QueueMsu, if_neg hs', if_neg hlen', if_neg hfull]
  rfl

theorem mtp2QueueMsu_of_not_accepts (h : ¬ Accepts m sif) : mtp2QueueMsu m sio sif = m := by
  rw [mtp2QueueMsu]
  by_cases hs : m.state ≠ .inservice ∧ m.state ≠ .ready
  · rw [if_pos hs]
  by_cases hlen : sif.length < 2
  · rw [if_neg hs, if_pos hlen]
  by_cases hfull : mtpNextSeq m.retransLastSent = m.retransLastAcked
  · rw [if_neg hs, if_neg hlen, if_pos hfull]
  refine absurd ⟨?_, by omega, hfull⟩ h
  by_cases hin : m.state = .inservice
  · exact .inl hin
  · exact .inr (not_not.1 fun hr => hs ⟨hin, hr⟩)

/-- `mtp2_queue_msu` changes the retransmission buffer, and may start T7. -/
theorem mtp2QueueMsu_frame (m : Mtp2State) (sio : Octet) (sif : List Octet) :
    ∃ rb rs ls t acc, mtp2QueueMsu m sio sif =
      { m with retransBuf := rb, retransSeq := rs, retransLastSent := ls, t7 := t,
               accepted := acc } := by
  by_cases h : Accepts m sif
  · rw [mtp2QueueMsu_of_accepts h]
    exact ⟨_, _, _, _, _, rfl⟩
  · rw [mtp2QueueMsu_of_not_accepts h]
    exact ⟨m.retransBuf, m.retransSeq, m.retransLastSent, m.t7, m.accepted, rfl⟩

/-- The SLTM of a link. -/
def sltm (c : Link) : List Octet :=
  mtp3PutLabel c.sls c.variant c.opc c.peerpc ++ [0x11, 0xf0] ++ sltmPattern

/-- The timer `mtp3_send_sltm` sees to. -/
def startSltmT1 (m : Mtp2State) : Mtp2State :=
  if m.sltmT1 then m else { m with sltmT1 := true, sltmTries := 1 }

theorem mtp3SendSltm_eq :
    mtp3SendSltm c m = startSltmT1 (mtp2QueueMsu m (serviceOctet m 1) (sltm c)) := rfl

theorem startSltmT1_frame (m : Mtp2State) :
    ∃ run tries, startSltmT1 m = { m with sltmT1 := run, sltmTries := tries } := by
  unfold startSltmT1
  split_ifs
  · exact ⟨m.sltmT1, m.sltmTries, rfl⟩
  · exact ⟨_, _, rfl⟩

theorem length_mtp3PutLabel (sls : ℕ) (v : Ss7Variant) (opc dpc : ℕ) :
    4 ≤ (mtp3PutLabel sls v opc dpc).length ∧ (mtp3PutLabel sls v opc dpc).length ≤ 7 := by
  cases v <;> simp [mtp3PutLabel]

theorem length_sltm (c : Link) : 4 ≤ (sltm c).length ∧ (sltm c).length ≤ 272 := by
  have h := length_mtp3PutLabel c.sls c.variant c.opc c.peerpc
  simp only [sltm, sltmPattern, List.length_append, List.length_cons, List.length_nil]
  omega

theorem l4up_frame (m : Mtp2State) :
    ∃ up ev, l4up m = { m with level4Up := up, events := ev } := by
  unfold l4up
  split_ifs
  · exact ⟨m.level4Up, m.events, rfl⟩
  · exact ⟨_, _, rfl⟩
  · exact ⟨_, _, rfl⟩

theorem l4down_frame (m : Mtp2State) :
    ∃ up ev, l4down m = { m with level4Up := up, events := ev } := by
  unfold l4down
  split_ifs
  · exact ⟨_, _, rfl⟩
  · exact ⟨m.level4Up, m.events, rfl⟩

/-! ## Frames -/

theorem mtp2ErrorMonCountFrame_frame (m : Mtp2State) :
    ∃ d r, mtp2ErrorMonCountFrame m = { m with emonDcount := d, errorRateMon := r } := by
  unfold mtp2ErrorMonCountFrame
  by_cases h : m.state = .ready ∨ m.state = .inservice
  · rw [if_pos h]
    exact ⟨_, _, rfl⟩
  · rw [if_neg h]
    exact ⟨m.emonDcount, m.errorRateMon, rfl⟩

theorem pickUnit_frame (m : Mtp2State) : ∃ rs, (pickUnit m).1 = { m with retransSeq := rs } := by
  unfold pickUnit
  split
  · exact ⟨_, rfl⟩
  · exact ⟨m.retransSeq, rfl⟩

/-- Sending a frame moves the retransmission on, and nothing else. -/
theorem mtp2PickFrame_frame (m : Mtp2State) :
    ∃ rs, (mtp2PickFrame m).1 = { m with retransSeq := rs } := by
  unfold mtp2PickFrame
  split
  · exact ⟨m.retransSeq, rfl⟩
  · exact ⟨m.retransSeq, rfl⟩
  · exact ⟨m.retransSeq, rfl⟩
  · exact ⟨m.retransSeq, rfl⟩
  · exact pickUnit_frame m
  · exact pickUnit_frame m

theorem mtp2PickFrame_of_service (h : m.state = .inservice ∨ m.state = .ready) :
    mtp2PickFrame m = pickUnit m := by
  unfold mtp2PickFrame
  rcases h with h | h <;> rw [h]

theorem takeBsn_frame (m : Mtp2State) (bsn : ℕ) :
    ∃ t, takeBsn m bsn = { m with t7 := t, retransLastAcked := bsn } := by
  unfold takeBsn
  by_cases h : m.retransLastAcked = bsn
  · rw [if_pos h]
    exact ⟨m.t7, by rw [← h]⟩
  · rw [if_neg h]
    exact ⟨_, rfl⟩

theorem takeBib_frame (m : Mtp2State) (bsn : ℕ) (bib : Bool) :
    ∃ rs, takeBib m bsn bib = { m with sendFib := bib, retransSeq := rs } := by
  unfold takeBib
  by_cases h : bib = m.sendFib
  · rw [if_pos h]
    exact ⟨m.retransSeq, by rw [h]⟩
  · rw [if_neg h]
    exact ⟨_, rfl⟩

theorem askAgain_frame (m : Mtp2State) (fib : Bool) :
    ∃ bib, askAgain m fib = { m with sendBib := bib } := by
  unfold askAgain
  split_ifs
  · exact ⟨_, rfl⟩
  · exact ⟨m.sendBib, rfl⟩

theorem takeFisu_frame (m : Mtp2State) (fsn : ℕ) (fib : Bool) :
    ∃ bib, takeFisu m fsn fib = { m with sendBib := bib } := by
  unfold takeFisu
  split_ifs
  · exact ⟨m.sendBib, rfl⟩
  · exact askAgain_frame m fib

/-! ## The unit that brings the link into service -/

/-- The link in service, before it queues its first messages. -/
def putInService (m : Mtp2State) (buf : ℕ → Octet) : Mtp2State :=
  { m with
    t1 := false, t7 := false, sendFib := bibOf buf, sendBsn := fsnOf buf, sendBib := fibOf buf,
    retransLastAcked := bsnOf buf, errorRateMon := 0, emonDcount := 0, emonNcount := 0,
    level4Up := false, state := .inservice }

theorem enterService_eq :
    enterService c m buf =
      if c.sendSltm then { mtp3SendSltm c (queueTra c (putInService m buf)) with sltmT2 := true }
      else l4up (queueTra c (putInService m buf)) := rfl

/-- After the first messages are queued the numbers and bits are those of the
unit. -/
theorem enterService_frame (c : Link) (m : Mtp2State) (buf : ℕ → Octet) :
    ∃ rb rs ls t acc run tries run2 up ev,
      enterService c m buf =
        { putInService m buf with
          retransBuf := rb, retransSeq := rs, retransLastSent := ls, t7 := t, accepted := acc,
          sltmT1 := run, sltmTries := tries, sltmT2 := run2, level4Up := up, events := ev } := by
  rw [enterService_eq]
  obtain ⟨rb, rs, ls, t, acc, hq⟩ := mtp2QueueMsu_frame (putInService m buf)
    (serviceOctet (putInService m buf) 0)
    (mtp3PutLabel c.sls c.variant c.opc c.peerpc ++ [0x17])
  rw [queueTra, hq]
  split_ifs
  · rw [mtp3SendSltm_eq]
    generalize hx : ({ putInService m buf with
      retransBuf := rb, retransSeq := rs, retransLastSent := ls, t7 := t,
      accepted := acc } : Mtp2State) = x
    obtain ⟨rb', rs', ls', t', acc', hq'⟩ := mtp2QueueMsu_frame x (serviceOctet x 1) (sltm c)
    rw [hq']
    obtain ⟨run, tries, hs⟩ := startSltmT1_frame
      { x with retransBuf := rb', retransSeq := rs', retransLastSent := ls', t7 := t',
               accepted := acc' }
    rw [hs, ← hx]
    exact ⟨_, _, _, _, _, _, _, _, _, _, rfl⟩
  · generalize hx : ({ putInService m buf with
      retransBuf := rb, retransSeq := rs, retransLastSent := ls, t7 := t,
      accepted := acc } : Mtp2State) = x
    obtain ⟨up, ev, hl⟩ := l4up_frame x
    rw [hl, ← hx]
    exact ⟨_, _, _, _, _, m.sltmT1, m.sltmTries, m.sltmT2, _, _, rfl⟩

theorem not_illegalBsn_acked (h : m.retransLastAcked = bsnOf buf) :
    ¬ illegalBsn m (bsnOf buf) := by
  unfold illegalBsn
  omega

/-- **The first unit carries nothing new**: its BSN is the number
acknowledged, its FSN the number received. -/
theorem takeUnit_enterService :
    takeUnit c alive (enterService c m buf) buf len =
      some { enterService c m buf with bsnErrors := 0 } := by
  obtain ⟨rb, rs, ls, t, acc, run, tries, run2, up, ev, he⟩ := enterService_frame c m buf
  rw [he]
  generalize hx : ({ putInService m buf with
    retransBuf := rb, retransSeq := rs, retransLastSent := ls, t7 := t, accepted := acc,
    sltmT1 := run, sltmTries := tries, sltmT2 := run2, level4Up := up,
    events := ev } : Mtp2State) = x
  have hacked : x.retransLastAcked = bsnOf buf := by rw [← hx]; rfl
  have hfib : bibOf buf = x.sendFib := by rw [← hx]; rfl
  have hbsn : fsnOf buf = x.sendBsn := by rw [← hx]; rfl
  rw [takeUnit, if_neg (not_illegalBsn_acked hacked)]
  have hb : takeBsn { x with bsnErrors := 0 } (bsnOf buf) = { x with bsnErrors := 0 } := by
    rw [takeBsn, if_pos hacked]
  have hf : takeBib { x with bsnErrors := 0 } (bsnOf buf) (bibOf buf) = { x with bsnErrors := 0 } := by
    rw [takeBib, if_pos hfib]
  dsimp only
  rw [hb, hf]
  split_ifs
  · rw [takeFisu, if_pos hbsn]
  · rw [takeMsu, if_pos hbsn]

/-! ## The units handed over -/

/-- A link test message with the heading `h1`, complete. -/
def TestMessage (c : Link) (buf : ℕ → Octet) (h1 : ℕ) : Prop :=
  (buf 3).toNat &&& 0xf = 1 ∧ 7 + sltPatternLen c buf ≤ liOf buf ∧ headingOf c buf = (1, h1)

theorem TestMessage.heading_eq {h1 h1' : ℕ} (h : TestMessage c buf h1)
    (h' : TestMessage c buf h1') : h1 = h1' := by
  have heq := h.2.2.symm.trans h'.2.2
  simpa using heq

/-- The link with the unit in the buffer recorded as handed over. -/
def handOver (m : Mtp2State) (buf : ℕ → Octet) (len : ℕ) : Mtp2State :=
  { m with
    handed := m.handed ++ [msuOf buf len]
    subservice := some (m.subservice.getD (((buf 3).toNat &&& 0xf0) >>> 4)) }

/-- **What `process_msu` can do.** -/
theorem processMsu_cases (h : processMsu c alive m buf len = some m') :
    (TestMessage c buf 1 ∧ m' = queueSlta c (handOver m buf len) buf) ∨
      (TestMessage c buf 2 ∧ takeSlta c alive (handOver m buf len) buf = some m') ∨
      (¬ TestMessage c buf 1 ∧ ¬ TestMessage c buf 2 ∧
        ∃ ev, m' = { handOver m buf len with events := ev }) := by
  have hnone : ∀ {x : Mtp2State}, some (handOver m buf len) = some x →
      ∃ ev, x = { handOver m buf len with events := ev } := fun hx =>
    ⟨m.events, by rw [← Option.some.inj hx]; rfl⟩
  have h' : (if (buf 3).toNat &&& 0xf = 1 then
      if liOf buf < 7 then some (handOver m buf len)
      else if liOf buf < 7 + sltPatternLen c buf then some (handOver m buf len)
      else if headingOf c buf = (1, 1) then some (queueSlta c (handOver m buf len) buf)
      else if headingOf c buf = (1, 2) then takeSlta c alive (handOver m buf len) buf
      else some (handOver m buf len)
    else if (buf 3).toNat &&& 0xf = 3 then
      some { handOver m buf len with events := m.events ++ [.sccp (l4Octets buf len)] }
    else if (buf 3).toNat &&& 0xf = 5 then
      some { handOver m buf len with events := m.events ++ [.isup (l4Octets buf len)] }
    else some (handOver m buf len)) = some m' := h
  split_ifs at h' with hsi h7 hlen hh1 hh2 h3 h5
  · refine .inr (.inr ⟨fun hx => ?_, fun hx => ?_, hnone h'⟩) <;> have := hx.2.1 <;> omega
  · refine .inr (.inr ⟨fun hx => ?_, fun hx => ?_, hnone h'⟩) <;> have := hx.2.1 <;> omega
  · exact .inl ⟨⟨hsi, by omega, hh1⟩, (Option.some.inj h').symm⟩
  · exact .inr (.inl ⟨⟨hsi, by omega, hh2⟩, h'⟩)
  · exact .inr (.inr ⟨fun hx => hh1 hx.2.2, fun hx => hh2 hx.2.2, hnone h'⟩)
  · exact .inr (.inr ⟨fun hx => hsi hx.1, fun hx => hsi hx.1, _, (Option.some.inj h').symm⟩)
  · exact .inr (.inr ⟨fun hx => hsi hx.1, fun hx => hsi hx.1, _, (Option.some.inj h').symm⟩)
  · exact .inr (.inr ⟨fun hx => hsi hx.1, fun hx => hsi hx.1, hnone h'⟩)

/-- **What a received SLTA can do.** -/
theorem takeSlta_cases (h : takeSlta c alive m buf = some m') :
    (validSlta c buf ∧ m' = l4up { m with sltmT1 := false }) ∨
      (¬ validSlta c buf ∧ m.sltmTries = 1 ∧
        m' = { mtp3SendSltm c { m with sltmT1 := false } with sltmTries := 2 }) ∨
      (¬ validSlta c buf ∧ m.sltmTries ≠ 1 ∧
        mtp3LinkFail alive { m with sltmT1 := false } false = some m') := by
  unfold takeSlta at h
  dsimp only at h
  split_ifs at h with hv ht
  · exact .inl ⟨hv, (Option.some.inj h).symm⟩
  · exact .inr (.inl ⟨hv, ht, (Option.some.inj h).symm⟩)
  · exact .inr (.inr ⟨hv, ht, h⟩)

/-- The unit in the buffer is the next in sequence, and not one asked for
again. -/
def InSequence (m : Mtp2State) (buf : ℕ → Octet) : Prop :=
  fsnOf buf = mtpNextSeq m.sendBsn ∧ fibOf buf = m.sendBib

/-- **What a message unit can do.** -/
theorem takeMsu_cases (h : takeMsu c alive m buf len = some m') :
    (InSequence m buf ∧ liOf buf < 5 ∧ m' = { m with sendBsn := fsnOf buf }) ∨
      (InSequence m buf ∧ 5 ≤ liOf buf ∧
        processMsu c alive { m with sendBsn := fsnOf buf } buf len = some m') ∨
      (fsnOf buf ≠ m.sendBsn ∧ fsnOf buf ≠ mtpNextSeq m.sendBsn ∧
        m' = askAgain m (fibOf buf)) ∨
      (¬ InSequence m buf ∧
        (fsnOf buf = m.sendBsn ∨ fsnOf buf = mtpNextSeq m.sendBsn ∧ fibOf buf ≠ m.sendBib) ∧
        m' = m) := by
  unfold takeMsu at h
  dsimp only at h
  split_ifs at h with hsame hnext hfib hli
  · refine .inr (.inr (.inr ⟨fun hx => mtpNextSeq_ne m.sendBsn (hsame.symm.trans hx.1), .inl hsame,
      (Option.some.inj h).symm⟩))
  · exact .inl ⟨⟨hnext, hfib⟩, hli, (Option.some.inj h).symm⟩
  · exact .inr (.inl ⟨⟨hnext, hfib⟩, by omega, h⟩)
  · exact .inr (.inr (.inr ⟨fun hx => hfib hx.2, .inr ⟨hnext, hfib⟩, (Option.some.inj h).symm⟩))
  · exact .inr (.inr (.inl ⟨hsame, hnext, (Option.some.inj h).symm⟩))

/-- The link after the BSN and the BIB of a unit. -/
def takeAck (m : Mtp2State) (buf : ℕ → Octet) : Mtp2State :=
  takeBib (takeBsn { m with bsnErrors := 0 } (bsnOf buf)) (bsnOf buf) (bibOf buf)

theorem takeAck_frame (m : Mtp2State) (buf : ℕ → Octet) :
    ∃ t rs, takeAck m buf =
      { m with bsnErrors := 0, t7 := t, retransLastAcked := bsnOf buf, sendFib := bibOf buf,
               retransSeq := rs } := by
  obtain ⟨t, ht⟩ := takeBsn_frame { m with bsnErrors := 0 } (bsnOf buf)
  rw [takeAck, ht]
  obtain ⟨rs, hrs⟩ := takeBib_frame
    { m with bsnErrors := 0, t7 := t, retransLastAcked := bsnOf buf } (bsnOf buf) (bibOf buf)
  exact ⟨t, rs, hrs⟩

/-- **What a unit can do to a link in service.** -/
theorem takeUnit_cases (h : takeUnit c alive m buf len = some m') :
    (illegalBsn m (bsnOf buf) ∧
        (mtp3LinkFail alive { m with bsnErrors := 0 } true = some m' ∨
          m' = { m with bsnErrors := m.bsnErrors + 1 })) ∨
      (¬ illegalBsn m (bsnOf buf) ∧ liOf buf = 0 ∧
        m' = takeFisu (takeAck m buf) (fsnOf buf) (fibOf buf)) ∨
      (¬ illegalBsn m (bsnOf buf) ∧ liOf buf ≠ 0 ∧
        takeMsu c alive (takeAck m buf) buf len = some m') := by
  unfold takeUnit at h
  dsimp only at h
  split_ifs at h with hill herr hli
  · exact .inl ⟨hill, .inl h⟩
  · exact .inl ⟨hill, .inr (Option.some.inj h).symm⟩
  · exact .inr (.inl ⟨hill, hli, (Option.some.inj h).symm⟩)
  · exact .inr (.inr ⟨hill, hli, h⟩)

/-- The unit in the buffer is handed to `process_msu`. -/
def HandsOver (m : Mtp2State) (buf : ℕ → Octet) : Prop :=
  ¬ illegalBsn m (bsnOf buf) ∧ 5 ≤ liOf buf ∧ InSequence m buf

theorem inSequence_takeAck (m : Mtp2State) (buf : ℕ → Octet) : InSequence (takeAck m buf) buf ↔ InSequence m buf := by
  obtain ⟨_, _, h⟩ := takeAck_frame m buf
  rw [h]
  rfl

/-- The first unit in READY. -/
theorem mtp2GoodFrame_ready (hs : m.state = .ready) (hlen : liOf buf + 3 ≤ len)
    (hli : ¬ (liOf buf = 1 ∨ liOf buf = 2)) :
    mtp2GoodFrame c alive m buf len =
      some { enterService c (mtp2ErrorMonCountFrame m) buf with bsnErrors := 0 } := by
  have hst : (mtp2ErrorMonCountFrame m).state = .ready := by
    obtain ⟨_, _, hd⟩ := mtp2ErrorMonCountFrame_frame m
    rw [hd]
    exact hs
  have hlen' : ¬ liOf buf + 3 > len := by omega
  unfold mtp2GoodFrame
  dsimp only
  rw [hst, if_neg (by simp), if_neg hlen', if_neg hli, if_neg (by simp), if_pos rfl,
    takeUnit_enterService]

/-- **What a received frame can do.** -/
theorem mtp2GoodFrame_cases (h : mtp2GoodFrame c alive m buf len = some m') :
    ((m.state = .down ∨ len < liOf buf + 3) ∧ m' = mtp2ErrorMonCountFrame m) ∨
      (m.state ≠ .down ∧ liOf buf + 3 ≤ len ∧
        ((liOf buf = 1 ∨ liOf buf = 2) ∧
            mtp2ProcessLssu alive (mtp2ErrorMonCountFrame m) buf = some m' ∨
          ¬ (liOf buf = 1 ∨ liOf buf = 2) ∧
            (m.state = .inservice ∧ takeUnit c alive (mtp2ErrorMonCountFrame m) buf len = some m' ∨
              m.state = .ready ∧
                m' = { enterService c (mtp2ErrorMonCountFrame m) buf with bsnErrors := 0 } ∨
              m.state ≠ .inservice ∧ m.state ≠ .ready ∧ m' = mtp2ErrorMonCountFrame m))) := by
  have hst : (mtp2ErrorMonCountFrame m).state = m.state := by
    obtain ⟨_, _, hd⟩ := mtp2ErrorMonCountFrame_frame m
    rw [hd]
  unfold mtp2GoodFrame at h
  dsimp only at h
  rw [hst, takeUnit_enterService] at h
  split_ifs at h with hdown hlen hlssu hserv hready
  · exact .inl ⟨.inl hdown, (Option.some.inj h).symm⟩
  · exact .inl ⟨.inr (by omega), (Option.some.inj h).symm⟩
  · exact .inr ⟨hdown, by omega, .inl ⟨hlssu, h⟩⟩
  · exact .inr ⟨hdown, by omega, .inr ⟨hlssu, .inl ⟨hserv, h⟩⟩⟩
  · exact .inr ⟨hdown, by omega, .inr ⟨hlssu, .inr (.inl ⟨hready, (Option.some.inj h).symm⟩)⟩⟩
  · exact .inr ⟨hdown, by omega,
      .inr ⟨hlssu, .inr (.inr ⟨hserv, hready, (Option.some.inj h).symm⟩)⟩⟩

end Mtp2

end Trismedia
