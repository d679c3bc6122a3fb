import Trismedia.Common.Trace
import Trismedia.Mtp2.Calls
/-!
# Supervision of the acknowledgements

T7 is to run while an MSU in service waits for its acknowledgement. It is
started by `mtp2_queue_msu`, but only where no retransmission is under way,
and restarted by a new acknowledgement. So an MSU queued while a
retransmission runs on, over MSUs that were all acknowledged meanwhile, waits
without T7; and so do those a link carries into service with a
retransmission under way, or whose first frame acknowledges the number after
the last one sent. `acks_watched_iff` says that these are all.
-/


namespace Trismedia

namespace Mtp2

variable {c : Link} {alive : Bool} {m m' : Mtp2State} {e : Event} {buf : ℕ → Octet} {len : ℕ}
variable {sio : Octet} {sif : List Octet}

/-- **Watched**: in service with MSUs not acknowledged, T7 runs. -/
def Watched (m : Mtp2State) : Prop :=
  m.state = .inservice → m.retransLastAcked ≠ m.retransLastSent → m.t7 = true

/-- T7 runs in service only for MSUs not acknowledged. -/
def NotIdle (m : Mtp2State) : Prop :=
  m.state = .inservice → m.t7 = true → m.retransLastAcked ≠ m.retransLastSent

/-- What the supervision of acknowledgements depends on. -/
def Mtp2State.window (m : Mtp2State) : LinkState × Option ℕ × ℕ × ℕ × Bool :=
  (m.state, m.retransSeq, m.retransLastAcked, m.retransLastSent, m.t7)

/-- Out of service, or with the window of before. -/
def OutOrSame (m m' : Mtp2State) : Prop := m'.state ≠ .inservice ∨ m'.window = m.window

theorem watched_congr (h : m'.window = m.window) : Watched m' ↔ Watched m := by
  simp only [Mtp2State.window, Prod.mk.injEq] at h
  obtain ⟨hs, -, ha, hl, ht⟩ := h
  rw [Watched, Watched, hs, ha, hl, ht]

theorem notIdle_congr (h : m'.window = m.window) : NotIdle m' ↔ NotIdle m := by
  simp only [Mtp2State.window, Prod.mk.injEq] at h
  obtain ⟨hs, -, ha, hl, ht⟩ := h
  rw [NotIdle, NotIdle, hs, ha, hl, ht]

theorem OutOrSame.watched (h : OutOrSame m m') (hw : Watched m) : Watched m' := by
  rcases h with hout | hsame
  · exact fun hs => absurd hs hout
  · exact (watched_congr hsame).2 hw

theorem OutOrSame.notIdle (h : OutOrSame m m') (hi : NotIdle m) : NotIdle m' := by
  rcases h with hout | hsame
  · exact fun hs => absurd hs hout
  · exact (notIdle_congr hsame).2 hi

theorem OutOrSame.of_eq (h : m'.window = m.window) : OutOrSame m m' := .inr h

/-! ## Queueing -/

/-- A retransmission runs on though all MSUs are acknowledged. -/
def Blocked (m : Mtp2State) : Prop :=
  m.state = .inservice ∧ m.retransLastAcked = m.retransLastSent ∧ m.retransSeq ≠ none

theorem notIdle_mtp2QueueMsu (hi : NotIdle m) : NotIdle (mtp2QueueMsu m sio sif) := by
  by_cases h : Accepts m sif
  · rw [mtp2QueueMsu_of_accepts h]
    exact fun _ _ => Ne.symm h.2.2
  · rwa [mtp2QueueMsu_of_not_accepts h]

/-- **An MSU is taken unwatched exactly where a retransmission runs on
without a reason.** -/
theorem watched_mtp2QueueMsu (hi : NotIdle m) (hw : Watched m) (hlen : 2 ≤ sif.length) :
    Watched (mtp2QueueMsu m sio sif) ↔ ¬ Blocked m := by
  by_cases h : Accepts m sif
  · rw [mtp2QueueMsu_of_accepts h]
    constructor
    · rintro hw' ⟨hs, hall, hrs⟩
      have ht := hw' hs (Ne.symm h.2.2)
      simp only [accept, if_neg hrs] at ht
      exact hi hs ht hall
    · intro hb hs _
      by_cases hrs : m.retransSeq = none
      · simp only [accept, if_pos hrs]
      · simp only [accept, if_neg hrs]
        exact hw hs fun hall => hb ⟨hs, hall, hrs⟩
  · rw [mtp2QueueMsu_of_not_accepts h]
    refine ⟨fun _ hb => h ⟨.inl hb.1, hlen, ?_⟩, fun _ => hw⟩
    rw [hb.2.1]
    exact (mtpNextSeq_ne _).symm

/-- MSUs stay unwatched when one more is queued behind a retransmission, or
there is no room for it. -/
theorem unwatched_mtp2QueueMsu (hs : m.state = .inservice)
    (hne : m.retransLastAcked ≠ m.retransLastSent) (ht : m.t7 = false)
    (hwhy : m.retransSeq ≠ none ∨ mtpNextSeq m.retransLastSent = m.retransLastAcked) :
    ¬ Watched (mtp2QueueMsu m sio sif) := by
  intro hw
  by_cases h : Accepts m sif
  · rw [mtp2QueueMsu_of_accepts h] at hw
    have hrs : m.retransSeq ≠ none := hwhy.resolve_right h.2.2
    have ht' := hw hs (Ne.symm h.2.2)
    simp only [accept, if_neg hrs, ht] at ht'
    exact Bool.false_ne_true ht'
  · rw [mtp2QueueMsu_of_not_accepts h] at hw
    exact Bool.false_ne_true (ht ▸ hw hs hne)

theorem window_startSltmT1 : (startSltmT1 m).window = m.window := by
  obtain ⟨_, _, h⟩ := startSltmT1_frame m
  rw [h]
  rfl

theorem watched_mtp3SendSltm (hi : NotIdle m) (hw : Watched m) :
    Watched (mtp3SendSltm c m) ↔ ¬ Blocked m := by
  rw [mtp3SendSltm_eq, watched_congr window_startSltmT1]
  have := length_sltm c
  exact watched_mtp2QueueMsu hi hw (by omega)

theorem notIdle_mtp3SendSltm (hi : NotIdle m) : NotIdle (mtp3SendSltm c m) := by
  rw [mtp3SendSltm_eq, notIdle_congr window_startSltmT1]
  exact notIdle_mtp2QueueMsu hi

theorem window_l4up : (l4up m).window = m.window := by
  obtain ⟨_, _, h⟩ := l4up_frame m
  rw [h]
  rfl

theorem window_mtp2ErrorMonCountFrame : (mtp2ErrorMonCountFrame m).window = m.window := by
  obtain ⟨_, _, h⟩ := mtp2ErrorMonCountFrame_frame m
  rw [h]
  rfl

/-! ## Failures -/

theorem state_linkFailed {down : Bool} : (linkFailed m down).state ≠ .inservice := by
  unfold linkFailed
  cases down
  · obtain ⟨_, _, h⟩ := l4down_frame { m with state := .notAligned, fails := m.fails + 1 }
    simp [h]
  · obtain ⟨_, _, h⟩ := l4down_frame { m with state := .down, t17 := true, fails := m.fails + 1 }
    simp [h]

/-- A link that failed is out of service. -/
theorem state_mtp3LinkFail {down : Bool} (h : mtp3LinkFail alive m down = some m') :
    m'.state ≠ .inservice := by
  unfold mtp3LinkFail at h
  dsimp only at h
  split_ifs at h with hs
  · obtain ⟨x, -, rfl⟩ := Option.map_eq_some_iff.1 h
    exact state_linkFailed
  · rw [← Option.some.inj h]
    exact state_linkFailed

theorem state_abortInitialAlignment : (abortInitialAlignment m).state ≠ .inservice := by
  simp [abortInitialAlignment]

/-- A status unit takes the link out of service, or changes nothing there. -/
theorem outOrSame_mtp2ProcessLssu (h : mtp2ProcessLssu alive m buf = some m') : OutOrSame m m' := by
  unfold mtp2ProcessLssu at h
  dsimp only at h
  split_ifs at h
  · cases hs : m.state <;> simp only [hs, Option.some.injEq] at h
    · exact .inl (by simp [← h, hs])
    · exact .inl (by simp [← h])
    · exact .inl (by simp [← h, hs])
    · exact .inl (by simp [← h])
    · exact .inl (h ▸ state_abortInitialAlignment)
    · exact .inl (state_mtp3LinkFail h)
  · cases hs : m.state <;> simp only [hs, Option.some.injEq] at h
    · exact .inl (by simp [← h])
    · exact .inl (by simp [← h])
    · exact .inl (by simp [← h])
    · exact .inl (by simp [← h])
    · exact .inl (by simp [← h])
    · exact .inl (state_mtp3LinkFail h)
  · cases hs : m.state <;> simp only [hs, Option.some.injEq] at h
    · exact .inl (by simp [← h, hs])
    · exact .inl (by simp [← h, hs])
    · exact .inl (h ▸ state_abortInitialAlignment)
    · exact .inl (h ▸ state_abortInitialAlignment)
    · exact .inl (state_mtp3LinkFail h)
    · exact .inl (state_mtp3LinkFail h)
  · exact .of_eq (by rw [Option.some.inj h])
  · exact .inl (state_mtp3LinkFail h)

theorem outOrSame_mtp2EmonCountError (h : mtp2EmonCountError alive m = some m') :
    OutOrSame m m' := by
  unfold mtp2EmonCountError at h
  dsimp only at h
  split_ifs at h
  · exact .inl (state_mtp3LinkFail h)
  · exact .of_eq (by rw [← Option.some.inj h]; rfl)
  · exact .of_eq (by rw [Option.some.inj h])
  · exact .inl (Option.some.inj h ▸ state_abortInitialAlignment)
  · exact .of_eq (by rw [← Option.some.inj h]; rfl)
  · exact .of_eq (by rw [Option.some.inj h])

theorem outOrSame_mtp2BadFrame {log : BadLog} {now : ℤ}
    (h : mtp2BadFrame alive log now m = some m') : OutOrSame m m' := by
  unfold mtp2BadFrame at h
  split_ifs at h
  · exact .of_eq (by rw [Option.some.inj h])
  · rcases outOrSame_mtp2EmonCountError h with hout | hsame
    · exact .inl hout
    · exact .inr (hsame.trans window_mtp2ErrorMonCountFrame)

/-! ## Units -/

/-- The message in the buffer makes this end queue one: an SLTM, or an
invalid SLTA that is the first. -/
def Answers (c : Link) (m : Mtp2State) (buf : ℕ → Octet) : Prop :=
  TestMessage c buf 1 ∨ (TestMessage c buf 2 ∧ ¬ validSlta c buf ∧ m.sltmTries = 1)

theorem length_slta (c : Link) (buf : ℕ → Octet) :
    2 ≤ (mtp3PutLabel (slcOf c buf) c.variant (dpcOf c buf) (opcOf c buf) ++
      [0x21, UInt8.ofNat (sltPatternLen c buf <<< 4)] ++
      octetsFrom buf (headingAt c + 2) (sltPatternLen c buf)).length := by
  simp only [List.length_append, List.length_cons, List.length_nil]
  omega

theorem notIdle_processMsu (hi : NotIdle m) (h : processMsu c alive m buf len = some m') :
    NotIdle m' := by
  rcases processMsu_cases h with ⟨-, rfl⟩ | ⟨-, hslta⟩ | ⟨-, -, ev, rfl⟩
  · exact notIdle_mtp2QueueMsu (m := handOver m buf len) hi
  · rcases takeSlta_cases hslta with ⟨-, rfl⟩ | ⟨-, -, rfl⟩ | ⟨-, -, hfail⟩
    · exact (notIdle_congr window_l4up).2 hi
    · exact notIdle_mtp3SendSltm (m := { handOver m buf len with sltmT1 := false }) hi
    · exact fun hs => absurd hs (state_mtp3LinkFail hfail)
  · exact hi

theorem watched_processMsu (hi : NotIdle m) (hw : Watched m)
    (h : processMsu c alive m buf len = some m') :
    Watched m' ↔ ¬ (Answers c m buf ∧ Blocked m) := by
  rcases processMsu_cases h with ⟨h1, rfl⟩ | ⟨h2, hslta⟩ | ⟨h1, h2, ev, rfl⟩
  · have hans : Answers c m buf := .inl h1
    have hq : Watched (queueSlta c (handOver m buf len) buf) ↔ ¬ Blocked (handOver m buf len) :=
      watched_mtp2QueueMsu hi hw (length_slta c buf)
    exact hq.trans ⟨fun hb hx => hb hx.2, fun hx hb => hx ⟨hans, hb⟩⟩
  · have h1 : ¬ TestMessage c buf 1 := fun hx => by
      have := hx.heading_eq h2
      omega
    rcases takeSlta_cases hslta with ⟨hv, rfl⟩ | ⟨hv, ht, rfl⟩ | ⟨hv, ht, hfail⟩
    · have hno : ¬ Answers c m buf := fun hx => hx.elim h1 fun hy => hy.2.1 hv
      exact ⟨fun _ hx => hno hx.1, fun _ => (watched_congr window_l4up).2 hw⟩
    · have hans : Answers c m buf := .inr ⟨h2, hv, ht⟩
      have hq := watched_mtp3SendSltm (c := c)
        (m := { handOver m buf len with sltmT1 := false }) hi hw
      exact hq.trans ⟨fun hb hx => hb hx.2, fun hx hb => hx ⟨hans, hb⟩⟩
    · have hno : ¬ Answers c m buf := fun hx => hx.elim h1 fun hy => ht hy.2.2
      exact ⟨fun _ hx => hno hx.1, fun _ hs => absurd hs (state_mtp3LinkFail hfail)⟩
  · have hno : ¬ Answers c m buf := fun hx => hx.elim h1 fun hy => h2 hy.1
    exact ⟨fun _ hx => hno hx.1, fun _ => hw⟩

theorem window_askAgain {fib : Bool} : (askAgain m fib).window = m.window := by
  obtain ⟨_, h⟩ := askAgain_frame m fib
  rw [h]
  rfl

theorem window_takeFisu {fsn : ℕ} {fib : Bool} : (takeFisu m fsn fib).window = m.window := by
  obtain ⟨_, h⟩ := takeFisu_frame m fsn fib
  rw [h]
  rfl

theorem notIdle_takeMsu (hi : NotIdle m) (h : takeMsu c alive m buf len = some m') :
    NotIdle m' := by
  rcases takeMsu_cases h with ⟨-, -, rfl⟩ | ⟨-, -, hmsu⟩ | ⟨-, -, rfl⟩ | ⟨-, -, rfl⟩
  · exact hi
  · exact notIdle_processMsu (m := { m with sendBsn := fsnOf buf }) hi hmsu
  · exact (notIdle_congr window_askAgain).2 hi
  · exact hi

theorem watched_takeMsu (hi : NotIdle m) (hw : Watched m)
    (h : takeMsu c alive m buf len = some m') :
    Watched m' ↔ ¬ ((5 ≤ liOf buf ∧ InSequence m buf) ∧ Answers c m buf ∧ Blocked m) := by
  rcases takeMsu_cases h with
    ⟨-, hli, rfl⟩ | ⟨hseq, hli, hmsu⟩ | ⟨-, hnext, rfl⟩ | ⟨hseq, -, rfl⟩
  · refine ⟨fun _ hx => ?_, fun _ => hw⟩
    have := hx.1.1
    omega
  · have hp := watched_processMsu (m := { m with sendBsn := fsnOf buf }) hi hw hmsu
    exact hp.trans ⟨fun hno hx => hno hx.2, fun hno hx => hno ⟨⟨hli, hseq⟩, hx⟩⟩
  · exact ⟨fun _ hx => hnext hx.1.2.1, fun _ => (watched_congr window_askAgain).2 hw⟩
  · exact ⟨fun _ hx => hseq hx.1.2, fun _ => hw⟩

/-! ### The acknowledgement of a unit -/

theorem watched_takeAck (hw : Watched m) : Watched (takeAck m buf) := by
  obtain ⟨rs, hrs⟩ := takeBib_frame (takeBsn { m with bsnErrors := 0 } (bsnOf buf)) (bsnOf buf)
    (bibOf buf)
  rw [takeAck, hrs]
  unfold takeBsn
  dsimp only
  split_ifs with hacked
  · exact hw
  · intro _ hne
    exact decide_eq_true hne

theorem notIdle_takeAck (hi : NotIdle m) : NotIdle (takeAck m buf) := by
  obtain ⟨rs, hrs⟩ := takeBib_frame (takeBsn { m with bsnErrors := 0 } (bsnOf buf)) (bsnOf buf)
    (bibOf buf)
  rw [takeAck, hrs]
  unfold takeBsn
  dsimp only
  split_ifs with hacked
  · exact hi
  · intro _ ht
    exact of_decide_eq_true ht

/-- After an acknowledgement a retransmission runs on without a reason if
the frame acknowledges all and does not turn its BIB. -/
theorem blocked_takeAck :
    Blocked (takeAck m buf) ↔
      m.state = .inservice ∧ bsnOf buf = m.retransLastSent ∧ bibOf buf = m.sendFib ∧
        m.retransSeq ≠ none := by
  obtain ⟨t, ht⟩ := takeBsn_frame { m with bsnErrors := 0 } (bsnOf buf)
  rw [takeAck, ht]
  unfold takeBib Blocked
  dsimp only
  split_ifs with hb hl
  · exact ⟨fun hx => ⟨hx.1, hx.2.1, hb, hx.2.2⟩, fun hx => ⟨hx.1, hx.2.1, hx.2.2.2⟩⟩
  · exact ⟨fun hx => absurd rfl hx.2.2, fun hx => absurd hx.2.2.1 hb⟩
  · exact ⟨fun hx => absurd hx.2.1 hl, fun hx => absurd hx.2.2.1 hb⟩

/-- **The units that leave MSUs unwatched**: one that acknowledges all while
a retransmission runs, and makes this end queue an MSU. -/
def UnitUnwatches (c : Link) (m : Mtp2State) (buf : ℕ → Octet) : Prop :=
  HandsOver m buf ∧ Answers c m buf ∧ bsnOf buf = m.retransLastSent ∧ bibOf buf = m.sendFib ∧
    m.retransSeq ≠ none

theorem watched_takeUnit (hserv : m.state = .inservice) (hi : NotIdle m) (hw : Watched m)
    (h : takeUnit c alive m buf len = some m') : Watched m' ↔ ¬ UnitUnwatches c m buf := by
  rcases takeUnit_cases h with ⟨hill, hfail | rfl⟩ | ⟨-, hli, rfl⟩ | ⟨hill, -, hmsu⟩
  · exact ⟨fun _ hx => hx.1.1 hill, fun _ hs => absurd hs (state_mtp3LinkFail hfail)⟩
  · exact ⟨fun _ hx => hx.1.1 hill, fun _ => hw⟩
  · refine ⟨fun _ hx => ?_, fun _ => (watched_congr window_takeFisu).2 (watched_takeAck hw)⟩
    have := hx.1.2.1
    omega
  · obtain ⟨t, rs, hack⟩ := takeAck_frame m buf
    have hans : Answers c (takeAck m buf) buf ↔ Answers c m buf := by
      rw [hack]
      rfl
    rw [watched_takeMsu (notIdle_takeAck hi) (watched_takeAck hw) hmsu, inSequence_takeAck,
      blocked_takeAck, hans]
    exact ⟨fun hno hx => hno ⟨hx.1.2, hx.2.1, hserv, hx.2.2⟩,
      fun hno hx => hno ⟨⟨hill, hx.1⟩, hx.2.1, hx.2.2.2⟩⟩

theorem notIdle_takeUnit (hi : NotIdle m) (h : takeUnit c alive m buf len = some m') :
    NotIdle m' := by
  rcases takeUnit_cases h with ⟨-, hfail | rfl⟩ | ⟨-, -, rfl⟩ | ⟨-, -, hmsu⟩
  · exact fun hs => absurd hs (state_mtp3LinkFail hfail)
  · exact hi
  · exact (notIdle_congr window_takeFisu).2 (notIdle_takeAck hi)
  · exact notIdle_takeMsu (notIdle_takeAck hi) hmsu

/-! ### Entering service -/

theorem notIdle_enterService (c : Link) (m : Mtp2State) (buf : ℕ → Octet) :
    NotIdle (enterService c m buf) := by
  have h0 : NotIdle (putInService m buf) := fun _ ht => absurd ht Bool.false_ne_true
  have h1 : NotIdle (queueTra c (putInService m buf)) := notIdle_mtp2QueueMsu h0
  rw [enterService_eq]
  split_ifs
  · exact notIdle_mtp3SendSltm h1
  · exact (notIdle_congr window_l4up).2 h1

theorem length_tra : 2 ≤ (mtp3PutLabel c.sls c.variant c.opc c.peerpc ++ [0x17]).length := by
  have := length_mtp3PutLabel c.sls c.variant c.opc c.peerpc
  simp only [List.length_append, List.length_cons, List.length_nil]
  omega

/-- After an MSU was offered in service there is one to acknowledge, and a
next one finds a retransmission or no room. -/
theorem behind_mtp2QueueMsu (hs : m.state = .inservice) (hlen : 2 ≤ sif.length) :
    (mtp2QueueMsu m sio sif).retransLastAcked ≠ (mtp2QueueMsu m sio sif).retransLastSent ∧
      ((mtp2QueueMsu m sio sif).retransSeq ≠ none ∨
        mtpNextSeq (mtp2QueueMsu m sio sif).retransLastSent =
          (mtp2QueueMsu m sio sif).retransLastAcked) := by
  by_cases h : Accepts m sif
  · rw [mtp2QueueMsu_of_accepts h]
    refine ⟨Ne.symm h.2.2, .inl ?_⟩
    unfold accept
    dsimp only
    split_ifs with hrs
    · exact Option.some_ne_none _
    · exact hrs
  · have hroom : mtpNextSeq m.retransLastSent = m.retransLastAcked :=
      by_contra fun hx => h ⟨.inl hs, hlen, hx⟩
    rw [mtp2QueueMsu_of_not_accepts h]
    refine ⟨?_, .inr hroom⟩
    rw [← hroom]
    exact (mtpNextSeq_ne _).symm

theorem watched_queueTra :
    Watched (queueTra c (putInService m buf)) ↔
      m.retransSeq = none ∧ bsnOf buf ≠ mtpNextSeq m.retransLastSent := by
  by_cases hroom : bsnOf buf = mtpNextSeq m.retransLastSent
  · have hbad : ¬ Watched (queueTra c (putInService m buf)) :=
      unwatched_mtp2QueueMsu rfl
        (fun hx => mtpNextSeq_ne m.retransLastSent (hx.symm.trans hroom)) rfl (.inr hroom.symm)
    exact ⟨fun hx => absurd hx hbad, fun hx => absurd hroom hx.2⟩
  · have hacc : Accepts (putInService m buf)
        (mtp3PutLabel c.sls c.variant c.opc c.peerpc ++ [0x17]) := ⟨.inl rfl, length_tra, Ne.symm hroom⟩
    rw [queueTra, mtp2QueueMsu_of_accepts hacc]
    constructor
    · intro hx
      refine ⟨by_contra fun hrs => ?_, hroom⟩
      have ht := hx rfl hroom
      simp [accept, putInService, hrs] at ht
    · rintro ⟨hrs, -⟩ - -
      simp [accept, putInService, hrs]

/-- **The link enters service watched** exactly with no retransmission under
way and with room for its first message. -/
theorem watched_enterService (c : Link) (m : Mtp2State) (buf : ℕ → Octet) :
    Watched (enterService c m buf) ↔
      m.retransSeq = none ∧ bsnOf buf ≠ mtpNextSeq m.retransLastSent := by
  rw [← watched_queueTra (c := c), enterService_eq]
  split_ifs
  · set x := queueTra c (putInService m buf) with hx
    have hi : NotIdle x := notIdle_mtp2QueueMsu (fun _ ht => absurd ht Bool.false_ne_true)
    have hfull : x.retransLastAcked ≠ x.retransLastSent ∧
        (x.retransSeq ≠ none ∨ mtpNextSeq x.retransLastSent = x.retransLastAcked) :=
      behind_mtp2QueueMsu rfl length_tra
    have hwatch : Watched (mtp3SendSltm c x) ↔ Watched x := by
      constructor
      · intro hw hs hne
        refine by_contra fun ht => ?_
        rw [mtp3SendSltm_eq, watched_congr window_startSltmT1] at hw
        exact unwatched_mtp2QueueMsu hs hne (Bool.eq_false_iff.2 ht) hfull.2 hw
      · intro hw
        exact (watched_mtp3SendSltm hi hw).2 fun hb => hfull.1 hb.2.1
    exact hwatch
  · exact watched_congr window_l4up

/-! ## One event -/

/-- The frames that leave MSUs unwatched. -/
def FrameUnwatches (c : Link) (m : Mtp2State) (buf : ℕ → Octet) (len : ℕ) : Prop :=
  liOf buf + 3 ≤ len ∧ ¬ (liOf buf = 1 ∨ liOf buf = 2) ∧
    (m.state = .ready ∧
        (m.retransSeq ≠ none ∨ bsnOf buf = mtpNextSeq m.retransLastSent) ∨
      m.state = .inservice ∧ UnitUnwatches c m buf)

theorem watched_mtp2GoodFrame (hi : NotIdle m) (hw : Watched m)
    (h : mtp2GoodFrame c alive m buf len = some m') :
    Watched m' ↔ ¬ FrameUnwatches c m buf len := by
  have hcw : Watched (mtp2ErrorMonCountFrame m) := (watched_congr window_mtp2ErrorMonCountFrame).2 hw
  have hci : NotIdle (mtp2ErrorMonCountFrame m) :=
    (notIdle_congr window_mtp2ErrorMonCountFrame).2 hi
  obtain ⟨d, r, hdr⟩ := mtp2ErrorMonCountFrame_frame m
  rcases mtp2GoodFrame_cases h with ⟨hskip, rfl⟩ | ⟨hdown, hlen, hlssu | hunit⟩
  · refine ⟨fun _ hx => ?_, fun _ => hcw⟩
    rcases hskip with hd | hl
    · rcases hx.2.2 with hy | hy <;> simp [hd] at hy
    · have := hx.1
      omega
  · obtain ⟨hli, hproc⟩ := hlssu
    exact ⟨fun _ hx => hx.2.1 hli, fun _ => (outOrSame_mtp2ProcessLssu hproc).watched hcw⟩
  obtain ⟨hli, hin | hready | hother⟩ := hunit
  · obtain ⟨hserv, hu⟩ := hin
    have hcs : (mtp2ErrorMonCountFrame m).state = .inservice := by
      rw [hdr]
      exact hserv
    rw [watched_takeUnit hcs hci hcw hu, hdr]
    refine not_congr ⟨fun hx => ⟨hlen, hli, .inr ⟨hserv, hx⟩⟩, fun hx => ?_⟩
    rcases hx.2.2 with hy | hy
    · simp [hserv] at hy
    · exact hy.2
  · obtain ⟨hready, rfl⟩ := hready
    have hent := watched_enterService c (mtp2ErrorMonCountFrame m) buf
    refine Iff.trans (b := Watched (enterService c (mtp2ErrorMonCountFrame m) buf)) Iff.rfl ?_
    rw [hent, hdr]
    constructor
    · rintro ⟨hrs, hroom⟩ hx
      rcases hx.2.2 with hy | hy
      · exact hy.2.elim (fun hz => hz hrs) hroom
      · simp [hready] at hy
    · intro hno
      refine ⟨by_contra fun hrs => hno ⟨hlen, hli, .inl ⟨hready, .inl hrs⟩⟩, fun hroom => ?_⟩
      exact hno ⟨hlen, hli, .inl ⟨hready, .inr hroom⟩⟩
  · obtain ⟨hserv, hready, rfl⟩ := hother
    refine ⟨fun _ hx => ?_, fun _ => hcw⟩
    exact hx.2.2.elim (fun hy => hready hy.1) fun hy => hserv hy.1

theorem notIdle_mtp2GoodFrame (hi : NotIdle m) (h : mtp2GoodFrame c alive m buf len = some m') :
    NotIdle m' := by
  have hci : NotIdle (mtp2ErrorMonCountFrame m) :=
    (notIdle_congr window_mtp2ErrorMonCountFrame).2 hi
  rcases mtp2GoodFrame_cases h with ⟨-, rfl⟩ | ⟨-, -, hlssu | hunit⟩
  · exact hci
  · exact (outOrSame_mtp2ProcessLssu hlssu.2).notIdle hci
  · obtain ⟨-, hin | hready | hother⟩ := hunit
    · exact notIdle_takeUnit hci hin.2
    · obtain ⟨-, rfl⟩ := hready
      exact notIdle_enterService c (mtp2ErrorMonCountFrame m) buf
    · obtain ⟨-, -, rfl⟩ := hother
      exact hci

/-- **The events that leave MSUs in service without T7.** -/
def Unwatches (c : Link) (m : Mtp2State) : Event → Prop
  | .goodFrame buf len => FrameUnwatches c m buf len
  | .queueMsu _ sif => 2 ≤ sif.length ∧ Blocked m
  | .expire .sltmT1 => m.sltmTries = 1 ∧ Blocked m
  | .expire .sltmT2 => Blocked m
  | _ => False

/-- Events after which a link is out of service or has the window of
before. -/
theorem outOrSame_expire {t : Timer} (ht : t ≠ .sltmT1 ∧ t ≠ .sltmT2)
    (h : expire c alive m t = some m') : OutOrSame m m' := by
  cases t with
  | t1 => exact .inl (Option.some.inj h ▸ state_abortInitialAlignment)
  | t2 => exact .inl (Option.some.inj h ▸ state_abortInitialAlignment)
  | t3 => exact .inl (Option.some.inj h ▸ state_abortInitialAlignment)
  | t4 => exact .inl (by rw [← Option.some.inj h]; simp)
  | t7 => exact .inl (state_mtp3LinkFail h)
  | t17 => exact .inl (by rw [← Option.some.inj h]; simp [startInitialAlignment])
  | sltmT1 => exact absurd rfl ht.1
  | sltmT2 => exact absurd rfl ht.2

theorem watched_expire {t : Timer} (hi : NotIdle m) (hw : Watched m)
    (h : expire c alive m t = some m') : Watched m' ↔ ¬ Unwatches c m (.expire t) := by
  by_cases h1 : t = .sltmT1
  · subst h1
    simp only [expire, timeoutSltmT1] at h
    by_cases ht : m.sltmTries = 1
    · rw [if_pos ht] at h
      have hw' := watched_mtp3SendSltm (c := c) hi hw
      rw [← Option.some.inj h]
      exact hw'.trans ⟨fun hb hx => hb hx.2, fun hx hb => hx ⟨ht, hb⟩⟩
    · rw [if_neg ht] at h
      exact ⟨fun _ hx => ht hx.1, fun _ hs => absurd hs (state_mtp3LinkFail h)⟩
  by_cases h2 : t = .sltmT2
  · subst h2
    rw [← Option.some.inj h]
    exact watched_mtp3SendSltm hi hw
  · have hno : ¬ Unwatches c m (.expire t) := by
      cases t <;> simp [Unwatches] at h1 h2 ⊢
    exact ⟨fun _ => hno, fun _ => (outOrSame_expire ⟨h1, h2⟩ h).watched hw⟩

theorem notIdle_expire {t : Timer} (hi : NotIdle m) (h : expire c alive m t = some m') :
    NotIdle m' := by
  by_cases h1 : t = .sltmT1
  · subst h1
    simp only [expire, timeoutSltmT1] at h
    split_ifs at h with ht
    · rw [← Option.some.inj h]
      exact notIdle_mtp3SendSltm (c := c) hi
    · exact fun hs => absurd hs (state_mtp3LinkFail h)
  by_cases h2 : t = .sltmT2
  · subst h2
    rw [← Option.some.inj h]
    exact notIdle_mtp3SendSltm hi
  · exact (outOrSame_expire ⟨h1, h2⟩ h).notIdle hi

theorem watched_mtp2PickFrame :
    Watched (mtp2PickFrame m).1 ↔ Watched m := by
  obtain ⟨rs, h⟩ := mtp2PickFrame_frame m
  rw [h]
  rfl

/-- Events that are no frame, no MSU and no expiry. -/
theorem outOrSame_linkStep (h : linkStep c alive m e = some m')
    (he : (∃ log now, e = .badFrame log now ∨ e = .formatError log now) ∨ e = .octet ∨
      e = .linkUp ∨ e = .linkDown) : OutOrSame m m' := by
  rcases he with ⟨log, now, rfl | rfl⟩ | rfl | rfl | rfl
  · exact outOrSame_mtp2BadFrame h
  · obtain ⟨x, hx, rfl⟩ := Option.map_eq_some_iff.1 h
    rcases outOrSame_mtp2BadFrame hx with hout | hsame
    · exact .inl hout
    · exact .inr hsame
  · simp only [linkStep, countOctet] at h
    split_ifs at h
    · rcases outOrSame_mtp2EmonCountError h with hout | hsame
      · exact .inl hout
      · exact .inr (hsame.trans rfl)
    · exact .inr (by rw [← Option.some.inj h]; rfl)
  · exact .inl (by rw [← Option.some.inj h]; simp [startInitialAlignment])
  · obtain ⟨_, _, hl⟩ := l4down_frame (mtp2Cleanup { m with state := .down })
    exact .inl (by rw [← Option.some.inj h, hl]; simp [mtp2Cleanup])

theorem notIdle_linkStep (hi : NotIdle m) (h : linkStep c alive m e = some m') : NotIdle m' := by
  cases e with
  | goodFrame buf len => exact notIdle_mtp2GoodFrame hi h
  | expire t =>
    simp only [linkStep] at h
    split_ifs at h
    exact notIdle_expire hi h
  | queueMsu sio sif =>
    rw [← Option.some.inj h]
    exact notIdle_mtp2QueueMsu hi
  | pickFrame =>
    obtain ⟨rs, hrs⟩ := mtp2PickFrame_frame m
    rw [← Option.some.inj h, hrs]
    exact hi
  | badFrame log now => exact (outOrSame_linkStep h (.inl ⟨log, now, .inl rfl⟩)).notIdle hi
  | formatError log now => exact (outOrSame_linkStep h (.inl ⟨log, now, .inr rfl⟩)).notIdle hi
  | octet => exact (outOrSame_linkStep h (.inr (.inl rfl))).notIdle hi
  | linkUp => exact (outOrSame_linkStep h (.inr (.inr (.inl rfl)))).notIdle hi
  | linkDown => exact (outOrSame_linkStep h (.inr (.inr (.inr rfl)))).notIdle hi

/-- **One event**: a watched link stays watched exactly if the event does not
leave MSUs without T7. -/
theorem watched_linkStep (hi : NotIdle m) (hw : Watched m)
    (h : linkStep c alive m e = some m') : Watched m' ↔ ¬ Unwatches c m e := by
  have hkeep : Watched m' → (Watched m' ↔ ¬ False) := fun hw' => ⟨fun _ => id, fun _ => hw'⟩
  cases e with
  | goodFrame buf len => exact watched_mtp2GoodFrame hi hw h
  | expire t =>
    simp only [linkStep] at h
    split_ifs at h
    exact watched_expire hi hw h
  | queueMsu sio sif =>
    rw [← Option.some.inj h]
    by_cases hlen : 2 ≤ sif.length
    · exact (watched_mtp2QueueMsu hi hw hlen).trans
        ⟨fun hb hx => hb hx.2, fun hx hb => hx ⟨hlen, hb⟩⟩
    · have hno : ¬ Accepts m sif := fun hx => hlen hx.2.1
      rw [mtp2QueueMsu_of_not_accepts hno]
      exact ⟨fun _ hx => hlen hx.1, fun _ => hw⟩
  | pickFrame =>
    rw [← Option.some.inj h]
    exact ⟨fun _ => id, fun _ => watched_mtp2PickFrame.2 hw⟩
  | badFrame log now => exact hkeep ((outOrSame_linkStep h (.inl ⟨log, now, .inl rfl⟩)).watched hw)
  | formatError log now =>
    exact hkeep ((outOrSame_linkStep h (.inl ⟨log, now, .inr rfl⟩)).watched hw)
  | octet => exact hkeep ((outOrSame_linkStep h (.inr (.inl rfl))).watched hw)
  | linkUp => exact hkeep ((outOrSame_linkStep h (.inr (.inr (.inl rfl)))).watched hw)
  | linkDown => exact hkeep ((outOrSame_linkStep h (.inr (.inr (.inr rfl)))).watched hw)

/-! ## Runs -/

/-- **Exactly the runs without such an event are watched throughout.** -/
theorem acks_watched_iff (c : Link) (subservice : Option ℕ) (evs : List (Bool × Event))
    (m : Mtp2State) :
    Trace (fun t e u => LinkStep c t e u ∧ Watched u) (mtpInitLinkData subservice) evs m ↔
      Trace (fun t e u => LinkStep c t e u ∧ ¬ Unwatches c t e.2) (mtpInitLinkData subservice)
        evs m :=
  Trace.kept_iff_met (J := NotIdle) (fun _ _ _ hi hstep => notIdle_linkStep hi hstep)
    (fun _ _ _ hi hw hstep => watched_linkStep hi hw hstep)
    (fun _ ht => absurd ht Bool.false_ne_true) (fun _ hne => absurd rfl hne)

/-- The number of the message unit the event puts on the line. -/
def sentBy (m : Mtp2State) : Event → List ℕ
  | .pickFrame =>
    let frame := (mtp2PickFrame m).2
    if (frame.getD 2 0).toNat &&& 0x3f < 3 then [] else [(frame.getD 1 0).toNat &&& 0x7f]
  | _ => []

/-- The frame acknowledges nothing, or a message unit of those sent. -/
def AcksReceived (sent : List ℕ) : Event → Prop
  | .goodFrame buf _ =>
    liOf buf = 1 ∨ liOf buf = 2 ∨ bsnOf buf = 0x7f ∨ bsnOf buf ∈ sent
  | _ => True

/-- **A step against a peer that acknowledges only what it received**; the
second component are the numbers of the message units sent so far. -/
def PeerStep (c : Link) (x : Mtp2State × List ℕ) (e : Bool × Event) (y : Mtp2State × List ℕ) :
    Prop :=
  LinkStep c x.1 e y.1 ∧ y.2 = x.2 ++ sentBy x.1 e.2 ∧ AcksReceived x.2 e.2

/-- A fill-in unit on the line. -/
def fisuBuf (i : ℕ) : Octet := [0xff, 0xff, 0].getD i 0

/-- An MSU queued in READY, then the first frame of the peer, which
acknowledges nothing: the link is in service with two MSUs waiting, and T7
does not run. -/
theorem not_acks_watched :
    ¬ ∀ (c : Link) (subservice : Option ℕ) (evs : List (Bool × Event)) (m : Mtp2State)
        (sent : List ℕ),
      Trace (PeerStep c) (mtpInitLinkData subservice, []) evs (m, sent) → Watched m := by
  intro hall
  let c : Link := ⟨.itu, 1, 2, 0, false⟩
  let m1 := startInitialAlignment (mtpInitLinkData none)
  let m2 : Mtp2State := { m1 with t2 := false, t3 := true, state := .aligned }
  let m3 : Mtp2State := { m2 with t3 := false, t4 := true, state := .proving }
  let m4 : Mtp2State := { m3 with state := .ready, t4 := false, t1 := true }
  let m5 := accept m4 5 [1, 2, 3, 4]
  let m6 : Mtp2State :=
    { enterService c (mtp2ErrorMonCountFrame m5) fisuBuf with bsnErrors := 0 }
  have h1 : PeerStep c (mtpInitLinkData none, []) (false, .linkUp) (m1, []) := ⟨rfl, rfl, trivial⟩
  have h2 : PeerStep c (m1, []) (false, .goodFrame (lssuBuf 2) 4) (m2, []) := ⟨rfl, rfl, .inl rfl⟩
  have h3 : PeerStep c (m2, []) (false, .goodFrame (lssuBuf 2) 4) (m3, []) := ⟨rfl, rfl, .inl rfl⟩
  have h4 : PeerStep c (m3, []) (false, .expire .t4) (m4, []) := ⟨rfl, rfl, trivial⟩
  have hacc : Accepts m4 [1, 2, 3, 4] := ⟨.inr rfl, by decide, by decide⟩
  have h5 : PeerStep c (m4, []) (false, .queueMsu 5 [1, 2, 3, 4]) (m5, []) :=
    ⟨congrArg some (mtp2QueueMsu_of_accepts hacc), rfl, trivial⟩
  have hready : m5.state = .ready := rfl
  have hgood : mtp2GoodFrame c false m5 fisuBuf 3 = some m6 :=
    mtp2GoodFrame_ready hready (by decide) (by decide)
  have h6 : PeerStep c (m5, []) (false, .goodFrame fisuBuf 3) (m6, []) :=
    ⟨hgood, rfl, .inr (.inr (.inl rfl))⟩
  have hrun := ((Trace.nil.snoc h1).snoc h2).snoc h3 |>.snoc h4 |>.snoc h5 |>.snoc h6
  have hw := hall c none _ m6 [] hrun
  have hnone : m5.retransSeq = none := ((watched_enterService _ _ _).1 hw).1
  have hsome : m5.retransSeq ≠ none := by decide
  exact hsome hnone

end Mtp2

end Trismedia
