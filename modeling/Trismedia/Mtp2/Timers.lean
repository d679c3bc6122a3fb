import Trismedia.Common.Trace
import Trismedia.Mtp2.Calls
/-!
# The alignment timers

Each state of an alignment has its timer: T2, T3, T4 and T1. A link whose
running timers are those of its state is supervised. Three events break
this: a failure that puts the link into NOT_ALIGNED in place
(`mtp3_link_fail` with `down` 0 starts no T2), a status O while proving
(T4 stops, T3 does not start), and the start of an alignment while another
one is under way (its timer runs on). `link_supervised_iff` says that there
is no fourth.
-/


namespace Trismedia

namespace Mtp2

variable {c : Link} {alive : Bool} {m m' : Mtp2State} {e : Event} {buf : ℕ → Octet} {len : ℕ}

/-- **Supervised**: the alignment timer that runs is the one of the state. -/
structure Supervised (m : Mtp2State) : Prop where
  t1 : m.t1 = true ↔ m.state = .ready
  t2 : m.t2 = true ↔ m.state = .notAligned
  t3 : m.t3 = true ↔ m.state = .aligned
  t4 : m.t4 = true ↔ m.state = .proving

/-- What supervision depends on. -/
def Mtp2State.alignment (m : Mtp2State) : LinkState × Bool × Bool × Bool × Bool :=
  (m.state, m.t1, m.t2, m.t3, m.t4)

/-- A link at rest: no alignment timer runs. -/
def atRest (s : LinkState) : LinkState × Bool × Bool × Bool × Bool := (s, false, false, false, false)

theorem supervised_congr (h : m'.alignment = m.alignment) : Supervised m' ↔ Supervised m := by
  simp only [Mtp2State.alignment, Prod.mk.injEq] at h
  obtain ⟨hs, h1, h2, h3, h4⟩ := h
  constructor
  · rintro ⟨a, b, c, d⟩
    exact ⟨by rw [← h1, ← hs, a], by rw [← h2, ← hs, b], by rw [← h3, ← hs, c],
      by rw [← h4, ← hs, d]⟩
  · rintro ⟨a, b, c, d⟩
    exact ⟨by rw [h1, hs, a], by rw [h2, hs, b], by rw [h3, hs, c], by rw [h4, hs, d]⟩

/-- At rest only DOWN and INSERVICE are supervised. -/
theorem supervised_atRest {s : LinkState} (h : m.alignment = atRest s) :
    Supervised m ↔ s = .down ∨ s = .inservice := by
  simp only [Mtp2State.alignment, atRest, Prod.mk.injEq] at h
  obtain ⟨hs, h1, h2, h3, h4⟩ := h
  constructor
  · rintro ⟨a, b, c, d⟩
    rw [h1, hs] at a
    rw [h2, hs] at b
    rw [h3, hs] at c
    rw [h4, hs] at d
    cases s <;> simp at a b c d ⊢
  · intro hdone
    constructor
    · rw [h1, hs]
      rcases hdone with rfl | rfl <;> simp
    · rw [h2, hs]
      rcases hdone with rfl | rfl <;> simp
    · rw [h3, hs]
      rcases hdone with rfl | rfl <;> simp
    · rw [h4, hs]
      rcases hdone with rfl | rfl <;> simp

/-! ## Functions that leave the alignment alone -/

@[simp] theorem alignment_mtp2QueueMsu {sio : Octet} {sif : List Octet} :
    (mtp2QueueMsu m sio sif).alignment = m.alignment := by
  obtain ⟨_, _, _, _, _, h⟩ := mtp2QueueMsu_frame m sio sif
  rw [h]
  rfl

@[simp] theorem alignment_mtp3SendSltm : (mtp3SendSltm c m).alignment = m.alignment := by
  rw [mtp3SendSltm_eq]
  obtain ⟨_, _, h⟩ := startSltmT1_frame (mtp2QueueMsu m (serviceOctet m 1) (sltm c))
  rw [h]
  exact alignment_mtp2QueueMsu.trans rfl

@[simp] theorem alignment_l4up : (l4up m).alignment = m.alignment := by
  obtain ⟨_, _, h⟩ := l4up_frame m
  rw [h]
  rfl

@[simp] theorem alignment_l4down : (l4down m).alignment = m.alignment := by
  obtain ⟨_, _, h⟩ := l4down_frame m
  rw [h]
  rfl

@[simp] theorem alignment_mtp2ErrorMonCountFrame :
    (mtp2ErrorMonCountFrame m).alignment = m.alignment := by
  obtain ⟨_, _, h⟩ := mtp2ErrorMonCountFrame_frame m
  rw [h]
  rfl

@[simp] theorem alignment_mtp2PickFrame : (mtp2PickFrame m).1.alignment = m.alignment := by
  obtain ⟨_, h⟩ := mtp2PickFrame_frame m
  rw [h]
  rfl

@[simp] theorem alignment_askAgain {fib : Bool} : (askAgain m fib).alignment = m.alignment := by
  obtain ⟨_, h⟩ := askAgain_frame m fib
  rw [h]
  rfl

@[simp] theorem alignment_takeFisu {fsn : ℕ} {fib : Bool} :
    (takeFisu m fsn fib).alignment = m.alignment := by
  obtain ⟨_, h⟩ := takeFisu_frame m fsn fib
  rw [h]
  rfl

theorem alignment_changeoverLoop {fuel i : ℕ} (h : changeoverLoop fuel i m = some m') :
    m'.alignment = m.alignment := by
  induction fuel generalizing i m with
  | zero => simp [changeoverLoop] at h
  | succ n ih =>
    rw [changeoverLoop] at h
    split_ifs at h with h1 h2
    · rw [Option.some.inj h]
    · exact (ih h).trans rfl

theorem alignment_mtpChangeover (h : mtpChangeover alive m = some m') :
    m'.alignment = m.alignment := by
  unfold mtpChangeover at h
  split_ifs at h with ha
  · exact alignment_changeoverLoop h
  · rw [← Option.some.inj h]
    rfl

/-- The state a failure leaves. -/
def failedTo (down : Bool) : LinkState := if down then .down else .notAligned

theorem alignment_linkFailed {down : Bool} (h : ∃ s, m.alignment = atRest s) :
    (linkFailed m down).alignment = atRest (failedTo down) := by
  obtain ⟨s, hs⟩ := h
  simp only [Mtp2State.alignment, atRest, Prod.mk.injEq] at hs
  obtain ⟨-, h1, h2, h3, h4⟩ := hs
  unfold linkFailed
  rw [alignment_l4down]
  cases down <;> simp [Mtp2State.alignment, atRest, failedTo, h1, h2, h3, h4]

/-- **A failure stops all alignment timers** and starts none. -/
theorem alignment_mtp3LinkFail {down : Bool} (h : mtp3LinkFail alive m down = some m') :
    m'.alignment = atRest (failedTo down) := by
  unfold mtp3LinkFail at h
  dsimp only at h
  split_ifs at h with hs
  · obtain ⟨x, hx, rfl⟩ := Option.map_eq_some_iff.1 h
    exact alignment_linkFailed ⟨m.state, alignment_mtpChangeover hx⟩
  · rw [← Option.some.inj h]
    exact alignment_linkFailed ⟨m.state, rfl⟩

theorem alignment_abortInitialAlignment : (abortInitialAlignment m).alignment = atRest .down := rfl

/-- A failure in place strands the link, one that takes it down does not. -/
theorem supervised_mtp3LinkFail {down : Bool} (h : mtp3LinkFail alive m down = some m') :
    Supervised m' ↔ down = true := by
  rw [supervised_atRest (alignment_mtp3LinkFail h)]
  cases down <;> simp [failedTo]

theorem supervised_abortInitialAlignment : Supervised (abortInitialAlignment m) :=
  (supervised_atRest alignment_abortInitialAlignment).2 (.inl rfl)

/-! ## Received status units -/

/-- The status indication of a link status unit. -/
def statusOf (buf : ℕ → Octet) : ℕ := (buf 3).toNat &&& 0x07

/-- **The status units that strand a link**: an unknown status, `O` while
proving, and `O`, `N` or `E` in service. -/
def LssuStrands (m : Mtp2State) (buf : ℕ → Octet) : Prop :=
  5 < statusOf buf ∨ (statusOf buf = 0 ∧ m.state = .proving) ∨
    (statusOf buf ≤ 2 ∧ m.state = .inservice)

/-- An alignment that is under way goes from one state to the next with its
timers. -/
theorem Supervised.stop_start (h : Supervised m) (hm : m.state = .notAligned ∨ m.state = .aligned)
    (hs : m'.state = if m.state = .notAligned then .aligned else .proving)
    (ht : m'.alignment =
      (m'.state, m.t1, false, decide (m'.state = .aligned), decide (m'.state = .proving))) :
    Supervised m' := by
  have h1 : m.t1 = false := by
    have := h.t1
    rcases hm with hm | hm <;> simpa [hm] using this
  simp only [Mtp2State.alignment, Prod.mk.injEq, true_and] at ht
  obtain ⟨t1, t2, t3, t4⟩ := ht
  have hne : m'.state ≠ .ready ∧ m'.state ≠ .notAligned := by
    rw [hs]
    rcases hm with hm | hm <;> simp [hm]
  constructor
  · simp [t1, h1, hne.1]
  · simp [t2, hne.2]
  · simp [t3]
  · simp [t4]

theorem Supervised.congr_of_eq (h : Supervised m) (he : m'.alignment = m.alignment) :
    Supervised m' := (supervised_congr he).2 h

/-- Status `O`. -/
theorem supervised_statusO (hsup : Supervised m) (hO : statusOf buf = 0)
    (h : mtp2ProcessLssu alive m buf = some m') : Supervised m' ↔ ¬ LssuStrands m buf := by
  have h3 := hsup.t3
  have h4 := hsup.t4
  rw [mtp2ProcessLssu, ← statusOf, if_pos hO] at h
  cases hs : m.state with
  | notAligned =>
    simp only [hs, Option.some.injEq] at h
    have hgood : Supervised m' := by
      refine hsup.stop_start (.inl hs) (by simp [← h, hs]) ?_
      rw [hs] at h4
      simp at h4
      simp [← h, Mtp2State.alignment, h4]
    simp [hgood, LssuStrands, hO, hs]
  | proving =>
    simp only [hs, Option.some.injEq] at h
    have hbad : ¬ Supervised m' := fun hx => by
      have := hx.t3
      simp [← h, h3, hs] at this
    simp [hbad, LssuStrands, hO, hs]
  | ready =>
    simp only [hs, Option.some.injEq] at h
    simp [← h, supervised_abortInitialAlignment, LssuStrands, hO, hs]
  | inservice =>
    simp only [hs] at h
    simp [supervised_mtp3LinkFail h, LssuStrands, hO, hs]
  | down =>
    simp only [hs, Option.some.injEq] at h
    simp [← h, hsup, LssuStrands, hO, hs]
  | aligned =>
    simp only [hs, Option.some.injEq] at h
    simp [← h, hsup, LssuStrands, hO, hs]

/-- Status `N` or `E`. -/
theorem supervised_statusNE (hsup : Supervised m) (hNE : statusOf buf = 1 ∨ statusOf buf = 2)
    (h : mtp2ProcessLssu alive m buf = some m') : Supervised m' ↔ ¬ LssuStrands m buf := by
  have h2 := hsup.t2
  have h4 := hsup.t4
  have hO : ¬ statusOf buf = 0 := by omega
  have hlt5 : ¬ 5 < statusOf buf := by omega
  have hle : statusOf buf ≤ 2 := by omega
  -- outside NOT_ALIGNED, ALIGNED and INSERVICE only the numbers are taken over
  have hkeep : m.state ≠ .inservice → m'.alignment = m.alignment →
      (Supervised m' ↔ ¬ LssuStrands m buf) := fun hs hal => by
    simp [hsup.congr_of_eq hal, LssuStrands, hO, hlt5, hs]
  rw [mtp2ProcessLssu, ← statusOf, if_neg hO, if_pos hNE] at h
  cases hs : m.state with
  | notAligned =>
    simp only [hs, Option.some.injEq] at h
    have hgood : Supervised m' := by
      refine hsup.stop_start (.inl hs) (by simp [← h, hs]) ?_
      rw [hs] at h4
      simp at h4
      simp [← h, Mtp2State.alignment, h4]
    simp [hgood, LssuStrands, hO, hs, hlt5]
  | aligned =>
    simp only [hs, Option.some.injEq] at h
    have hgood : Supervised m' := by
      refine hsup.stop_start (.inr hs) (by simp [← h, hs]) ?_
      rw [hs] at h2
      simp at h2
      simp [← h, Mtp2State.alignment, h2]
    simp [hgood, LssuStrands, hO, hs, hlt5]
  | inservice =>
    simp only [hs] at h
    simp [supervised_mtp3LinkFail h, LssuStrands, hle, hs]
  | down =>
    simp only [hs, Option.some.injEq] at h
    exact hkeep (by simp [hs]) (by rw [← h]; simp [Mtp2State.alignment, hs])
  | proving =>
    simp only [hs, Option.some.injEq] at h
    exact hkeep (by simp [hs]) (by rw [← h]; simp [Mtp2State.alignment, hs])
  | ready =>
    simp only [hs, Option.some.injEq] at h
    exact hkeep (by simp [hs]) (by rw [← h]; simp [Mtp2State.alignment, hs])

/-- Status `OS` takes the link down, if anything. -/
theorem supervised_statusOS (hsup : Supervised m) (hOS : statusOf buf = 3)
    (h : mtp2ProcessLssu alive m buf = some m') : Supervised m' := by
  have hO : ¬ statusOf buf = 0 := by omega
  have hNE : ¬ (statusOf buf = 1 ∨ statusOf buf = 2) := by omega
  rw [mtp2ProcessLssu, ← statusOf, if_neg hO, if_neg hNE, if_pos hOS] at h
  cases hs : m.state with
  | aligned =>
    simp only [hs, Option.some.injEq] at h
    exact h ▸ supervised_abortInitialAlignment
  | proving =>
    simp only [hs, Option.some.injEq] at h
    exact h ▸ supervised_abortInitialAlignment
  | ready =>
    simp only [hs] at h
    exact (supervised_mtp3LinkFail h).2 rfl
  | inservice =>
    simp only [hs] at h
    exact (supervised_mtp3LinkFail h).2 rfl
  | down =>
    simp only [hs, Option.some.injEq] at h
    exact h ▸ hsup
  | notAligned =>
    simp only [hs, Option.some.injEq] at h
    exact h ▸ hsup

theorem supervised_mtp2ProcessLssu (hsup : Supervised m)
    (h : mtp2ProcessLssu alive m buf = some m') : Supervised m' ↔ ¬ LssuStrands m buf := by
  by_cases hO : statusOf buf = 0
  · exact supervised_statusO hsup hO h
  by_cases hNE : statusOf buf = 1 ∨ statusOf buf = 2
  · exact supervised_statusNE hsup hNE h
  have hgt : ¬ statusOf buf ≤ 2 := by omega
  by_cases hOS : statusOf buf = 3
  · have hno : ¬ LssuStrands m buf := by simp [LssuStrands, hOS]
    exact ⟨fun _ => hno, fun _ => supervised_statusOS hsup hOS h⟩
  rw [mtp2ProcessLssu, ← statusOf, if_neg hO, if_neg hNE, if_neg hOS] at h
  by_cases hPB : statusOf buf = 4 ∨ statusOf buf = 5
  · rw [if_pos hPB] at h
    have hno : ¬ LssuStrands m buf := by
      simp only [LssuStrands]
      omega
    simp [← Option.some.inj h, hsup, hno]
  · rw [if_neg hPB] at h
    have hyes : LssuStrands m buf := .inl (by omega)
    simp [supervised_mtp3LinkFail h, hyes]

/-! ## Received units -/

/-- An invalid SLTA, not the first. -/
def FaultySlta (c : Link) (m : Mtp2State) (buf : ℕ → Octet) : Prop :=
  TestMessage c buf 2 ∧ ¬ validSlta c buf ∧ m.sltmTries ≠ 1

theorem alignment_takeSlta (h : takeSlta c alive m buf = some m') :
    (¬ (¬ validSlta c buf ∧ m.sltmTries ≠ 1) ∧ m'.alignment = m.alignment) ∨
      ((¬ validSlta c buf ∧ m.sltmTries ≠ 1) ∧ m'.alignment = atRest .notAligned) := by
  rcases takeSlta_cases h with ⟨hv, rfl⟩ | ⟨hv, ht, rfl⟩ | ⟨hv, ht, hfail⟩
  · exact .inl ⟨fun hx => hx.1 hv, alignment_l4up.trans rfl⟩
  · exact .inl ⟨fun hx => hx.2 ht, alignment_mtp3SendSltm.trans rfl⟩
  · exact .inr ⟨⟨hv, ht⟩, alignment_mtp3LinkFail hfail⟩

/-- **What a unit of level 3 does to the alignment**: an invalid SLTA, not
the first, fails the link in place; nothing else moves it. -/
theorem alignment_processMsu (h : processMsu c alive m buf len = some m') :
    (¬ FaultySlta c m buf ∧ m'.alignment = m.alignment) ∨
      (FaultySlta c m buf ∧ m'.alignment = atRest .notAligned) := by
  rcases processMsu_cases h with ⟨h1, rfl⟩ | ⟨h2, hslta⟩ | ⟨-, h2, ev, rfl⟩
  · refine .inl ⟨fun hx => ?_, alignment_mtp2QueueMsu.trans rfl⟩
    have := h1.heading_eq hx.1
    omega
  · rcases alignment_takeSlta hslta with ⟨hno, hal⟩ | ⟨hyes, hal⟩
    · exact .inl ⟨fun hx => hno hx.2, hal⟩
    · exact .inr ⟨⟨h2, hyes⟩, hal⟩
  · exact .inl ⟨fun hx => h2 hx.1, rfl⟩

theorem alignment_takeMsu (h : takeMsu c alive m buf len = some m') :
    (¬ ((5 ≤ liOf buf ∧ InSequence m buf) ∧ FaultySlta c m buf) ∧ m'.alignment = m.alignment) ∨
      (((5 ≤ liOf buf ∧ InSequence m buf) ∧ FaultySlta c m buf) ∧
        m'.alignment = atRest .notAligned) := by
  rcases takeMsu_cases h with
    ⟨-, hli, rfl⟩ | ⟨hseq, hli, hmsu⟩ | ⟨-, hnext, rfl⟩ | ⟨hseq, -, rfl⟩
  · refine .inl ⟨fun hx => ?_, rfl⟩
    have := hx.1.1
    omega
  · rcases alignment_processMsu hmsu with ⟨hno, hal⟩ | ⟨hyes, hal⟩
    · exact .inl ⟨fun hx => hno hx.2, hal⟩
    · exact .inr ⟨⟨⟨hli, hseq⟩, hyes⟩, hal⟩
  · exact .inl ⟨fun hx => hnext hx.1.2.1, alignment_askAgain⟩
  · exact .inl ⟨fun hx => hseq hx.1.2, rfl⟩

/-- **What a unit does to the alignment**: it leaves it, fails the link in
place, or takes it down after too many illegal BSNs. -/
theorem alignment_takeUnit (h : takeUnit c alive m buf len = some m') :
    (¬ (HandsOver m buf ∧ FaultySlta c m buf) ∧
        (m'.alignment = m.alignment ∨ m'.alignment = atRest .down)) ∨
      ((HandsOver m buf ∧ FaultySlta c m buf) ∧ m'.alignment = atRest .notAligned) := by
  obtain ⟨t, rs, hack⟩ := takeAck_frame m buf
  rcases takeUnit_cases h with ⟨hill, hfail | rfl⟩ | ⟨-, hli, rfl⟩ | ⟨hill, -, hmsu⟩
  · exact .inl ⟨fun hx => hx.1.1 hill, .inr (alignment_mtp3LinkFail hfail)⟩
  · exact .inl ⟨fun hx => hx.1.1 hill, .inl rfl⟩
  · refine .inl ⟨fun hx => ?_, .inl ?_⟩
    · have := hx.1.2.1
      omega
    · rw [alignment_takeFisu, hack]
      rfl
  · have hseq := inSequence_takeAck m buf
    rcases alignment_takeMsu hmsu with ⟨hno, hal⟩ | ⟨hyes, hal⟩
    · rw [hseq, hack] at hno
      rw [hack] at hal
      exact .inl ⟨fun hx => hno ⟨hx.1.2, hx.2⟩, .inl hal⟩
    · rw [hseq, hack] at hyes
      exact .inr ⟨⟨⟨hill, hyes.1⟩, hyes.2⟩, hal⟩

theorem alignment_enterService :
    (enterService c m buf).alignment = (.inservice, false, m.t2, m.t3, m.t4) := by
  obtain ⟨_, _, _, _, _, _, _, _, _, _, h⟩ := enterService_frame c m buf
  rw [h]
  rfl

/-! ## One event -/

/-- The frames that strand a link. -/
def FrameStrands (c : Link) (m : Mtp2State) (buf : ℕ → Octet) (len : ℕ) : Prop :=
  m.state ≠ .down ∧ liOf buf + 3 ≤ len ∧
    if liOf buf = 1 ∨ liOf buf = 2 then LssuStrands m buf
    else m.state = .inservice ∧ HandsOver m buf ∧ FaultySlta c m buf

theorem supervised_mtp2GoodFrame (hsup : Supervised m)
    (h : mtp2GoodFrame c alive m buf len = some m') :
    Supervised m' ↔ ¬ FrameStrands c m buf len := by
  have hcnt : Supervised (mtp2ErrorMonCountFrame m) :=
    hsup.congr_of_eq alignment_mtp2ErrorMonCountFrame
  have hkeep : ¬ FrameStrands c m buf len → Supervised m' →
      (Supervised m' ↔ ¬ FrameStrands c m buf len) := fun hno hs => ⟨fun _ => hno, fun _ => hs⟩
  obtain ⟨d, r, hdr⟩ := mtp2ErrorMonCountFrame_frame m
  rcases mtp2GoodFrame_cases h with ⟨hskip, rfl⟩ | ⟨hdown, hlen, hlssu | hunit⟩
  · refine hkeep (fun hx => ?_) hcnt
    rcases hskip with hd | hl
    · exact hx.1 hd
    · have := hx.2.1
      omega
  · obtain ⟨hli, hproc⟩ := hlssu
    rw [supervised_mtp2ProcessLssu hcnt hproc, FrameStrands, if_pos hli, hdr]
    exact ⟨fun hx hy => hx hy.2.2, fun hx hy => hx ⟨hdown, hlen, hy⟩⟩
  obtain ⟨hli, hin | hready | hother⟩ := hunit
  · obtain ⟨hserv, hu⟩ := hin
    have hiff : FrameStrands c m buf len ↔
        HandsOver (mtp2ErrorMonCountFrame m) buf ∧
          FaultySlta c (mtp2ErrorMonCountFrame m) buf := by
      rw [FrameStrands, if_neg hli, hdr]
      exact ⟨fun hx => hx.2.2.2, fun hx => ⟨hdown, hlen, hserv, hx⟩⟩
    rcases alignment_takeUnit hu with ⟨hno, hal | hal⟩ | ⟨hyes, hal⟩
    · exact hkeep (fun hx => hno (hiff.1 hx)) (hcnt.congr_of_eq hal)
    · exact hkeep (fun hx => hno (hiff.1 hx)) ((supervised_atRest hal).2 (.inl rfl))
    · have hbad : ¬ Supervised m' := fun hx => by
        have := (supervised_atRest hal).1 hx
        simp at this
      exact ⟨fun hx => absurd hx hbad, fun hx => absurd (hiff.2 hyes) hx⟩
  · obtain ⟨hready, rfl⟩ := hready
    have hno : ¬ FrameStrands c m buf len := fun hx => by
      have hu := hx.2.2
      rw [if_neg hli, hready] at hu
      simp at hu
    refine hkeep hno ((supervised_atRest (s := .inservice) ?_).2 (.inr rfl))
    have h2 := hsup.t2
    have h3 := hsup.t3
    have h4 := hsup.t4
    simp only [hready, reduceCtorEq, iff_false, Bool.not_eq_true] at h2 h3 h4
    refine alignment_enterService.trans ?_
    rw [hdr]
    simp [atRest, h2, h3, h4]
  · obtain ⟨hserv, -, rfl⟩ := hother
    have hno : ¬ FrameStrands c m buf len := fun hx => by
      have hu := hx.2.2
      rw [if_neg hli] at hu
      exact hserv hu.1
    exact hkeep hno hcnt

/-- The error that brings the monitor of a link in service to its
threshold; `r` is what the monitor stands at. -/
def ErrorStrands (m : Mtp2State) (r : ℕ) : Prop :=
  (m.state = .ready ∨ m.state = .inservice) ∧ r = 63

theorem supervised_mtp2EmonCountError (hsup : Supervised m)
    (h : mtp2EmonCountError alive m = some m') :
    Supervised m' ↔ ¬ ErrorStrands m m.errorRateMon := by
  unfold mtp2EmonCountError at h
  dsimp only at h
  split_ifs at h with hs hlt h64 hp h1
  · have hyes : ErrorStrands m m.errorRateMon := ⟨hs, by omega⟩
    simp [supervised_mtp3LinkFail h, hyes]
  · have hno : ¬ ErrorStrands m m.errorRateMon := fun hx => h64 (by rw [hx.2])
    have hsame : Supervised m' ↔ Supervised m := supervised_congr (by rw [← Option.some.inj h]; rfl)
    simp [hsame, hsup, hno]
  · have hno : ¬ ErrorStrands m m.errorRateMon := fun hx => hlt (by rw [hx.2]; omega)
    simp [← Option.some.inj h, hsup, hno]
  · have hno : ¬ ErrorStrands m m.errorRateMon := fun hx => hs hx.1
    simp [← Option.some.inj h, supervised_abortInitialAlignment, hno]
  · have hno : ¬ ErrorStrands m m.errorRateMon := fun hx => hs hx.1
    have hsame : Supervised m' ↔ Supervised m := supervised_congr (by rw [← Option.some.inj h]; rfl)
    simp [hsame, hsup, hno]
  · have hno : ¬ ErrorStrands m m.errorRateMon := fun hx => hs hx.1
    simp [← Option.some.inj h, hsup, hno]

/-- What the monitor stands at before the next error, where one frame in 256
takes one off. -/
def afterFrame (m : Mtp2State) : ℕ :=
  if (m.emonDcount + 1) % 256 = 0 ∧ m.errorRateMon > 0 then m.errorRateMon - 1 else m.errorRateMon

theorem supervised_mtp2BadFrame {log : BadLog} {now : ℤ} (hsup : Supervised m)
    (h : mtp2BadFrame alive log now m = some m') :
    Supervised m' ↔ ¬ (¬ log.suppresses now ∧ ErrorStrands m (afterFrame m)) := by
  unfold mtp2BadFrame at h
  split_ifs at h with hlog
  · simp [← Option.some.inj h, hsup, hlog]
  · have hcnt : Supervised (mtp2ErrorMonCountFrame m) :=
      (supervised_congr alignment_mtp2ErrorMonCountFrame).2 hsup
    have hiff : ErrorStrands (mtp2ErrorMonCountFrame m) (mtp2ErrorMonCountFrame m).errorRateMon ↔
        ErrorStrands m (afterFrame m) := by
      unfold ErrorStrands mtp2ErrorMonCountFrame afterFrame
      by_cases hs : m.state = .ready ∨ m.state = .inservice
      · simp [hs]
      · simp [hs]
    rw [supervised_mtp2EmonCountError hcnt h, hiff]
    simp [hlog]

theorem Supervised.startInitialAlignment (hsup : Supervised m) :
    Supervised (startInitialAlignment m) ↔
      ¬ (m.state = .aligned ∨ m.state = .proving ∨ m.state = .ready) := by
  obtain ⟨h1, h2, h3, h4⟩ := hsup
  constructor
  · rintro ⟨g1, g2, g3, g4⟩
    simp only [Mtp2.startInitialAlignment, reduceCtorEq, iff_false, Bool.not_eq_true] at g1 g3 g4
    rintro (hs | hs | hs)
    · simp [g3, hs] at h3
    · simp [g4, hs] at h4
    · simp [g1, hs] at h1
  · intro hno
    simp only [not_or] at hno
    constructor
    · simpa [Mtp2.startInitialAlignment, hno.2.2] using h1
    · simp [Mtp2.startInitialAlignment]
    · simpa [Mtp2.startInitialAlignment, hno.1] using h3
    · simpa [Mtp2.startInitialAlignment, hno.2.1] using h4

/-- **The events that strand a link.** -/
def Strands (c : Link) (m : Mtp2State) : Event → Prop
  | .goodFrame buf len => FrameStrands c m buf len
  | .badFrame log now => ¬ log.suppresses now ∧ ErrorStrands m (afterFrame m)
  | .formatError log now => ¬ log.suppresses now ∧ ErrorStrands m (afterFrame m)
  | .octet => (m.emonNcount + 1) % 16 = 0 ∧ ErrorStrands m m.errorRateMon
  | .expire .sltmT1 => m.sltmTries ≠ 1
  | .expire .t17 => m.state = .aligned ∨ m.state = .proving ∨ m.state = .ready
  | .linkUp => m.state = .aligned ∨ m.state = .proving ∨ m.state = .ready
  | _ => False

theorem supervised_expire {t : Timer} (hsup : Supervised m) (hrun : m.running t)
    (h : expire c alive m t = some m') : Supervised m' ↔ ¬ Strands c m (.expire t) := by
  cases t with
  | t1 =>
    rw [← Option.some.inj h]
    simp [supervised_abortInitialAlignment, Strands]
  | t2 =>
    rw [← Option.some.inj h]
    simp [supervised_abortInitialAlignment, Strands]
  | t3 =>
    rw [← Option.some.inj h]
    simp [supervised_abortInitialAlignment, Strands]
  | t4 =>
    have hs : m.state = .proving := hsup.t4.1 hrun
    obtain ⟨h1, h2, h3, h4⟩ := hsup
    simp only [hs, reduceCtorEq, iff_false, Bool.not_eq_true] at h2 h3
    have hgood : Supervised m' := by
      rw [← Option.some.inj h]
      constructor <;> simp [h2, h3]
    simp [hgood, Strands]
  | t7 => simp [supervised_mtp3LinkFail h, Strands]
  | t17 =>
    have hal : Mtp2State.alignment { m with t17 := false } = m.alignment := rfl
    rw [← Option.some.inj h, ((supervised_congr hal).2 hsup).startInitialAlignment]
    rfl
  | sltmT1 =>
    simp only [expire, timeoutSltmT1] at h
    by_cases ht : m.sltmTries = 1
    · rw [if_pos ht] at h
      have hsame : Supervised m' ↔ Supervised m :=
        supervised_congr (by rw [← Option.some.inj h]; exact alignment_mtp3SendSltm)
      simp [hsame, hsup, Strands, ht]
    · rw [if_neg ht] at h
      simp [supervised_mtp3LinkFail h, Strands, ht]
  | sltmT2 =>
    have hsame : Supervised m' ↔ Supervised m :=
      supervised_congr (by rw [← Option.some.inj h]; exact alignment_mtp3SendSltm)
    simp [hsame, hsup, Strands]

/-- **One event**: a supervised link stays supervised exactly if the event
does not strand it. -/
theorem supervised_linkStep (hsup : Supervised m) (h : linkStep c alive m e = some m') :
    Supervised m' ↔ ¬ Strands c m e := by
  cases e with
  | goodFrame buf len => exact supervised_mtp2GoodFrame hsup h
  | badFrame log now => exact supervised_mtp2BadFrame hsup h
  | formatError log now =>
    obtain ⟨x, hx, rfl⟩ := Option.map_eq_some_iff.1 h
    have hsame : Supervised (mtp2OctetCounting x) ↔ Supervised x := supervised_congr rfl
    rw [hsame]
    exact supervised_mtp2BadFrame hsup hx
  | octet =>
    simp only [linkStep, countOctet] at h
    have hal : Mtp2State.alignment { m with emonNcount := (m.emonNcount + 1) % 16 } = m.alignment :=
      rfl
    have hcnt := (supervised_congr hal).2 hsup
    by_cases h0 : (m.emonNcount + 1) % 16 = 0
    · rw [if_pos h0] at h
      rw [supervised_mtp2EmonCountError hcnt h]
      simp [Strands, h0, ErrorStrands]
    · rw [if_neg h0] at h
      rw [← Option.some.inj h]
      simp [hcnt, Strands, h0]
  | expire t =>
    simp only [linkStep] at h
    split_ifs at h with hrun
    exact supervised_expire hsup hrun h
  | linkUp =>
    rw [← Option.some.inj h]
    exact hsup.startInitialAlignment
  | linkDown =>
    have hal : m'.alignment = atRest .down := by
      rw [← Option.some.inj h, alignment_l4down]
      rfl
    simp [supervised_atRest hal, Strands]
  | queueMsu sio sif =>
    have hsame : Supervised m' ↔ Supervised m :=
      supervised_congr (by rw [← Option.some.inj h]; exact alignment_mtp2QueueMsu)
    simp [hsame, hsup, Strands]
  | pickFrame =>
    have hsame : Supervised m' ↔ Supervised m :=
      supervised_congr (by rw [← Option.some.inj h]; exact alignment_mtp2PickFrame)
    simp [hsame, hsup, Strands]

/-! ## Runs -/

theorem supervised_mtpInitLinkData {subservice : Option ℕ} :
    Supervised (mtpInitLinkData subservice) :=
  (supervised_atRest (s := .down) rfl).2 (.inl rfl)

/-- **Exactly the runs without a stranding event are supervised
throughout.** -/
theorem link_supervised_iff (c : Link) (subservice : Option ℕ) (evs : List (Bool × Event))
    (m : Mtp2State) :
    Trace (fun t e u => LinkStep c t e u ∧ Supervised u) (mtpInitLinkData subservice) evs m ↔
      Trace (fun t e u => LinkStep c t e u ∧ ¬ Strands c t e.2) (mtpInitLinkData subservice)
        evs m :=
  Trace.kept_iff_met (J := fun _ => True) (fun _ _ _ _ _ => trivial)
    (fun _ _ _ _ hsup hstep => supervised_linkStep hsup hstep) trivial supervised_mtpInitLinkData

/-- A status O while proving: the link is aligned again, and T3 does not
run. -/
theorem not_link_supervised :
    ¬ ∀ (c : Link) (subservice : Option ℕ) (evs : List (Bool × Event)) (m : Mtp2State),
      Trace (LinkStep c) (mtpInitLinkData subservice) evs m → Supervised m := by
  intro hall
  let c : Link := ⟨.itu, 1, 2, 0, true⟩
  let m1 := startInitialAlignment (mtpInitLinkData none)
  let m2 : Mtp2State := { m1 with t2 := false, t3 := true, state := .aligned }
  let m3 : Mtp2State := { m2 with t3 := false, t4 := true, state := .proving }
  let m4 : Mtp2State := { m3 with t4 := false, state := .aligned }
  have h1 : LinkStep c (mtpInitLinkData none) (false, .linkUp) m1 := rfl
  have h2 : LinkStep c m1 (false, .goodFrame (lssuBuf 0) 4) m2 := rfl
  have h3 : LinkStep c m2 (false, .goodFrame (lssuBuf 2) 4) m3 := rfl
  have h4 : LinkStep c m3 (false, .goodFrame (lssuBuf 0) 4) m4 := rfl
  have hsup := hall c none _ m4 (((Trace.nil.snoc h1).snoc h2).snoc h3 |>.snoc h4)
  have ht3 : m4.t3 = true := hsup.t3.2 rfl
  exact Bool.false_ne_true ht3

end Mtp2

end Trismedia
