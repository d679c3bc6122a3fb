import Trismedia.Mtp2.Service
/-!
# Two ends from the start of their alignment

Both ends start their alignment and come into service at different moments,
up to the first failure. The frame that brings an end into service carries
the FSN it starts from: is this the number of an MSU of the other end, that
MSU counts as received though it is never handed over. `joint_startup` is
about the runs in which this does not happen.
-/


namespace Trismedia

namespace Mtp2

open GoBackN

variable {c : Side → Link} {x y : Sys} {s : Side} {e : Action} {m m' : Mtp2State}
variable {buf : ℕ → Octet} {len : ℕ} {alive : Bool} {bo bi : Base} {out inn : Dir Msu}
variable {u : DataUnit Msu} {k : Ack}
variable {line lineI : List (DataUnit Msu)} {back backI : List Ack}

/-! ## The unit that brings an end into service -/

/-- A unit with the number of the start carries no message. -/
theorem hear_first (hinn : Inv 127 inn (u :: lineI) backI) (hzero : inn.asked = 0)
    (hfsn : bi.number u.seq = bi.number inn.got) : u.phase = inn.asked ∧ inn.hear u = inn := by
  have hph : u.phase = inn.asked := by
    have := hinn.unit_phase
    omega
  have hwin := hinn.unit_window hph
  have hseq : u.seq = inn.got := (Base.number_inj (b := bi) (by omega) (by omega)).1 hfsn
  have hbody : ¬ u.body.isSome := fun hb => by
    have := hwin.2.1 hb
    omega
  refine ⟨hph, ?_⟩
  unfold Dir.hear
  rw [if_pos hph, if_neg hbody, if_pos hseq]

/-- The BSN and BIB of the first unit, taken over. -/
theorem Sends.putInService (h : Sends bo m out) (hinv : Inv 127 out line (k :: back))
    (hbsn : bsnOf buf = bo.number k.got) (hbib : bibOf buf = bo.indicator k.phase) :
    Sends bo (putInService m buf) (out.acknowledge k out.sent) := by
  have hwin := hinv.ack_window
  have hslot : ∀ n, k.got ≤ n → ∀ a, out.log[n]? = some a →
      m.retransBuf (bo.number (n + 1)) = slotOf a.sio a.sif := fun n hn => h.slot n (by omega)
  unfold Dir.acknowledge
  split_ifs with hph
  · exact ⟨h.lastSent, hbsn, h.retransSeq, by rw [← hph]; exact hbib, hslot⟩
  · exact ⟨h.lastSent, hbsn, h.retransSeq, hbib, hslot⟩

theorem EndOk.putInService (h : EndOk bo bi m out inn) (hlive : m.fails = 0)
    (hinv : Inv 127 out line (k :: back)) (hbsn : bsnOf buf = bo.number k.got)
    (hbib : bibOf buf = bo.indicator k.phase) (hfsn : fsnOf buf = m.sendBsn)
    (hfib : fibOf buf = bi.indicator inn.asked) :
    EndOk bo bi (putInService m buf) (out.acknowledge k out.sent) inn := by
  obtain ⟨hs, hr⟩ := h.live hlive
  have hlog := log_acknowledge out k out.sent
  refine ⟨?_, h.handed, ?_, fun _ => ⟨hs.putInService hinv hbsn hbib, ?_, hfib⟩⟩
  · rw [hlog.1]
    exact h.accepted
  · rw [hlog.1]
    exact h.long
  · exact hfsn.trans hr.sendBsn

theorem same_enterService (c : Link) (m : Mtp2State) (buf : ℕ → Octet) :
    (enterService c m buf).state = .inservice ∧ (enterService c m buf).t4 = m.t4 ∧
      (enterService c m buf).t17 = m.t17 ∧ (enterService c m buf).fails = m.fails := by
  obtain ⟨_, _, _, _, _, _, _, _, _, _, h⟩ := enterService_frame c m buf
  rw [h]
  exact ⟨rfl, rfl, rfl, rfl⟩

/-- **An end enters service** with a unit of the number it starts from. -/
theorem EndOk.enterService {c : Link} (h : EndOk bo bi m out inn) (hlive : m.fails = 0)
    (hzero : inn.asked = 0) (hinv : Inv 127 out line (k :: back))
    (hinn : Inv 127 inn (u :: lineI) backI) (hb : Holds buf (suFrame bi bo u k))
    (hfirst : fsnOf buf = m.sendBsn) :
    ∃ out', Extends out out' line back ∧
      EndOk bo bi (enterService c m buf) out' (inn.hear u) := by
  obtain ⟨hs, hr⟩ := h.live hlive
  obtain ⟨hbsn, hbib⟩ := hb.bsnOf
  obtain ⟨hfsn, hfib⟩ := hb.fsnOf
  have hnum : bi.number u.seq = bi.number inn.got := by
    rw [← hfsn, hfirst, hr.sendBsn]
  obtain ⟨hph, hhear⟩ := hear_first hinn hzero hnum
  have hk := hinv.back_got k List.mem_cons_self
  have hgot := hinv.got_le
  have hext : Extends out (out.acknowledge k out.sent) line back :=
    extends_acknowledge hinv (by omega) hinv.sent_le
  have h0 := h.putInService hlive hinv hbsn hbib hfirst (by rw [hfib, hph])
  have hlen : 4 ≤ (mtp3PutLabel c.sls c.variant c.opc c.peerpc ++ [0x17]).length := by
    have := length_mtp3PutLabel c.sls c.variant c.opc c.peerpc
    simp only [List.length_append, List.length_cons, List.length_nil]
    omega
  have hlive0 : (Mtp2.putInService m buf).fails = 0 := hlive
  obtain ⟨ms, hinv1, h1⟩ : ∃ ms, Inv 127 (grown (out.acknowledge k out.sent) ms) line back ∧
      EndOk bo bi (queueTra c (Mtp2.putInService m buf)) (grown (out.acknowledge k out.sent) ms)
        inn := h0.mtp2QueueMsu _ hlive0 hext.1 hlen
  have hext1 := hext.trans (extends_grown hinv1)
  have hlive1 : (queueTra c (Mtp2.putInService m buf)).fails = 0 :=
    (same_mtp2QueueMsu (Mtp2.putInService m buf) _ _).fails.trans hlive0
  rw [hhear, enterService_eq]
  split_ifs
  · obtain ⟨ms', hinv2, h2⟩ := h1.mtp3SendSltm (c := c) hlive1 hinv1
    exact ⟨_, hext1.trans (extends_grown hinv2), h2.congr rfl⟩
  · exact ⟨_, hext1, h1.l4up⟩

/-! ## Status units before service -/

/-- An end that is not in service, and moved on in its alignment at most. -/
structure Aligning (m m' : Mtp2State) : Prop where
  counters : m'.counters = m.counters
  t17 : m'.t17 = m.t17
  t4 : m'.t4 = true → m'.state = .proving
  ready : m'.state = .ready ↔ m.state = .ready

/-- **A status unit that fails nothing** moves the alignment and leaves the
counters, if its numbers are those of the start. -/
theorem processLssu_aligning (hserv : m.state ≠ .inservice) (hlive : m.fails = 0)
    (h4 : m.t4 = true → m.state = .proving) (hfsn : fsnOf buf = m.sendBsn)
    (hfib : fibOf buf = m.sendBib) (h : mtp2ProcessLssu alive m buf = some m')
    (hlive' : m'.fails = 0) : Aligning m m' := by
  have hkeep : Aligning m m := ⟨rfl, rfl, h4, Iff.rfl⟩
  have habort : ¬ abortInitialAlignment m = m' := fun hf => by
    have : m'.fails = m.fails + 1 := by rw [← hf]; rfl
    omega
  have hfail : ∀ {x : Mtp2State} {down : Bool}, x.fails = 0 →
      ¬ mtp3LinkFail alive x down = some m' := fun hx hf => by
    have := (mtp3LinkFail_history hf).2.2.1
    omega
  have hno : m.state = .notAligned → m.t4 ≠ true := fun hs ht => by
    have := h4 ht
    rw [hs] at this
    exact absurd this (by simp)
  unfold mtp2ProcessLssu at h
  dsimp only at h
  split_ifs at h
  · cases hs : m.state with
    | down =>
      simp only [hs, Option.some.injEq] at h
      exact h ▸ hkeep
    | notAligned =>
      simp only [hs, Option.some.injEq] at h
      exact ⟨by rw [← h]; rfl, by rw [← h], fun ht => absurd (by rw [← h] at ht; exact ht) (hno hs),
        by simp [← h, hs]⟩
    | aligned =>
      simp only [hs, Option.some.injEq] at h
      exact h ▸ hkeep
    | proving =>
      simp only [hs, Option.some.injEq] at h
      exact ⟨by rw [← h]; rfl, by rw [← h], by simp [← h], by simp [← h, hs]⟩
    | ready =>
      simp only [hs, Option.some.injEq] at h
      exact absurd h habort
    | inservice => exact absurd hs hserv
  · have hset : ({ m with sendBsn := fsnOf buf, sendBib := fibOf buf } : Mtp2State) = m := by
      rw [hfsn, hfib]
    cases hs : m.state with
    | down =>
      simp only [hs, Option.some.injEq] at h
      exact (by rw [← h, ← hs]; exact hset : m' = m) ▸ hkeep
    | notAligned =>
      simp only [hs, Option.some.injEq] at h
      exact ⟨by simp [← h, Mtp2State.counters, hfsn, hfib], by rw [← h],
        fun ht => absurd (by rw [← h] at ht; exact ht) (hno hs), by simp [← h, hs]⟩
    | aligned =>
      simp only [hs, Option.some.injEq] at h
      exact ⟨by simp [← h, Mtp2State.counters, hfsn, hfib], by rw [← h], by simp [← h],
        by simp [← h, hs]⟩
    | proving =>
      simp only [hs, Option.some.injEq] at h
      exact (by rw [← h, ← hs]; exact hset : m' = m) ▸ hkeep
    | ready =>
      simp only [hs, Option.some.injEq] at h
      exact (by rw [← h, ← hs]; exact hset : m' = m) ▸ hkeep
    | inservice => exact absurd hs hserv
  · cases hs : m.state with
    | down =>
      simp only [hs, Option.some.injEq] at h
      exact h ▸ hkeep
    | notAligned =>
      simp only [hs, Option.some.injEq] at h
      exact h ▸ hkeep
    | aligned =>
      simp only [hs, Option.some.injEq] at h
      exact absurd h habort
    | proving =>
      simp only [hs, Option.some.injEq] at h
      exact absurd h habort
    | ready =>
      simp only [hs] at h
      exact absurd h (hfail hlive)
    | inservice => exact absurd hs hserv
  · exact Option.some.inj h ▸ hkeep
  · exact absurd h (hfail hlive)

/-! ## The start -/

/-- Where both directions start: number 127, both bits set. -/
def startBase : Side → Base := fun _ => ⟨0x7f, true⟩

/-- **Two ends that start their alignment.** -/
structure Started (x : Sys) : Prop where
  ends : ∀ s, ∃ subservice, x.ends s = startInitialAlignment (mtpInitLinkData subservice)
  chan : ∀ s, x.chan s = []

/-- **What an end keeps before its first failure**: it has sent no message
before READY, and taken no number over before INSERVICE. -/
structure Begun (m : Mtp2State) (out inn : Dir Msu) : Prop where
  fails : m.fails = 0
  t17 : m.t17 = false
  t4 : m.t4 = true → m.state = .proving
  unsent : m.state ≠ .ready → m.state ≠ .inservice → out.log = [] ∧ out.sent = 0
  unheard : m.state ≠ .inservice →
    out.acked = 0 ∧ out.phase = 0 ∧ inn.got = 0 ∧ inn.asked = 0

/-- A status unit with the numbers of the start. -/
def FirstLssu (f : List Octet) : Prop := f.getD 1 0 = seqOctet 0x7f true

/-- **What holds throughout.** -/
structure Starting (d : Side → Dir Msu) (g : Side → List Gram) (x : Sys) : Prop
    extends Joined startBase d g x where
  begun : ∀ s, Begun (x.ends s) (d s) (d s.other)
  first : ∀ s f, Gram.lssu f ∈ g s → FirstLssu f

theorem Started.starting (h : Started x) : Starting (fun _ => startDir) (fun _ => []) x := by
  refine ⟨⟨fun s => h.chan s, fun s => .start 127 0, fun s => ?_,
    fun s f hf => absurd hf List.not_mem_nil⟩, fun s => ?_, fun s f hf => absurd hf List.not_mem_nil⟩
  · obtain ⟨sub, hs⟩ := h.ends s
    rw [hs]
    refine ⟨rfl, rfl, fun a ha => absurd ha List.not_mem_nil, fun _ =>
      ⟨⟨rfl, rfl, rfl, rfl, fun n _ a ha => ?_⟩, ⟨rfl, rfl⟩⟩⟩
    simp [startDir] at ha
  · obtain ⟨sub, hs⟩ := h.ends s
    rw [hs]
    exact ⟨rfl, rfl, fun ht => absurd ht Bool.false_ne_true, fun _ _ => ⟨rfl, rfl⟩,
      fun _ => ⟨rfl, rfl, rfl, rfl⟩⟩

/-! ## One end -/

variable {out' inn' : Dir Msu}

/-- An end in service stays there. -/
theorem Begun.inservice (h : Begun m out inn) (ht4 : m'.t4 = m.t4) (ht17 : m'.t17 = m.t17)
    (hlive : m'.fails = 0) (hst : m'.state = .inservice)
    (hserv : m.state = .inservice ∨ m.state = .ready) : Begun m' out' inn' := by
  refine ⟨hlive, ht17.trans h.t17, fun ht => ?_, fun _ hno => absurd hst hno,
    fun hno => absurd hst hno⟩
  have hprov := h.t4 (ht4.symm.trans ht)
  rcases hserv with hs | hs <;> rw [hs] at hprov <;> exact absurd hprov (by simp)

/-- The end is not touched. -/
theorem Begun.congr (h : Begun m out inn) (hs : Same m m') : Begun m' out inn := by
  refine ⟨hs.fails.trans h.fails, hs.t17.trans h.t17, ?_, ?_, ?_⟩
  · rw [hs.t4, hs.state]
    exact h.t4
  · rw [hs.state]
    exact h.unsent
  · rw [hs.state]
    exact h.unheard

/-- The end sends, or takes messages to send. -/
theorem Begun.sends (h : Begun m out inn) (hs : Same m m')
    (hserv : m.state = .inservice ∨ m.state = .ready)
    (hout : out'.acked = out.acked ∧ out'.phase = out.phase) : Begun m' out' inn := by
  refine ⟨hs.fails.trans h.fails, hs.t17.trans h.t17, ?_, fun h1 h2 => ?_, ?_⟩
  · rw [hs.t4, hs.state]
    exact h.t4
  · rw [hs.state] at h1 h2
    exact hserv.elim (fun hx => absurd hx h2) fun hx => absurd hx h1
  · rw [hs.state, hout.1, hout.2]
    exact h.unheard

/-- The other end moves. -/
theorem Begun.peer (h : Begun m out inn) (ho : out'.log = out.log ∧ out'.acked = out.acked ∧
      out'.sent = out.sent ∧ out'.phase = out.phase)
    (hi : inn'.got = inn.got ∧ inn'.asked = inn.asked) : Begun m out' inn' := by
  obtain ⟨h1, h2, h3, h4⟩ := ho
  refine ⟨h.fails, h.t17, h.t4, ?_, ?_⟩
  · rw [h1, h3]
    exact h.unsent
  · rw [h2, h4, hi.1, hi.2]
    exact h.unheard

/-- A status unit moves the alignment on. -/
theorem Begun.aligning (h : Begun m out inn) (hserv : m.state ≠ .inservice) (ha : Aligning m m')
    (hlive : m'.fails = 0) : Begun m' out inn :=
  ⟨hlive, ha.t17.trans h.t17, ha.t4,
    fun hready _ => h.unsent (fun hx => hready (ha.ready.2 hx)) hserv, fun _ => h.unheard hserv⟩

/-- **The status units before READY carry the numbers of the start.** -/
theorem firstLssu_lssuFrame (hok : EndOk ⟨0x7f, true⟩ bi m out inn) (h : Begun m out inn)
    (hst : m.state ≠ .ready ∧ m.state ≠ .inservice) (status : Octet) :
    FirstLssu (lssuFrame m status) := by
  obtain ⟨hs, -⟩ := hok.live h.fails
  have hlast : m.retransLastSent = 0x7f := by
    rw [hs.lastSent, (h.unsent hst.1 hst.2).1]
    rfl
  have hfib : m.sendFib = true := by
    rw [hs.sendFib, (h.unheard hst.2).2.1]
    rfl
  rw [FirstLssu, lssuFrame, hlast, hfib]
  rfl

theorem Holds.first {f : List Octet} (h : Holds buf f) (hf : IsLssu f) (hfirst : FirstLssu f) :
    Mtp2.fsnOf buf = 0x7f ∧ fibOf buf = true := by
  have hlen := hf.1
  have hd := seqOctet_toNat 0x7f (by omega) true
  rw [Mtp2.fsnOf, fibOf, h 1 (by omega), hfirst]
  exact hd

/-- Before service an end has the numbers of the start. -/
theorem Begun.numbers (h : Begun m out inn) (hok : EndOk bo ⟨0x7f, true⟩ m out inn)
    (hserv : m.state ≠ .inservice) : m.sendBsn = 0x7f ∧ m.sendBib = true := by
  obtain ⟨-, hr⟩ := hok.live h.fails
  obtain ⟨-, -, hgot, hasked⟩ := h.unheard hserv
  rw [hr.sendBsn, hr.sendBib, hgot, hasked]
  exact ⟨rfl, rfl⟩

/-! ## One step of the two ends -/

/-- The steps up to the first failure that the protocol can bear: an MSU has
a label, and the unit that brings an end into service has the number of the
last one received. -/
def Bears (x : Sys) : Action → Prop
  | .queueMsu _ _ sif => 4 ≤ sif.length
  | .goodFrame s buf _ =>
    (x.ends s).state = .ready → ¬ (liOf buf = 1 ∨ liOf buf = 2) → fsnOf buf = (x.ends s).sendBsn
  | _ => True

/-- No end has failed. -/
def Unfailed (x : Sys) : Prop := ∀ s, (x.ends s).fails = 0

namespace Starting

variable {d : Side → Dir Msu} {g g' : Side → List Gram} {f : List Octet}

/-- **One end moves.** -/
theorem update (h : Starting d g x) (hj : Joined startBase (moved s out' inn') g' y)
    (hy : y.ends = Function.update x.ends s m') (hb : Begun m' out' inn')
    (hi : inn'.log = (d s.other).log ∧ inn'.acked = (d s.other).acked ∧
      inn'.sent = (d s.other).sent ∧ inn'.phase = (d s.other).phase)
    (ho : out'.got = (d s).got ∧ out'.asked = (d s).asked)
    (hfirst : ∀ t f, Gram.lssu f ∈ g' t → FirstLssu f) :
    Starting (moved s out' inn') g' y := by
  refine ⟨hj, fun t => ?_, hfirst⟩
  rw [hy]
  rcases s.eq_or t with rfl | rfl
  · simpa using hb
  · have hpeer := h.begun s.other
    rw [Side.other_other] at hpeer
    simpa using hpeer.peer hi ho

/-- **An end takes messages to send.** -/
theorem grow (h : Starting d g x) {ms : List Msu}
    (hinv : Inv 127 (grown (d s) ms) (units (g s)) (acks (g s.other)))
    (hend : EndOk (startBase s) (startBase s.other) m' (grown (d s) ms) (d s.other))
    (hsame : Same (x.ends s) m')
    (hserv : (x.ends s).state = .inservice ∨ (x.ends s).state = .ready) :
    ∃ d', Starting d' g ⟨Function.update x.ends s m', x.chan⟩ :=
  ⟨_, h.update (h.extend s (extends_grown hinv) hend) rfl ((h.begun s).sends hsame hserv ⟨rfl, rfl⟩)
    ⟨rfl, rfl, rfl, rfl⟩ ⟨rfl, rfl⟩ h.first⟩

/-- **The end is not touched.** -/
theorem keep (h : Starting d g x) (heq : m'.counters = (x.ends s).counters)
    (hbegun : Begun m' (d s) (d s.other)) :
    ∃ d', Starting d' g ⟨Function.update x.ends s m', x.chan⟩ := by
  have hext := Extends.refl (h.inv s)
  exact ⟨_, h.update (h.extend s hext ((h.ends s).congr heq)) rfl hbegun ⟨rfl, rfl, rfl, rfl⟩
    ⟨rfl, rfl⟩ h.first⟩

theorem queueMsu (h : Starting d g x) (s : Side) (sio : Octet) {sif : List Octet}
    (hlen : 4 ≤ sif.length) :
    ∃ d', Starting d' g
      ⟨Function.update x.ends s (mtp2QueueMsu (x.ends s) sio sif), x.chan⟩ := by
  by_cases hserv : (x.ends s).state = .inservice ∨ (x.ends s).state = .ready
  · obtain ⟨ms, hinv, hend⟩ :=
      (h.ends s).mtp2QueueMsu sio (h.begun s).fails (h.inv s) hlen
    exact h.grow hinv hend (same_mtp2QueueMsu _ _ _) hserv
  · rw [mtp2QueueMsu_of_not_accepts fun hacc => hserv hacc.1]
    exact h.keep rfl (h.begun s)

theorem sendSltm {c : Link} (h : Starting d g x) (s : Side) (hm : m' = mtp3SendSltm c (x.ends s) ∨
      m' = { mtp3SendSltm c (x.ends s) with sltmTries := 2 }) :
    ∃ d', Starting d' g ⟨Function.update x.ends s m', x.chan⟩ := by
  have hsame : Same (x.ends s) m' := by
    rcases hm with rfl | rfl
    · exact same_mtp3SendSltm c (x.ends s)
    · exact same_mtp3SendSltm c (x.ends s)
  have hcount : m'.counters = (mtp3SendSltm c (x.ends s)).counters := by
    rcases hm with rfl | rfl <;> rfl
  by_cases hserv : (x.ends s).state = .inservice ∨ (x.ends s).state = .ready
  · obtain ⟨ms, hinv, hend⟩ := (h.ends s).mtp3SendSltm (c := c) (h.begun s).fails (h.inv s)
    exact h.grow hinv (hend.congr hcount) hsame hserv
  · refine h.keep (hcount.trans ?_) ((h.begun s).congr hsame)
    obtain ⟨run, tries, hs⟩ := startSltmT1_frame
      (mtp2QueueMsu (x.ends s) (serviceOctet (x.ends s) 1) (sltm c))
    rw [mtp3SendSltm_eq, hs, mtp2QueueMsu_of_not_accepts fun hacc => hserv hacc.1]
    rfl

theorem pickFrame (h : Starting d g x) (s : Side) :
    ∃ d' g', Starting d' g'
      ⟨Function.update x.ends s (mtp2PickFrame (x.ends s)).1,
        Function.update x.chan s (x.chan s ++ [(mtp2PickFrame (x.ends s)).2])⟩ := by
  by_cases hserv : (x.ends s).state = .inservice ∨ (x.ends s).state = .ready
  · obtain ⟨u, k, n, hj⟩ := h.pick_su s (h.begun s).fails hserv
    obtain ⟨rs, hrs⟩ := mtp2PickFrame_frame (x.ends s)
    have hsame : Same (x.ends s) (mtp2PickFrame (x.ends s)).1 := by
      rw [hrs]
      exact ⟨rfl, rfl, rfl, rfl⟩
    exact ⟨_, _, h.update hj rfl ((h.begun s).sends hsame hserv ⟨rfl, rfl⟩) ⟨rfl, rfl, rfl, rfl⟩
      ⟨rfl, rfl⟩ fun t f hf => h.first t f (Joined.lssu_concat_su hf)⟩
  · have hst : (x.ends s).state ≠ .ready ∧ (x.ends s).state ≠ .inservice :=
      ⟨fun hx => hserv (.inr hx), fun hx => hserv (.inl hx)⟩
    obtain ⟨status, hsame, -, hj⟩ := h.pick_lssu s hst
    rw [hsame, Function.update_eq_self]
    refine ⟨d, _, hj, h.begun, fun t f hf => ?_⟩
    rcases s.eq_or t with rfl | rfl
    · simp only [Function.update_self, List.mem_append, List.mem_singleton] at hf
      rcases hf with hf | hf
      · exact h.first t f hf
      · rw [Gram.lssu.injEq] at hf
        rw [hf]
        exact firstLssu_lssuFrame (h.ends t) (h.begun t) hst status
    · exact h.first s.other f (by simpa using hf)

theorem first_tail (h : Starting d g x) {gr : Gram} {gs : List Gram} (hg : g s.other = gr :: gs)
    (t : Side) (f : List Octet) (hf : Gram.lssu f ∈ Function.update g s.other gs t) :
    FirstLssu f := by
  rcases s.eq_or t with rfl | rfl
  · exact h.first t f (by simpa using hf)
  · refine h.first s.other f ?_
    rw [hg]
    exact List.mem_cons_of_mem _ (by simpa using hf)

/-- **A unit arrives.** -/
theorem goodFrame_su {c : Link} (h : Starting d g x) {u : DataUnit Msu} {k : Ack}
    {gs : List Gram} (hg : g s.other = .su u k :: gs) {chan' : Side → List (List Octet)}
    (hchan : ∀ t, chan' t =
      (Function.update g s.other gs t).map (Gram.octets (startBase t) (startBase t.other)))
    (hb : Holds buf (suFrame (startBase s.other) (startBase s) u k))
    (hfirst : (x.ends s).state = .ready → fsnOf buf = (x.ends s).sendBsn)
    (hm : mtp2GoodFrame c alive (x.ends s) buf
      (suFrame (startBase s.other) (startBase s) u k).length = some m')
    (hlive : m'.fails = 0) :
    ∃ d', Starting d' (Function.update g s.other gs) ⟨Function.update x.ends s m', chan'⟩ := by
  have hlong := h.long (s := s.other) (u := u) (k := k) (by rw [hg]; exact List.mem_cons_self)
  obtain ⟨hlen, hli⟩ := hb.unit hlong
  have hinn := h.inv_other s
  have hinv := h.inv s
  rw [hg] at hinn hinv
  have hbegun := h.begun s
  have hlog := log_hear (d s.other) u
  by_cases hserv : (x.ends s).state = .inservice
  · obtain ⟨out', hext, hend, hst⟩ :=
      (h.ends s).goodFrame_su hbegun.fails hserv hinv hinn hb hlong hm
    have hsame : Same (x.ends s) m' := hst.resolve_right fun hout => hout.1 hlive
    exact ⟨_, h.update (h.hear hg hchan hext hend) rfl
      (hbegun.inservice hsame.t4 hsame.t17 hlive (hsame.state.trans hserv) (.inl hserv)) hlog
      ⟨hext.2.1, hext.2.2.1⟩ (h.first_tail hg)⟩
  by_cases hready : (x.ends s).state = .ready
  · rw [mtp2GoodFrame_ready hready hlen hli] at hm
    have hcnt := same_mtp2ErrorMonCountFrame (x.ends s)
    have hbsn : (mtp2ErrorMonCountFrame (x.ends s)).sendBsn = (x.ends s).sendBsn := by
      obtain ⟨_, _, hd⟩ := mtp2ErrorMonCountFrame_frame (x.ends s)
      rw [hd]
    obtain ⟨out', hext, hend⟩ := (h.ends s).mtp2ErrorMonCountFrame.enterService (c := c)
      (hcnt.fails.trans hbegun.fails) (hbegun.unheard hserv).2.2.2 hinv hinn hb
      ((hfirst hready).trans hbsn.symm)
    obtain ⟨hst, ht4, ht17, -⟩ :=
      same_enterService c (mtp2ErrorMonCountFrame (x.ends s)) buf
    have hm' := Option.some.inj hm
    have hend' : EndOk (startBase s) (startBase s.other) m' out' ((d s.other).hear u) :=
      hend.congr (by rw [← hm']; rfl)
    exact ⟨_, h.update (h.hear hg hchan hext hend') rfl
      (hbegun.inservice (by rw [← hm']; exact ht4.trans hcnt.t4)
        (by rw [← hm']; exact ht17.trans hcnt.t17) hlive (by rw [← hm']; exact hst) (.inr hready))
      hlog ⟨hext.2.1, hext.2.2.1⟩ (h.first_tail hg)⟩
  · have hm' : m' = mtp2ErrorMonCountFrame (x.ends s) := by
      rcases mtp2GoodFrame_cases hm with ⟨-, hsame⟩ | ⟨-, -, hlssu | ⟨-, hin | hr | hother⟩⟩
      · exact hsame
      · exact absurd hlssu.1 hli
      · exact absurd hin.1 hserv
      · exact absurd hr.1 hready
      · exact hother.2.2
    have hcnt := same_mtp2ErrorMonCountFrame (x.ends s)
    exact ⟨_, h.update (h.skip hg hchan (hm' ▸ (h.ends s).mtp2ErrorMonCountFrame)) rfl
      (hbegun.congr (hm' ▸ hcnt)) ⟨rfl, rfl, rfl, rfl⟩ ⟨rfl, rfl⟩ (h.first_tail hg)⟩

/-- **A status unit arrives.** -/
theorem goodFrame_lssu {c : Link} (h : Starting d g x) {f : List Octet} {gs : List Gram}
    (hg : g s.other = .lssu f :: gs) {chan' : Side → List (List Octet)}
    (hchan : ∀ t, chan' t =
      (Function.update g s.other gs t).map (Gram.octets (startBase t) (startBase t.other)))
    (hb : Holds buf f) (hm : mtp2GoodFrame c alive (x.ends s) buf f.length = some m')
    (hlive : m'.fails = 0) :
    ∃ d', Starting d' (Function.update g s.other gs) ⟨Function.update x.ends s m', chan'⟩ := by
  have hlssu := h.lssu s.other f (by rw [hg]; exact List.mem_cons_self)
  have hfirst := h.first s.other f (by rw [hg]; exact List.mem_cons_self)
  have hbegun := h.begun s
  have hcnt := same_mtp2ErrorMonCountFrame (x.ends s)
  -- in any state the counters stay, and the alignment moves on at most
  have hdone : ∀ (_ : EndOk (startBase s) (startBase s.other) m' (d s) (d s.other))
      (_ : Begun m' (d s) (d s.other)), ∃ d', Starting d' (Function.update g s.other gs)
        ⟨Function.update x.ends s m', chan'⟩ := fun hend hbeg =>
    ⟨_, h.update (h.skip hg hchan hend) rfl hbeg ⟨rfl, rfl, rfl, rfl⟩ ⟨rfl, rfl⟩
      (h.first_tail hg)⟩
  by_cases hserv : (x.ends s).state = .inservice
  · obtain ⟨hend, hst⟩ := (h.ends s).goodFrame_lssu hserv hb hlssu hm
    have hsame : Same (x.ends s) m' := hst.resolve_right fun hout => hout.1 hlive
    exact hdone hend (hbegun.congr hsame)
  · have hok := (h.ends s).mtp2ErrorMonCountFrame
    have hbegun' := hbegun.congr hcnt
    have hserv' : (mtp2ErrorMonCountFrame (x.ends s)).state ≠ .inservice := by
      rw [hcnt.state]
      exact hserv
    rcases mtp2GoodFrame_cases hm with ⟨-, rfl⟩ | ⟨-, -, hl | hunit⟩
    · exact hdone hok hbegun'
    · obtain ⟨hbsn, hbib⟩ := hbegun'.numbers hok hserv'
      obtain ⟨hfsn, hfib⟩ := hb.first hlssu hfirst
      have ha := processLssu_aligning hserv' hbegun'.fails hbegun'.t4 (hfsn.trans hbsn.symm)
        (hfib.trans hbib.symm) hl.2 hlive
      exact hdone (hok.congr ha.counters) (hbegun'.aligning hserv' ha hlive)
    · exact absurd (hb.lssu hlssu) hunit.1

/-- **A timer expires**, and no link fails. -/
theorem expire {c : Link} {t : Timer} (h : Starting d g x) (s : Side) (ht : (x.ends s).running t)
    (hm : Mtp2.expire c alive (x.ends s) t = some m') (hlive : m'.fails = 0) :
    ∃ d', Starting d' g ⟨Function.update x.ends s m', x.chan⟩ := by
  have hbegun := h.begun s
  have habort : ∀ m, ¬ some (abortInitialAlignment m) = some m' := fun m hf => by
    rw [← Option.some.inj hf] at hlive
    simp [abortInitialAlignment] at hlive
  have hfail : ∀ m down, ¬ mtp3LinkFail alive m down = some m' := fun m down hf => by
    have := (mtp3LinkFail_history hf).2.2.1
    omega
  cases t with
  | t1 => exact absurd hm (habort _)
  | t2 => exact absurd hm (habort _)
  | t3 => exact absurd hm (habort _)
  | t4 =>
    have hprov : (x.ends s).state = .proving := hbegun.t4 ht
    rw [← Option.some.inj hm]
    refine h.keep rfl ⟨hbegun.fails, hbegun.t17, fun hx => absurd hx Bool.false_ne_true,
      fun hx => absurd rfl hx, fun _ => hbegun.unheard ?_⟩
    rw [hprov]
    simp
  | t7 => exact absurd hm (hfail _ _)
  | t17 =>
    have hrun : (x.ends s).t17 = true := ht
    rw [hbegun.t17] at hrun
    exact absurd hrun Bool.false_ne_true
  | sltmT1 =>
    simp only [Mtp2.expire, timeoutSltmT1] at hm
    split_ifs at hm
    · exact h.sendSltm (c := c) s (.inr (Option.some.inj hm).symm)
    · exact absurd hm (hfail _ _)
  | sltmT2 => exact h.sendSltm (c := c) s (.inl (Option.some.inj hm).symm)

/-- **One step.** -/
theorem step {c : Side → Link} (h : Starting d g x) (hstep : JointStep c x e y) (hlive : Unfailed y)
    (he : Bears x e) : ∃ d' g', Starting d' g' y := by
  cases hstep with
  | queueMsu s sio sif hlen =>
    obtain ⟨d', hj⟩ := h.queueMsu s sio he
    exact ⟨d', g, hj⟩
  | pickFrame s => exact h.pickFrame s
  | @goodFrame s buf alive f rest m' hf hb hm =>
    obtain ⟨gr, gs, hg, rfl, hchan⟩ := h.chan_tail hf
    have hm0 : m'.fails = 0 := by
      have hs := hlive s
      simpa using hs
    cases gr with
    | su u k =>
      have hlong := h.long (s := s.other) (u := u) (k := k) (by rw [hg]; exact List.mem_cons_self)
      have hli := (hb.unit hlong).2
      obtain ⟨d', hj⟩ := h.goodFrame_su hg hchan hb (fun hr => he hr hli) hm hm0
      exact ⟨d', _, hj⟩
    | lssu f =>
      obtain ⟨d', hj⟩ := h.goodFrame_lssu hg hchan hb hm hm0
      exact ⟨d', _, hj⟩
  | @lose s l hl =>
    obtain ⟨g', hle, hj⟩ := h.lose hl
    exact ⟨d, g', hj, h.begun, fun t f hf => h.first t f ((hle t).subset hf)⟩
  | @expire s t alive m' ht hm =>
    have hm0 : m'.fails = 0 := by
      have hs := hlive s
      simpa using hs
    obtain ⟨d', hj⟩ := h.expire s ht hm hm0
    exact ⟨d', g, hj⟩

end Starting

/-! ## What is acknowledged -/

/-- How many of the MSUs it accepted an end counts as acknowledged: those up
to `retrans_last_acked`. -/
def ackedCount (m : Mtp2State) : ℕ :=
  m.accepted.length - (m.retransLastSent + 128 - m.retransLastAcked) % 128

/-- **What the end `s` counts as acknowledged, the other has handed over.** -/
def AckedHanded (x : Sys) (s : Side) : Prop :=
  (x.ends s).accepted.take (ackedCount (x.ends s)) <+: (x.ends s.other).handed

theorem Sends.ackedCount {d : Dir Msu} {b : Base} (h : Sends b m d) (hacc : m.accepted = d.log)
    (hinv : Inv 127 d line back) : ackedCount m = d.acked := by
  have hacked := hinv.acked_le
  have hgot := hinv.got_le
  have hsent := hinv.sent_le
  have hwin := hinv.window
  rw [Mtp2.ackedCount, hacc, h.lastSent, h.lastAcked]
  unfold Base.number
  omega

theorem Starting.ackedHanded {d : Side → Dir Msu} {g : Side → List Gram} (h : Starting d g x)
    (s : Side) : AckedHanded x s := by
  have hs := ((h.ends s).live (h.begun s).fails).1
  have hother := (h.ends s.other).handed
  rw [Side.other_other] at hother
  rw [AckedHanded, hs.ackedCount (h.ends s).accepted (h.inv s), (h.ends s).accepted, hother]
  exact List.take_prefix_take_left (h.inv s).acked_le

/-- **Two ends from the start of their alignment.** In every run in which no
link fails, every MSU has a label, and the unit that brings an end into
service has the number of the last one received, an end counts as
acknowledged only what the other has handed over. -/
theorem joint_startup (c : Side → Link) (evs : List Action) (hx : Started x)
    (hrun : Trace (fun x e y => JointStep c x e y ∧ Unfailed y ∧ Bears x e) x evs y) (s : Side) :
    AckedHanded y s := by
  obtain ⟨d, g, h⟩ := hrun.inv_state (I := fun x => ∃ d g, Starting d g x) ⟨_, _, hx.starting⟩
    fun _ _ _ ⟨d, g, h⟩ hstep => h.step hstep.1 hstep.2.1 hstep.2.2
  exact h.ackedHanded s

/-! ### Two runs -/

instance (x : Sys) : Decidable (Unfailed x) :=
  decidable_of_iff ((x.ends .left).fails = 0 ∧ (x.ends .right).fails = 0)
    ⟨fun h s => by cases s; exacts [h.1, h.2], fun h => ⟨h .left, h .right⟩⟩

instance (x : Sys) : (e : Action) → Decidable (Bears x e)
  | .queueMsu _ _ sif => inferInstanceAs (Decidable (4 ≤ sif.length))
  | .goodFrame s buf _ =>
    inferInstanceAs (Decidable ((x.ends s).state = .ready → ¬ (liOf buf = 1 ∨ liOf buf = 2) →
      fsnOf buf = (x.ends s).sendBsn))
  | .pickFrame _ => inferInstanceAs (Decidable True)
  | .lose _ => inferInstanceAs (Decidable True)
  | .expire _ _ _ => inferInstanceAs (Decidable True)

/-- Two ends of an ITU link at the start. -/
def startSys : Sys := ⟨fun _ => startInitialAlignment (mtpInitLinkData none), fun _ => []⟩

theorem started_startSys : Started startSys := ⟨fun _ => ⟨none, rfl⟩, fun _ => rfl⟩

/-- Two links without test messages. -/
def testLinks : Side → Link
  | .left => ⟨.itu, 1, 2, 0, false⟩
  | .right => ⟨.itu, 2, 1, 0, false⟩

/-- Both ends align and prove, and are ready. -/
def toReady : List Move :=
  [.pick .left, .take .right, .pick .right, .take .left, .pick .right, .take .left,
    .pick .left, .take .right, .t4 .left, .t4 .right]

/-- Both ends come into service by a fill-in unit; the message of the left is
handed over and acknowledged. -/
theorem joint_startup_one :
    ∃ (evs : List Action) (y : Sys),
      Trace (fun x e y => JointStep testLinks x e y ∧ Unfailed y ∧ Bears x e) startSys evs y ∧
        ackedCount (y.ends .left) = 1 ∧ AckedHanded y .left := by
  let moves : List Move := toReady ++ [.pick .left, .pick .right, .take .left, .take .right,
    .pick .left, .take .right, .pick .right, .take .left]
  let ok : Sys → Action → Sys → Bool := fun x e y => decide (Unfailed y ∧ Bears x e)
  have hend : ((moves.foldlM (makeMove testLinks ok) startSys).map fun y =>
      ackedCount (y.ends .left)) = some 1 := by decide +kernel
  obtain ⟨y, hy, hcount⟩ := Option.map_eq_some_iff.1 hend
  obtain ⟨evs, hrun⟩ : ∃ evs,
      Trace (fun x e y => JointStep testLinks x e y ∧ Unfailed y ∧ Bears x e) startSys evs y :=
    Trace.of_foldlM
      (fun _ _ _ h => (makeMove_sound h).imp fun _ hs => ⟨hs.1, of_decide_eq_true hs.2⟩) hy
  exact ⟨evs, y, hrun, hcount, joint_startup testLinks evs started_startSys hrun .left⟩

/-- The left end comes into service first and sends its message; the right
takes it as the unit that brings it into service, and acknowledges it. -/
theorem not_joint_startup :
    ¬ ∀ (c : Side → Link) (x : Sys) (evs : List Action) (y : Sys), Started x →
      Trace (fun x e y => JointStep c x e y ∧ Unfailed y) x evs y → ∀ s, AckedHanded y s := by
  intro hall
  let moves : List Move := toReady ++ [.pick .right, .take .left, .pick .left, .take .right,
    .pick .right, .take .left]
  let ok : Sys → Action → Sys → Bool := fun _ _ y => decide (Unfailed y)
  have hend : ((moves.foldlM (makeMove testLinks ok) startSys).map fun y =>
      ((y.ends .left).accepted.take (ackedCount (y.ends .left)), (y.ends .right).handed)) =
        some ([⟨0x80, [2, 64, 0, 0, 0x17]⟩], []) := by decide +kernel
  obtain ⟨y, hy, heq⟩ := Option.map_eq_some_iff.1 hend
  obtain ⟨evs, hrun⟩ : ∃ evs,
      Trace (fun x e y => JointStep testLinks x e y ∧ Unfailed y) startSys evs y :=
    Trace.of_foldlM
      (fun _ _ _ h => (makeMove_sound h).imp fun _ hs => ⟨hs.1, of_decide_eq_true hs.2⟩) hy
  have hacked := hall testLinks startSys evs y started_startSys hrun .left
  obtain ⟨hleft, hright⟩ := Prod.mk.inj heq
  have hright' : (y.ends (Side.other .left)).handed = [] := hright
  rw [AckedHanded, hleft, hright'] at hacked
  exact absurd (List.prefix_nil.1 hacked) (by simp)

end Mtp2

end Trismedia
