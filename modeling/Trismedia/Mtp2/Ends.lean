import Trismedia.Mtp2.Wire
/-!
# One end of the protocol

How the counters of a link stand for the two directions of the go-back-N
protocol it takes part in, as the sender of one and the receiver of the
other, and what each function does there: `mtp2_queue_msu` takes a message,
the BSN and BIB of a unit acknowledge, its FSN and FIB are heard. A link that
failed keeps only what it accepted and handed over.
-/


namespace Trismedia

namespace Mtp2

open GoBackN

variable {c : Link} {alive : Bool} {m m' : Mtp2State} {buf : ℕ → Octet} {len : ℕ}
variable {sio : Octet} {sif : List Octet} {b bo bi : Base} {d out inn out' inn' : Dir Msu}
variable {u : DataUnit Msu} {k : Ack} {a : Msu}
variable {line lineI : List (DataUnit Msu)} {back backI : List Ack}

/-- **The counters of a sender.** -/
structure Sends (b : Base) (m : Mtp2State) (d : Dir Msu) : Prop where
  lastSent : m.retransLastSent = b.number d.log.length
  lastAcked : m.retransLastAcked = b.number d.acked
  retransSeq : m.retransSeq = if d.sent = d.log.length then none else some (b.number (d.sent + 1))
  sendFib : m.sendFib = b.indicator d.phase
  slot : ∀ n, d.acked ≤ n → ∀ a, d.log[n]? = some a →
    m.retransBuf (b.number (n + 1)) = slotOf a.sio a.sif

/-- **The counters of a receiver.** -/
structure Receives (b : Base) (m : Mtp2State) (d : Dir Msu) : Prop where
  sendBsn : m.sendBsn = b.number d.got
  sendBib : m.sendBib = b.indicator d.asked

/-- **One end**, with the direction it sends and the one it receives. -/
structure EndOk (bo bi : Base) (m : Mtp2State) (out inn : Dir Msu) : Prop where
  accepted : m.accepted = out.log
  handed : m.handed = inn.log.take inn.got
  long : ∀ a ∈ out.log, 4 ≤ a.sif.length
  live : m.fails = 0 → Sends bo m out ∧ Receives bi m inn

/-- The fields the protocol depends on. -/
def Mtp2State.counters (m : Mtp2State) :
    (Bool × ℕ × Bool) × ((ℕ → List Octet) × Option ℕ × ℕ × ℕ) × List Msu × List Msu × ℕ :=
  ((m.sendFib, m.sendBsn, m.sendBib),
    (m.retransBuf, m.retransSeq, m.retransLastAcked, m.retransLastSent), m.accepted, m.handed,
    m.fails)

theorem EndOk.congr (h : EndOk bo bi m out inn) (heq : m'.counters = m.counters) :
    EndOk bo bi m' out inn := by
  simp only [Mtp2State.counters, Prod.mk.injEq] at heq
  obtain ⟨⟨h1, h2, h3⟩, ⟨h4, h5, h6, h7⟩, h8, h9, h10⟩ := heq
  refine ⟨h8.trans h.accepted, h9.trans h.handed, h.long, fun hl => ?_⟩
  obtain ⟨hs, hr⟩ := h.live (h10 ▸ hl)
  exact ⟨⟨h7.trans hs.lastSent, h6.trans hs.lastAcked, h5.trans hs.retransSeq, h1.trans hs.sendFib,
    by rw [h4]; exact hs.slot⟩, ⟨h2.trans hr.sendBsn, h3.trans hr.sendBib⟩⟩

/-- What a step of the other end leaves of this one. -/
theorem EndOk.peer (h : EndOk bo bi m out inn) (ho : out'.log = out.log ∧ out'.acked = out.acked ∧
      out'.sent = out.sent ∧ out'.phase = out.phase)
    (hi : inn'.got = inn.got ∧ inn'.asked = inn.asked ∧ inn.log <+: inn'.log)
    (hle : inn.got ≤ inn.log.length) : EndOk bo bi m out' inn' := by
  obtain ⟨h1, h2, h3, h4⟩ := ho
  obtain ⟨g1, g2, g3⟩ := hi
  refine ⟨h1 ▸ h.accepted, ?_, h1 ▸ h.long, fun hl => ?_⟩
  · rw [h.handed, g1]
    obtain ⟨rest, hrest⟩ := g3
    rw [← hrest, List.take_append_of_le_length hle]
  · obtain ⟨hs, hr⟩ := h.live hl
    refine ⟨⟨h1 ▸ hs.lastSent, h2 ▸ hs.lastAcked, ?_, h4 ▸ hs.sendFib, ?_⟩,
      ⟨g1 ▸ hr.sendBsn, g2 ▸ hr.sendBib⟩⟩
    · rw [h3, h1]
      exact hs.retransSeq
    · rw [h2, h1]
      exact hs.slot

/-! ## Queueing -/

/-- The window of the sender has room where `mtp2_queue_msu` sees room. -/
theorem Sends.room (h : Sends b m d) (hinv : Inv 127 d line back)
    (hroom : mtpNextSeq m.retransLastSent ≠ m.retransLastAcked) :
    d.log.length < d.acked + 127 := by
  have hwin := hinv.window
  by_contra hfull
  have heq : d.log.length + 1 = d.acked + 128 := by omega
  rw [h.lastSent, h.lastAcked, Base.mtpNextSeq_number, heq] at hroom
  apply hroom
  unfold Base.number
  omega

theorem Sends.accept (h : Sends b m d) (hinv : Inv 127 d line back)
    (hroom : d.log.length < d.acked + 127) : Sends b (accept m sio sif) (d.take ⟨sio, sif⟩) := by
  have hsent := hinv.sent_le
  have hlen : (d.take ⟨sio, sif⟩).log.length = d.log.length + 1 := by
    simp [Dir.take]
  have hnext : mtpNextSeq m.retransLastSent = b.number (d.log.length + 1) := by
    rw [h.lastSent, Base.mtpNextSeq_number]
  have hne : ¬ d.sent = d.log.length + 1 := by omega
  constructor
  · rw [hlen]
    exact hnext
  · exact h.lastAcked
  · have hseq : (Mtp2.accept m sio sif).retransSeq = some (b.number (d.sent + 1)) := by
      simp only [Mtp2.accept, hnext]
      by_cases hs : d.sent = d.log.length
      · rw [if_pos (by rw [h.retransSeq, if_pos hs]), hs]
      · rw [if_neg (by rw [h.retransSeq, if_neg hs]; exact Option.some_ne_none _), h.retransSeq,
          if_neg hs]
    have hne' : ¬ (d.take ⟨sio, sif⟩).sent = (d.take ⟨sio, sif⟩).log.length := by
      rw [hlen]
      exact hne
    rw [hseq, if_neg hne']
    rfl
  · exact h.sendFib
  · intro n hn a ha
    simp only [Mtp2.accept, hnext]
    by_cases hlast : n = d.log.length
    · subst hlast
      rw [Dir.take, List.getElem?_append_right (Nat.le_refl _)] at ha
      simp only [Nat.sub_self, List.getElem?_cons_zero, Option.some.injEq] at ha
      rw [Function.update_self, ← ha]
    · have hlt : n < d.log.length := by
        obtain ⟨hl, -⟩ := List.getElem?_eq_some_iff.1 ha
        rw [hlen] at hl
        omega
      rw [Dir.take, List.getElem?_append_left hlt] at ha
      have hdiff : b.number (n + 1) ≠ b.number (d.log.length + 1) := fun hx => by
        have hna : d.acked ≤ n := hn
        have := (Base.number_inj (b := b) (m := n + 1) (n := d.log.length + 1) (by omega)
          (by omega)).1 hx.symm
        omega
      rw [Function.update_of_ne hdiff]
      exact h.slot n hn a ha

/-- The outcome of a call that may take messages for the direction it
sends. -/
def Extends (out out' : Dir Msu) (line : List (DataUnit Msu)) (back : List Ack) : Prop :=
  Inv 127 out' line back ∧ out'.got = out.got ∧ out'.asked = out.asked ∧ out.log <+: out'.log

theorem Extends.refl (h : Inv 127 out line back) : Extends out out line back :=
  ⟨h, rfl, rfl, List.prefix_refl _⟩

theorem Extends.trans {out'' : Dir Msu} (h : Extends out out' line back)
    (h' : Extends out' out'' line back) : Extends out out'' line back :=
  ⟨h'.1, h'.2.1.trans h.2.1, h'.2.2.1.trans h.2.2.1, h.2.2.2.trans h'.2.2.2⟩

/-- A direction with more messages taken. -/
def grown (d : Dir Msu) (ms : List Msu) : Dir Msu := { d with log := d.log ++ ms }

theorem grown_nil (d : Dir Msu) : grown d [] = d := by
  rw [grown, List.append_nil]

theorem extends_grown {ms : List Msu} (h : Inv 127 (grown out ms) line back) :
    Extends out (grown out ms) line back := ⟨h, rfl, rfl, List.prefix_append _ _⟩

/-- **`mtp2_queue_msu` takes a message of the protocol, or nothing.** -/
theorem EndOk.mtp2QueueMsu (h : EndOk bo bi m out inn) (sio : Octet) (hlive : m.fails = 0)
    (hinv : Inv 127 out line back) (hlen : 4 ≤ sif.length) :
    ∃ ms, Inv 127 (grown out ms) line back ∧
      EndOk bo bi (mtp2QueueMsu m sio sif) (grown out ms) inn := by
  by_cases hacc : Accepts m sif
  · obtain ⟨hs, hr⟩ := h.live hlive
    have hroom := hs.room hinv hacc.2.2
    refine ⟨[⟨sio, sif⟩], hinv.take hroom, ?_⟩
    rw [mtp2QueueMsu_of_accepts hacc]
    refine ⟨?_, h.handed, ?_, fun _ => ⟨hs.accept hinv hroom, hr.sendBsn, hr.sendBib⟩⟩
    · rw [accept, h.accepted]
      rfl
    · intro a ha
      rcases List.mem_append.1 ha with ha | ha
      · exact h.long a ha
      · rw [List.mem_singleton.1 ha]
        exact hlen
  · rw [mtp2QueueMsu_of_not_accepts hacc]
    exact ⟨[], by rwa [grown_nil], by rwa [grown_nil]⟩

theorem EndOk.mtp3SendSltm (h : EndOk bo bi m out inn) (hlive : m.fails = 0)
    (hinv : Inv 127 out line back) :
    ∃ ms, Inv 127 (grown out ms) line back ∧
      EndOk bo bi (mtp3SendSltm c m) (grown out ms) inn := by
  obtain ⟨ms, hext, hok⟩ : ∃ ms, Inv 127 (grown out ms) line back ∧
      EndOk bo bi (Mtp2.mtp2QueueMsu m (serviceOctet m 1) (sltm c)) (grown out ms) inn :=
    h.mtp2QueueMsu _ hlive hinv (length_sltm c).1
  obtain ⟨run, tries, hs⟩ := startSltmT1_frame (Mtp2.mtp2QueueMsu m (serviceOctet m 1) (sltm c))
  refine ⟨ms, hext, hok.congr ?_⟩
  rw [mtp3SendSltm_eq, hs]
  rfl

theorem EndOk.l4up (h : EndOk bo bi m out inn) : EndOk bo bi (l4up m) out inn := by
  obtain ⟨_, _, hl⟩ := l4up_frame m
  refine h.congr ?_
  rw [hl]
  rfl

/-! ## Failures -/

theorem changeoverLoop_history {fuel i : ℕ} (h : changeoverLoop fuel i m = some m') :
    m'.accepted = m.accepted ∧ m'.handed = m.handed ∧ m'.fails = m.fails := by
  induction fuel generalizing i m with
  | zero => simp [changeoverLoop] at h
  | succ n ih =>
    rw [changeoverLoop] at h
    split_ifs at h with h1 h2
    · rw [Option.some.inj h]
      exact ⟨rfl, rfl, rfl⟩
    · have hrest := ih h
      exact hrest

theorem linkFailed_history (m : Mtp2State) (down : Bool) :
    (linkFailed m down).accepted = m.accepted ∧ (linkFailed m down).handed = m.handed ∧
      (linkFailed m down).fails = m.fails + 1 ∧
      ((linkFailed m down).state = .down ∨ (linkFailed m down).state = .notAligned) := by
  unfold linkFailed
  cases down
  · obtain ⟨_, _, h⟩ := l4down_frame { m with state := .notAligned, fails := m.fails + 1 }
    simp [h]
  · obtain ⟨_, _, h⟩ := l4down_frame { m with state := .down, t17 := true, fails := m.fails + 1 }
    simp [h]

/-- **A failure keeps the history**, and leaves the link down or not
aligned. -/
theorem mtp3LinkFail_history {down : Bool} (h : mtp3LinkFail alive m down = some m') :
    m'.accepted = m.accepted ∧ m'.handed = m.handed ∧ m'.fails = m.fails + 1 ∧
      (m'.state = .down ∨ m'.state = .notAligned) := by
  unfold mtp3LinkFail at h
  dsimp only at h
  split_ifs at h with hs
  · obtain ⟨x, hx, rfl⟩ := Option.map_eq_some_iff.1 h
    have hf := linkFailed_history x down
    have hhist : x.accepted = m.accepted ∧ x.handed = m.handed ∧ x.fails = m.fails := by
      unfold mtpChangeover at hx
      split_ifs at hx
      · have hloop := changeoverLoop_history hx
        exact hloop
      · rw [← Option.some.inj hx]
        exact ⟨rfl, rfl, rfl⟩
    rw [hhist.1, hhist.2.1, hhist.2.2] at hf
    exact hf
  · rw [← Option.some.inj h]
    exact linkFailed_history (mtp2Cleanup m) down

/-- A link that failed and is not aligned again. -/
def Out (m : Mtp2State) : Prop := m.fails ≠ 0 ∧ m.state ≠ .ready ∧ m.state ≠ .inservice

theorem EndOk.mtp3LinkFail {down : Bool} (h : EndOk bo bi m out inn)
    (hf : mtp3LinkFail alive m down = some m') : EndOk bo bi m' out inn ∧ Out m' := by
  obtain ⟨h1, h2, h3, h4⟩ := mtp3LinkFail_history hf
  have hne : m'.fails ≠ 0 := by omega
  refine ⟨⟨h1.trans h.accepted, h2.trans h.handed, h.long, fun hl => absurd hl hne⟩, hne, ?_⟩
  rcases h4 with h4 | h4 <;> simp [h4]

/-! ## Acknowledgements -/

theorem log_acknowledge (d : Dir Msu) (k : Ack) (n : ℕ) :
    (d.acknowledge k n).log = d.log ∧ (d.acknowledge k n).got = d.got ∧
      (d.acknowledge k n).asked = d.asked ∧ (d.acknowledge k n).acked = k.got := by
  unfold Dir.acknowledge
  split_ifs <;> exact ⟨rfl, rfl, rfl, rfl⟩

/-- The BSN of a frame of the protocol is never illegal. -/
theorem Sends.not_illegalBsn (h : Sends b m d) (hinv : Inv 127 d line (k :: back))
    (hbsn : bsnOf buf = b.number k.got) : ¬ illegalBsn m (bsnOf buf) := by
  have hwin := hinv.ack_window
  rw [illegalBsn, h.lastAcked, h.lastSent, hbsn]
  unfold Base.number
  omega

/-- A BIB that is not the FIB sent is one of the next phase. -/
theorem indicator_eq_iff (hphase : k.phase = d.phase ∨ k.phase = d.phase + 1) :
    b.indicator k.phase = b.indicator d.phase ↔ k.phase = d.phase := by
  constructor
  · intro heq
    rcases hphase with h | h
    · exact h
    · rw [h] at heq
      exact absurd heq (b.indicator_succ_ne _)
  · intro h
    rw [h]

/-- **The BSN and the BIB of a frame** acknowledge, and send the sender back
where they are of a new phase. -/
theorem Sends.takeAck (h : Sends b m d) (hinv : Inv 127 d line (k :: back))
    (hbsn : bsnOf buf = b.number k.got) (hbib : bibOf buf = b.indicator k.phase) :
    Sends b (takeAck m buf) (d.acknowledge k k.got) := by
  have hwin := hinv.ack_window
  have hphase := hinv.ack_phase
  obtain ⟨t, ht⟩ := takeBsn_frame { m with bsnErrors := 0 } (bsnOf buf)
  have hslot : ∀ n, k.got ≤ n → ∀ a, d.log[n]? = some a →
      m.retransBuf (b.number (n + 1)) = slotOf a.sio a.sif := fun n hn => h.slot n (by omega)
  rw [Mtp2.takeAck, ht, takeBib]
  dsimp only
  rw [hbib, h.sendFib, Dir.acknowledge]
  by_cases heq : k.phase = d.phase
  · rw [if_pos heq, if_pos ((indicator_eq_iff hphase).2 heq)]
    exact ⟨h.lastSent, hbsn, h.retransSeq, rfl, hslot⟩
  · rw [if_neg heq, if_neg fun hx => heq ((indicator_eq_iff hphase).1 hx)]
    refine ⟨h.lastSent, hbsn, ?_, rfl, hslot⟩
    have hlast : b.number k.got = m.retransLastSent ↔ k.got = d.log.length := by
      rw [h.lastSent]
      exact ⟨fun hx => ((Base.number_inj (by omega) (by omega)).1 hx.symm).symm, fun hx => by rw [hx]⟩
    simp only [hbsn, hlast, Base.mtpNextSeq_number]

theorem EndOk.takeAck (h : EndOk bo bi m out inn) (hinv : Inv 127 out line (k :: back))
    (hbsn : bsnOf buf = bo.number k.got) (hbib : bibOf buf = bo.indicator k.phase) :
    EndOk bo bi (takeAck m buf) (out.acknowledge k k.got) inn := by
  obtain ⟨t, rs, ht⟩ := takeAck_frame m buf
  have hlog := log_acknowledge out k k.got
  refine ⟨?_, ?_, ?_, fun hl => ?_⟩
  · rw [hlog.1, ht]
    exact h.accepted
  · rw [ht]
    exact h.handed
  · rw [hlog.1]
    exact h.long
  · have hl' : m.fails = 0 := by
      rw [ht] at hl
      exact hl
    obtain ⟨hs, hr⟩ := h.live hl'
    refine ⟨hs.takeAck hinv hbsn hbib, ?_⟩
    rw [ht]
    exact ⟨hr.sendBsn, hr.sendBib⟩

/-- What an acknowledgement leaves of the direction. -/
theorem extends_acknowledge {n : ℕ} (hinv : Inv 127 out line (k :: back)) (hn : k.got ≤ n)
    (hn' : n ≤ out.log.length) : Extends out (out.acknowledge k n) line back := by
  have hlog := log_acknowledge out k n
  exact ⟨hinv.acknowledge hn hn', hlog.2.1, hlog.2.2.1, hlog.1 ▸ List.prefix_refl _⟩

/-! ## Units heard -/

/-- The FSN and FIB of a frame, for a unit of the protocol. -/
theorem fib_eq_iff (h : Inv 127 d (u :: line) back) :
    b.indicator u.phase = b.indicator d.asked ↔ u.phase = d.asked := by
  constructor
  · intro heq
    rcases h.unit_phase with hu | hu
    · exact hu
    · rw [← hu] at heq
      exact absurd heq.symm (b.indicator_succ_ne _)
  · intro hu
    rw [hu]

/-- **A gap asks for retransmission**, where the unit is of the phase asked
for. -/
theorem Receives.askAgain (h : Receives b m d) (hinv : Inv 127 d (u :: line) back) :
    Receives b (askAgain m (b.indicator u.phase))
      (if u.phase = d.asked then { d with asked := d.asked + 1 } else d) := by
  unfold Mtp2.askAgain
  rw [h.sendBib]
  by_cases hu : u.phase = d.asked
  · rw [if_pos ((fib_eq_iff hinv).2 hu), if_pos hu]
    refine ⟨h.sendBsn, ?_⟩
    simp only [Base.indicator, bitOf_succ]
  · rw [if_neg fun hx => hu ((fib_eq_iff hinv).1 hx), if_neg hu]
    exact h

theorem log_hear (d : Dir Msu) (u : DataUnit Msu) :
    (d.hear u).log = d.log ∧ (d.hear u).acked = d.acked ∧ (d.hear u).sent = d.sent ∧
      (d.hear u).phase = d.phase := by
  unfold Dir.hear
  split_ifs <;> exact ⟨rfl, rfl, rfl, rfl⟩

/-- **A fill-in unit is heard.** -/
theorem Receives.takeFisu (h : Receives b m d) (hinv : Inv 127 d (u :: line) back)
    (hu : u.body = none) :
    Receives b (takeFisu m (b.number u.seq) (b.indicator u.phase)) (d.hear u) := by
  have hbody : ¬ u.body.isSome := by simp [hu]
  unfold Mtp2.takeFisu Dir.hear
  rw [h.sendBsn]
  by_cases hph : u.phase = d.asked
  · have hwin := hinv.unit_window hph
    rw [if_pos hph, if_neg hbody]
    by_cases hseq : u.seq = d.got
    · rw [if_pos (by rw [hseq]), if_pos hseq]
      exact h
    · have hne : ¬ b.number u.seq = b.number d.got := fun hx =>
        hseq ((Base.number_inj (by omega) (by omega)).1 hx)
      have hask := h.askAgain hinv
      rw [if_pos hph] at hask
      rw [if_neg hne, if_neg hseq]
      exact hask
  · rw [if_neg hph]
    split_ifs
    · exact h
    · have hask := h.askAgain hinv
      rwa [if_neg hph] at hask

/-- A message unit is in sequence exactly if it is the next of the phase
asked for. -/
theorem Receives.inSequence_iff (h : Receives b m d) (hinv : Inv 127 d (u :: line) back)
    (hbody : u.body.isSome) (hfsn : fsnOf buf = b.number u.seq)
    (hfib : fibOf buf = b.indicator u.phase) :
    InSequence m buf ↔ u.phase = d.asked ∧ u.seq = d.got + 1 := by
  rw [InSequence, hfsn, hfib, h.sendBsn, h.sendBib, Base.mtpNextSeq_number, fib_eq_iff hinv]
  constructor
  · rintro ⟨hseq, hph⟩
    have hwin := hinv.unit_window hph
    have hlt := hwin.2.1 hbody
    exact ⟨hph, (Base.number_inj (by omega) (by omega)).1 hseq⟩
  · rintro ⟨hph, hseq⟩
    rw [hseq]
    exact ⟨rfl, hph⟩

theorem got_hear_of_none (hu : u.body = none) : (d.hear u).got = d.got := by
  unfold Dir.hear
  rw [hu]
  simp only [Option.isSome_none, Bool.false_eq_true, if_false]
  split_ifs <;> rfl

/-- A message unit that is not the next of the phase asked for. -/
theorem hear_of_not_next (hbody : u.body.isSome) (h : ¬ (u.phase = d.asked ∧ u.seq = d.got + 1)) :
    d.hear u = if u.phase = d.asked then { d with asked := d.asked + 1 } else d := by
  unfold Dir.hear
  by_cases hph : u.phase = d.asked
  · rw [if_pos hph, if_pos hph, if_pos hbody, if_neg fun hx => h ⟨hph, hx⟩]
  · rw [if_neg hph, if_neg hph]

/-- The next message, taken. -/
theorem take_hear (hinv : Inv 127 d (u :: line) back) (ha : u.body = some a)
    (hnext : u.phase = d.asked ∧ u.seq = d.got + 1) :
    d.hear u = { d with got := d.got + 1 } ∧
      d.log.take (d.got + 1) = d.log.take d.got ++ [a] := by
  have hbody : u.body.isSome := by simp [ha]
  have hlog := hinv.unit_log ha
  rw [hnext.2, Nat.add_sub_cancel] at hlog
  refine ⟨?_, by rw [List.take_add_one, hlog]; rfl⟩
  unfold Dir.hear
  rw [if_pos hnext.1, if_pos hbody, if_pos hnext.2, hnext.2]

/-! ## Level 3 -/

/-- In the same state, with no failure since. -/
def Same (m m' : Mtp2State) : Prop :=
  m'.state = m.state ∧ m'.t4 = m.t4 ∧ m'.t17 = m.t17 ∧ m'.fails = m.fails

theorem Same.state (h : Same m m') : m'.state = m.state := h.1

theorem Same.t4 (h : Same m m') : m'.t4 = m.t4 := h.2.1

theorem Same.t17 (h : Same m m') : m'.t17 = m.t17 := h.2.2.1

theorem Same.fails (h : Same m m') : m'.fails = m.fails := h.2.2.2

theorem Same.trans {m'' : Mtp2State} (h : Same m m') (h' : Same m' m'') : Same m m'' :=
  ⟨h'.state.trans h.state, h'.t4.trans h.t4, h'.t17.trans h.t17, h'.fails.trans h.fails⟩

theorem same_mtp2QueueMsu (m : Mtp2State) (sio : Octet) (sif : List Octet) :
    Same m (mtp2QueueMsu m sio sif) := by
  obtain ⟨_, _, _, _, _, h⟩ := mtp2QueueMsu_frame m sio sif
  rw [h]
  exact ⟨rfl, rfl, rfl, rfl⟩

theorem same_mtp3SendSltm (c : Link) (m : Mtp2State) : Same m (mtp3SendSltm c m) := by
  obtain ⟨_, _, h⟩ := startSltmT1_frame (mtp2QueueMsu m (serviceOctet m 1) (sltm c))
  rw [mtp3SendSltm_eq, h]
  exact same_mtp2QueueMsu m (serviceOctet m 1) (sltm c)

theorem same_l4up (m : Mtp2State) : Same m (l4up m) := by
  obtain ⟨_, _, h⟩ := l4up_frame m
  rw [h]
  exact ⟨rfl, rfl, rfl, rfl⟩

theorem length_slta_label (c : Link) (buf : ℕ → Octet) :
    4 ≤ (mtp3PutLabel (slcOf c buf) c.variant (dpcOf c buf) (opcOf c buf) ++
      [0x21, UInt8.ofNat (sltPatternLen c buf <<< 4)] ++
      octetsFrom buf (headingAt c + 2) (sltPatternLen c buf)).length := by
  have := length_mtp3PutLabel (slcOf c buf) c.variant (dpcOf c buf) (opcOf c buf)
  simp only [List.length_append, List.length_cons, List.length_nil]
  omega

/-- **What `process_msu` does to an end** that has recorded the unit: it may
queue a message, and it may fail the link. -/
theorem EndOk.processMsu (h : EndOk bo bi (handOver m buf len) out inn) (hlive : m.fails = 0)
    (hinv : Inv 127 out line back) (hp : processMsu c alive m buf len = some m') :
    ∃ out', Extends out out' line back ∧ EndOk bo bi m' out' inn ∧ (Same m m' ∨ Out m') := by
  rcases processMsu_cases hp with ⟨-, rfl⟩ | ⟨-, hslta⟩ | ⟨-, -, ev, rfl⟩
  · obtain ⟨ms, hinv', hok⟩ : ∃ ms, Inv 127 (grown out ms) line back ∧
        EndOk bo bi (queueSlta c (Mtp2.handOver m buf len) buf) (grown out ms) inn :=
      h.mtp2QueueMsu _ hlive hinv (length_slta_label c buf)
    exact ⟨_, extends_grown hinv', hok, .inl (same_mtp2QueueMsu (Mtp2.handOver m buf len) _ _)⟩
  · rcases takeSlta_cases hslta with ⟨-, rfl⟩ | ⟨-, -, rfl⟩ | ⟨-, -, hfail⟩
    · have hok : EndOk bo bi { handOver m buf len with sltmT1 := false } out inn := h.congr rfl
      exact ⟨out, .refl hinv, hok.l4up, .inl (same_l4up { handOver m buf len with sltmT1 := false })⟩
    · have hok : EndOk bo bi { handOver m buf len with sltmT1 := false } out inn := h.congr rfl
      obtain ⟨ms, hinv', hok'⟩ := hok.mtp3SendSltm (c := c) hlive hinv
      exact ⟨_, extends_grown hinv', hok'.congr rfl,
        .inl (same_mtp3SendSltm c { handOver m buf len with sltmT1 := false })⟩
    · have hok : EndOk bo bi { handOver m buf len with sltmT1 := false } out inn := h.congr rfl
      obtain ⟨hok', hout⟩ := hok.mtp3LinkFail hfail
      exact ⟨out, .refl hinv, hok', .inr hout⟩
  · exact ⟨out, .refl hinv, h.congr rfl, .inl ⟨rfl, rfl, rfl, rfl⟩⟩

/-! ## Units received in service -/

theorem EndOk.handOver (h : EndOk bo bi m out inn) (hlive : m.fails = 0)
    (hinn : Inv 127 inn (u :: lineI) backI) (ha : u.body = some a)
    (hnext : u.phase = inn.asked ∧ u.seq = inn.got + 1) (hfsn : fsnOf buf = bi.number u.seq)
    (hmsu : msuOf buf len = a) :
    EndOk bo bi (handOver { m with sendBsn := fsnOf buf } buf len) out (inn.hear u) := by
  obtain ⟨hhear, htake⟩ := take_hear hinn ha hnext
  obtain ⟨hs, hr⟩ := h.live hlive
  rw [hhear]
  refine ⟨h.accepted, ?_, h.long, fun _ => ⟨⟨hs.lastSent, hs.lastAcked, hs.retransSeq, hs.sendFib,
    hs.slot⟩, ?_, hr.sendBib⟩⟩
  · rw [htake, ← h.handed, ← hmsu]
    rfl
  · rw [← hnext.2]
    exact hfsn

/-- **A message unit**, after its acknowledgement. -/
theorem EndOk.takeMsu (h : EndOk bo bi m out inn) (hlive : m.fails = 0)
    (hinv : Inv 127 out line back) (hinn : Inv 127 inn (u :: lineI) backI) (ha : u.body = some a)
    (hlong : 5 ≤ liOf buf) (hmsu : msuOf buf len = a) (hfsn : fsnOf buf = bi.number u.seq)
    (hfib : fibOf buf = bi.indicator u.phase) (ht : takeMsu c alive m buf len = some m') :
    ∃ out', Extends out out' line back ∧ EndOk bo bi m' out' (inn.hear u) ∧
      (Same m m' ∨ Out m') := by
  obtain ⟨hs, hr⟩ := h.live hlive
  have hbody : u.body.isSome := by simp [ha]
  have hiff := hr.inSequence_iff hinn hbody hfsn hfib
  rcases takeMsu_cases ht with
    ⟨-, hli, -⟩ | ⟨hseq, -, hp⟩ | ⟨-, hnext, rfl⟩ | ⟨hseq, hwhy, rfl⟩
  · omega
  · have hok := h.handOver hlive hinn ha (hiff.1 hseq) hfsn hmsu
    exact hok.processMsu (m := { m with sendBsn := fsnOf buf }) hlive hinv hp
  · have hno : ¬ (u.phase = inn.asked ∧ u.seq = inn.got + 1) := fun hx => hnext (hiff.2 hx).1
    have hask := hr.askAgain hinn
    have hlog := log_hear inn u
    have hgot : (inn.hear u).got = inn.got := by
      rw [hear_of_not_next hbody hno]
      split_ifs <;> rfl
    rw [← hear_of_not_next hbody hno, ← hfib] at hask
    obtain ⟨bib, hb⟩ := askAgain_frame m (fibOf buf)
    rw [hb] at hask ⊢
    refine ⟨out, .refl hinv, ⟨h.accepted, ?_, h.long, fun _ => ⟨⟨hs.lastSent, hs.lastAcked,
      hs.retransSeq, hs.sendFib, hs.slot⟩, hask⟩⟩, .inl ⟨rfl, rfl, rfl, rfl⟩⟩
    rw [hlog.1, hgot]
    exact h.handed
  · have hno : ¬ (u.phase = inn.asked ∧ u.seq = inn.got + 1) := fun hx => hseq (hiff.2 hx)
    have hph : ¬ u.phase = inn.asked := by
      intro hph
      rcases hwhy with hsame | ⟨-, hbib⟩
      · have hwin := hinn.unit_window hph
        have hlt := hwin.2.1 hbody
        rw [hfsn, hr.sendBsn] at hsame
        have := (Base.number_inj (b := bi) (by omega) (by omega)).1 hsame
        omega
      · rw [hfib, hr.sendBib] at hbib
        exact hbib ((fib_eq_iff hinn).2 hph)
    rw [hear_of_not_next hbody hno, if_neg hph]
    exact ⟨out, .refl hinv, h, .inl ⟨rfl, rfl, rfl, rfl⟩⟩

/-- **A frame of the protocol received in service**: it acknowledges the one
direction, and is heard in the other. -/
theorem EndOk.takeUnit (h : EndOk bo bi m out inn) (hlive : m.fails = 0)
    (hinv : Inv 127 out line (k :: back)) (hinn : Inv 127 inn (u :: lineI) backI)
    (hb : Holds buf (suFrame bi bo u k)) (hlong : ∀ a, u.body = some a → 4 ≤ a.sif.length)
    (ht : takeUnit c alive m buf (suFrame bi bo u k).length = some m') :
    ∃ out', Extends out out' line back ∧ EndOk bo bi m' out' (inn.hear u) ∧
      (Same m m' ∨ Out m') := by
  obtain ⟨hbsn, hbib⟩ := hb.bsnOf
  obtain ⟨hfsn, hfib⟩ := hb.fsnOf
  have hle := hinv.ack_window
  have hext : Extends out (out.acknowledge k k.got) line back :=
    extends_acknowledge hinv (Nat.le_refl _) hle.2.1
  have hack := h.takeAck hinv hbsn hbib
  have hsame : Same m (Mtp2.takeAck m buf) := by
    obtain ⟨_, _, he⟩ := takeAck_frame m buf
    rw [he]
    exact ⟨rfl, rfl, rfl, rfl⟩
  have hlive' : (Mtp2.takeAck m buf).fails = 0 := hsame.fails.trans hlive
  rcases takeUnit_cases ht with ⟨hill, -⟩ | ⟨-, hli, rfl⟩ | ⟨-, hli, hmsu⟩
  · exact absurd hill ((h.live hlive).1.not_illegalBsn hinv hbsn)
  · have hu : u.body = none := by
      cases hu : u.body with
      | none => rfl
      | some a =>
        have := (hb.msu hu (hlong a hu)).1
        omega
    have hlog := log_hear inn u
    obtain ⟨hs, hr⟩ := hack.live hlive'
    have hheard := hr.takeFisu hinn hu
    rw [← hfsn, ← hfib] at hheard
    obtain ⟨bib, hf⟩ := takeFisu_frame (Mtp2.takeAck m buf) (fsnOf buf) (fibOf buf)
    rw [hf] at hheard ⊢
    refine ⟨_, hext, ⟨hack.accepted, ?_, hack.long, fun _ => ⟨⟨hs.lastSent, hs.lastAcked,
      hs.retransSeq, hs.sendFib, hs.slot⟩, hheard⟩⟩, .inl hsame⟩
    rw [hlog.1, got_hear_of_none hu]
    exact hack.handed
  · cases hu : u.body with
    | none =>
      have := (hb.fisu hu).1
      omega
    | some a =>
      obtain ⟨hli5, -, hmsuOf⟩ := hb.msu hu (hlong a hu)
      obtain ⟨out', hext', hok, hst⟩ :=
        hack.takeMsu hlive' hext.1 hinn hu hli5 hmsuOf hfsn hfib hmsu
      exact ⟨out', hext.trans hext', hok, hst.imp_left hsame.trans⟩

/-! ## Received frames -/

/-- A link status unit. -/
def IsLssu (f : List Octet) : Prop :=
  3 < f.length ∧ ((f.getD 2 0).toNat &&& 0x3f = 1 ∨ (f.getD 2 0).toNat &&& 0x3f = 2)

theorem Holds.lssu {f : List Octet} (h : Holds buf f) (hf : IsLssu f) :
    liOf buf = 1 ∨ liOf buf = 2 := by
  rw [liOf, h 2 (by have := hf.1; omega)]
  exact hf.2

theorem same_mtp2ErrorMonCountFrame (m : Mtp2State) : Same m (mtp2ErrorMonCountFrame m) := by
  obtain ⟨_, _, h⟩ := mtp2ErrorMonCountFrame_frame m
  rw [h]
  exact ⟨rfl, rfl, rfl, rfl⟩

theorem EndOk.mtp2ErrorMonCountFrame (h : EndOk bo bi m out inn) :
    EndOk bo bi (mtp2ErrorMonCountFrame m) out inn := by
  obtain ⟨_, _, hd⟩ := mtp2ErrorMonCountFrame_frame m
  rw [hd]
  exact h.congr rfl

/-- An end with the history of before that failed. -/
theorem EndOk.of_history (h : EndOk bo bi m out inn) (ha : m'.accepted = m.accepted)
    (hh : m'.handed = m.handed) (hf : m'.fails ≠ 0) : EndOk bo bi m' out inn :=
  ⟨ha.trans h.accepted, hh.trans h.handed, h.long, fun hl => absurd hl hf⟩

/-- **A frame of the protocol at an end in service.** -/
theorem EndOk.goodFrame_su (h : EndOk bo bi m out inn) (hlive : m.fails = 0)
    (hserv : m.state = .inservice) (hinv : Inv 127 out line (k :: back))
    (hinn : Inv 127 inn (u :: lineI) backI) (hb : Holds buf (suFrame bi bo u k))
    (hlong : ∀ a, u.body = some a → 4 ≤ a.sif.length)
    (hg : mtp2GoodFrame c alive m buf (suFrame bi bo u k).length = some m') :
    ∃ out', Extends out out' line back ∧ EndOk bo bi m' out' (inn.hear u) ∧
      (Same m m' ∨ Out m') := by
  obtain ⟨hlen, hli⟩ := hb.unit hlong
  have hcnt := same_mtp2ErrorMonCountFrame m
  rcases mtp2GoodFrame_cases hg with ⟨hskip, -⟩ | ⟨-, -, hlssu | ⟨-, hin | hready | hother⟩⟩
  · rcases hskip with hd | hl
    · simp [hserv] at hd
    · omega
  · exact absurd hlssu.1 hli
  · obtain ⟨out', hext, hok, hst⟩ := h.mtp2ErrorMonCountFrame.takeUnit (hcnt.fails.trans hlive) hinv
      hinn hb hlong hin.2
    exact ⟨out', hext, hok, hst.imp_left hcnt.trans⟩
  · simp [hserv] at hready
  · exact absurd hserv hother.1

/-- A status unit in service is ignored, or fails the link. -/
theorem processLssu_inservice (hserv : m.state = .inservice)
    (h : mtp2ProcessLssu alive m buf = some m') :
    m' = m ∨ (m'.accepted = m.accepted ∧ m'.handed = m.handed ∧ m'.fails = m.fails + 1 ∧
      (m'.state = .down ∨ m'.state = .notAligned)) := by
  unfold mtp2ProcessLssu at h
  dsimp only at h
  simp only [hserv] at h
  split_ifs at h
  · exact .inr (mtp3LinkFail_history h)
  · have hfail := mtp3LinkFail_history h
    exact .inr hfail
  · exact .inr (mtp3LinkFail_history h)
  · exact .inl (Option.some.inj h).symm
  · exact .inr (mtp3LinkFail_history h)

theorem EndOk.goodFrame_lssu {f : List Octet} (h : EndOk bo bi m out inn)
    (hserv : m.state = .inservice) (hb : Holds buf f) (hf : IsLssu f)
    (hg : mtp2GoodFrame c alive m buf f.length = some m') :
    EndOk bo bi m' out inn ∧ (Same m m' ∨ Out m') := by
  have hcnt := same_mtp2ErrorMonCountFrame m
  have hok := h.mtp2ErrorMonCountFrame
  have hli := hb.lssu hf
  rcases mtp2GoodFrame_cases hg with ⟨-, rfl⟩ | ⟨-, -, hlssu | hunit⟩
  · exact ⟨hok, .inl hcnt⟩
  · rcases processLssu_inservice (hcnt.state.trans hserv) hlssu.2 with rfl | ⟨h1, h2, h3, h4⟩
    · exact ⟨hok, .inl hcnt⟩
    · have hne : m'.fails ≠ 0 := by omega
      refine ⟨hok.of_history h1 h2 hne, .inr ⟨hne, ?_⟩⟩
      rcases h4 with h4 | h4 <;> simp [h4]
  · exact absurd hli hunit.1

/-- The history an end keeps, and its not being in service. -/
def KeepsOut (m m' : Mtp2State) : Prop :=
  m'.accepted = m.accepted ∧ m'.handed = m.handed ∧ Out m'

theorem keepsOut_mtp3LinkFail {down : Bool} (h : mtp3LinkFail alive m down = some m') :
    KeepsOut m m' := by
  obtain ⟨h1, h2, h3, h4⟩ := mtp3LinkFail_history h
  refine ⟨h1, h2, by omega, ?_⟩
  rcases h4 with h4 | h4 <;> simp [h4]

theorem keepsOut_abortInitialAlignment : KeepsOut m (abortInitialAlignment m) :=
  ⟨rfl, rfl, by simp [abortInitialAlignment], by simp [abortInitialAlignment]⟩

/-- A status unit at a failed link may align it, not more. -/
theorem keepsOut_mtp2ProcessLssu (hout : Out m) (h : mtp2ProcessLssu alive m buf = some m') :
    KeepsOut m m' := by
  obtain ⟨hf, hr, hs⟩ := hout
  unfold mtp2ProcessLssu at h
  dsimp only at h
  split_ifs at h
  · cases hst : m.state <;> simp only [hst, Option.some.injEq] at h
    · exact ⟨by rw [← h], by rw [← h], by simp [Out, ← h, hf, hst]⟩
    · exact ⟨by rw [← h], by rw [← h], by simp [Out, ← h, hf]⟩
    · exact ⟨by rw [← h], by rw [← h], by simp [Out, ← h, hf, hst]⟩
    · exact ⟨by rw [← h], by rw [← h], by simp [Out, ← h, hf]⟩
    · exact absurd hst hr
    · exact absurd hst hs
  · cases hst : m.state <;> simp only [hst, Option.some.injEq] at h
    · exact ⟨by rw [← h], by rw [← h], by simp [Out, ← h, hf]⟩
    · exact ⟨by rw [← h], by rw [← h], by simp [Out, ← h, hf]⟩
    · exact ⟨by rw [← h], by rw [← h], by simp [Out, ← h, hf]⟩
    · exact ⟨by rw [← h], by rw [← h], by simp [Out, ← h, hf]⟩
    · exact absurd hst hr
    · exact absurd hst hs
  · cases hst : m.state <;> simp only [hst, Option.some.injEq] at h
    · exact ⟨by rw [← h], by rw [← h], by simp [Out, ← h, hf, hst]⟩
    · exact ⟨by rw [← h], by rw [← h], by simp [Out, ← h, hf, hst]⟩
    · exact h ▸ keepsOut_abortInitialAlignment
    · exact h ▸ keepsOut_abortInitialAlignment
    · exact absurd hst hr
    · exact absurd hst hs
  · exact ⟨by rw [Option.some.inj h], by rw [Option.some.inj h], Option.some.inj h ▸ ⟨hf, hr, hs⟩⟩
  · exact keepsOut_mtp3LinkFail h

/-- **Any frame at a failed link** changes nothing of its history and does
not bring it back. -/
theorem keepsOut_mtp2GoodFrame (hout : Out m) (h : mtp2GoodFrame c alive m buf len = some m') :
    KeepsOut m m' := by
  obtain ⟨d, r, hdr⟩ := mtp2ErrorMonCountFrame_frame m
  have hcnt : KeepsOut m (mtp2ErrorMonCountFrame m) := by
    rw [hdr]
    exact ⟨rfl, rfl, hout⟩
  rcases mtp2GoodFrame_cases h with ⟨-, rfl⟩ | ⟨-, -, hlssu | ⟨-, hin | hready | hother⟩⟩
  · exact hcnt
  · obtain ⟨h1, h2, h3⟩ := keepsOut_mtp2ProcessLssu hcnt.2.2 hlssu.2
    exact ⟨h1.trans hcnt.1, h2.trans hcnt.2.1, h3⟩
  · exact absurd hin.1 hout.2.2
  · exact absurd hready.1 hout.2.1
  · obtain ⟨-, -, rfl⟩ := hother
    exact hcnt

/-! ## Sending -/

/-- **A link in service sends a frame of the protocol.** -/
theorem EndOk.pickFrame_su (h : EndOk bo bi m out inn) (hlive : m.fails = 0)
    (hserv : m.state = .inservice ∨ m.state = .ready) (hinv : Inv 127 out line back) :
    ∃ u n, (mtp2PickFrame m).2 = suFrame bo bi u ⟨inn.got, inn.asked⟩ ∧
      Inv 127 { out with sent := n } (line ++ [u]) back ∧
      EndOk bo bi (mtp2PickFrame m).1 { out with sent := n } inn ∧
      Same m (mtp2PickFrame m).1 := by
  obtain ⟨hs, hr⟩ := h.live hlive
  have hacked := hinv.acked_le
  have hgot := hinv.got_le
  have hsent := hinv.sent_le
  have hwin := hinv.window
  rw [mtp2PickFrame_of_service hserv, pickUnit]
  by_cases hall : out.sent = out.log.length
  · -- all messages sent: a fill-in unit
    rw [hs.retransSeq, if_pos hall]
    refine ⟨⟨out.sent, none, out.phase⟩, out.sent, ?_, hinv.fill hall, h, ⟨rfl, rfl, rfl, rfl⟩⟩
    dsimp only
    rw [hr.sendBsn, hr.sendBib, hs.lastSent, hs.sendFib, ← hall]
    rfl
  · -- the next message of the phase
    have hlt : out.sent < out.log.length := by omega
    have ha : out.log[out.sent]? = some out.log[out.sent] := List.getElem?_eq_getElem hlt
    have hslot := hs.slot out.sent (by omega) _ ha
    rw [hs.retransSeq, if_neg hall]
    refine ⟨⟨out.sent + 1, some out.log[out.sent], out.phase⟩,
      out.sent + 1, ?_, hinv.send ha, ?_, ⟨rfl, rfl, rfl, rfl⟩⟩
    · dsimp only
      rw [hslot, hr.sendBsn, hr.sendBib, hs.sendFib, List.take_of_length_le]
      · rfl
      · simp [slotOf]
    · refine ⟨h.accepted, h.handed, h.long, fun _ => ⟨⟨hs.lastSent, hs.lastAcked, ?_, hs.sendFib,
        hs.slot⟩, ⟨hr.sendBsn, hr.sendBib⟩⟩⟩
      have hlast : bo.number (out.sent + 1) = m.retransLastSent ↔ out.sent + 1 = out.log.length := by
        rw [hs.lastSent]
        exact ⟨fun hx => ((Base.number_inj (by omega) (by omega)).1 hx.symm).symm,
          fun hx => by rw [hx]⟩
      simp only [hlast, Base.mtpNextSeq_number]

theorem isLssu_lssuFrame (m : Mtp2State) (status : Octet) : IsLssu (lssuFrame m status) := by
  simp [IsLssu, lssuFrame]

/-- **A link out of service sends a status unit.** -/
theorem pickFrame_lssu (h : m.state ≠ .ready ∧ m.state ≠ .inservice) :
    (mtp2PickFrame m).1 = m ∧ ∃ status, (mtp2PickFrame m).2 = lssuFrame m status := by
  unfold mtp2PickFrame
  cases hs : m.state with
  | down => exact ⟨rfl, 3, rfl⟩
  | notAligned => exact ⟨rfl, 0, rfl⟩
  | aligned => exact ⟨rfl, 2, rfl⟩
  | proving => exact ⟨rfl, 2, rfl⟩
  | ready => exact absurd hs h.1
  | inservice => exact absurd hs h.2

end Mtp2

end Trismedia
