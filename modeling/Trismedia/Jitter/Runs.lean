import Trismedia.Common.Trace
import Trismedia.Jitter.Queue
/-!
# The queue over every run

A run is followed together with a ledger of the frames that were accepted
and returned. In every run the queue is a ring in the order of the
timestamps; what was returned and what is queued is what was accepted, in
the order of arrival for each timestamp, and the counters say so. All this
is but for the frames that `jb_put` accepted when there was no memory.
-/


namespace Trismedia

namespace Jitter

/-- The frames accepted and returned so far, in order, how many of them
`jb_getall` took, and how many were accepted without memory for them. -/
structure Ledger where
  accepted : List FrameData
  returned : List FrameData
  taken : ℕ
  lost : ℕ

/-- The ledger after a call from `jb` to `jb'`. A frame is accepted with
the timestamp it is queued under. -/
def ledgerAfter (jb jb' : Jitterbuf) (ev : JbEvent) (l : Ledger) : Ledger :=
  match ev with
  | .put malloc data type ms ts _ ret =>
    if ret = .ok ∨ ret = .sched then
      { l with
        accepted := l.accepted ++ [⟨data, ts - jb'.info.resyncOffset, ms, type⟩]
        lost := if jb.free = 0 ∧ malloc = 0 then l.lost + 1 else l.lost }
    else
      l
  | .get _ _ ret frameout =>
    if ret = .ok ∨ ret = .drop then
      { l with returned := l.returned ++ [frameout.toFrameData] }
    else
      l
  | .getall ret frameout =>
    if ret = .ok then
      { l with returned := l.returned ++ [frameout.toFrameData], taken := l.taken + 1 }
    else
      l
  | _ => l

/-- **One call with its entry in the ledger.** -/
def LedgerStep (s : Jitterbuf × Ledger) (ev : JbEvent) (s' : Jitterbuf × Ledger) : Prop :=
  JbStep s.1 ev s'.1 ∧ s'.2 = ledgerAfter s.1 s'.1 ev s.2

/-- The frames of a timestamp, in order. -/
def atTs (t : ℤ) (l : List FrameData) : List FrameData := l.filter fun d => d.ts = t

/-- **The queue and the counters are right.** -/
structure QueueGood (jb : Jitterbuf) (l : Ledger) : Prop where
  /-- The queue is a ring sorted by timestamp, `frames_cur` its length;
  and for each timestamp, the frames returned and then those queued are
  the frames accepted. -/
  queue : ∃ q fl, QueueOk jb q fl ∧
    ∀ t, atTs t l.returned ++ atTs t (q.map Prod.snd) = atTs t l.accepted
  balance : jb.info.framesIn = jb.info.framesOut + jb.info.framesCur + l.taken

/-- The same with the frames that were lost. -/
structure Accounts (jb : Jitterbuf) (l : Ledger) (q : List Item) (fl : List ℕ) : Prop where
  queue : QueueOk jb q fl
  fifo : l.lost = 0 → ∀ t, atTs t l.returned ++ atTs t (q.map Prod.snd) = atTs t l.accepted
  balance : jb.info.framesIn = jb.info.framesOut + jb.info.framesCur + l.taken + l.lost

variable {jb jb' : Jitterbuf} {l : Ledger} {q : List Item} {fl : List ℕ} {info info' : JbInfo}
variable {fuel fuel' malloc data : ℕ} {type : JbFrameType} {ms ts now interpl diff : ℤ}
variable {ret : JbReturnCode} {d : FrameData} {frame : Option JbFrame}

/-! ## The loop of `queue_put` with more fuel -/

theorem queueBack_mono {mem : ℕ → Option JbFrame} {frames p r : ℕ} {resyncTs : ℤ}
    (h : queueBack mem frames resyncTs fuel p = some r) (hle : fuel ≤ fuel') :
    queueBack mem frames resyncTs fuel' p = some r := by
  induction fuel generalizing fuel' p with
  | zero => cases h
  | succ fuel ih =>
    obtain ⟨fuel', rfl⟩ : ∃ k, fuel' = k + 1 := ⟨fuel' - 1, by omega⟩
    simp only [queueBack, Option.bind_eq_bind, Option.bind_eq_some_iff] at h ⊢
    obtain ⟨fp, hfp, fq, hfq, h⟩ := h
    refine ⟨fp, hfp, fq, hfq, ?_⟩
    by_cases hc : resyncTs < fq.ts ∧ fp.prev ≠ frames
    · rw [if_pos hc] at h ⊢
      exact ih h (by omega)
    · rw [if_neg hc] at h ⊢
      exact h

theorem queuePut_mono {r : Jitterbuf × Bool}
    (h : queuePut fuel jb malloc data type ms ts = some r) (hle : fuel ≤ fuel') :
    queuePut fuel' jb malloc data type ms ts = some r := by
  simp only [queuePut, Option.bind_eq_bind, Option.bind_eq_some_iff, Prod.exists] at h ⊢
  obtain ⟨jb₁, a, hframe, h⟩ := h
  refine ⟨jb₁, a, hframe, ?_⟩
  by_cases ha : a = 0
  · rw [if_pos ha] at h ⊢
    exact h
  · rw [if_neg ha] at h ⊢
    by_cases hf : jb₁.frames = 0
    · rw [if_pos hf] at h ⊢
      exact h
    · rw [if_neg hf] at h ⊢
      simp only [Option.bind_eq_some_iff] at h ⊢
      obtain ⟨hd, hhd, h⟩ := h
      refine ⟨hd, hhd, ?_⟩
      by_cases hlt : ts - jb.info.resyncOffset < hd.ts
      · rw [if_pos hlt] at h ⊢
        exact h
      · rw [if_neg hlt] at h ⊢
        simp only [Option.bind_eq_some_iff] at h ⊢
        obtain ⟨last, hlast, p, hp, h⟩ := h
        exact ⟨last, hlast, p, queueBack_mono hp hle, h⟩

/-! ## What the calls leave alone -/

/-- The queue and its counters are the same. -/
structure SameQueue (jb jb' : Jitterbuf) : Prop where
  frames : jb'.frames = jb.frames
  free : jb'.free = jb.free
  mem : jb'.mem = jb.mem
  cur : jb'.info.framesCur = jb.info.framesCur
  inn : jb'.info.framesIn = jb.info.framesIn
  out : jb'.info.framesOut = jb.info.framesOut

theorem SameQueue.refl (jb : Jitterbuf) : SameQueue jb jb := ⟨rfl, rfl, rfl, rfl, rfl, rfl⟩

theorem SameQueue.trans {jb'' : Jitterbuf} (h : SameQueue jb jb') (h' : SameQueue jb' jb'') :
    SameQueue jb jb'' :=
  ⟨h'.1.trans h.1, h'.2.trans h.2, h'.3.trans h.3, h'.4.trans h.4, h'.5.trans h.5, h'.6.trans h.6⟩

theorem SameQueue.queueOk (h : SameQueue jb jb') (hq : QueueOk jb q fl) : QueueOk jb' q fl :=
  hq.congr h.frames h.free h.mem h.cur

theorem SameQueue.accounts (h : SameQueue jb jb') (ha : Accounts jb l q fl) :
    Accounts jb' l q fl where
  queue := h.queueOk ha.queue
  fifo := ha.fifo
  balance := by
    rw [h.inn, h.out, h.cur]
    exact ha.balance

theorem sameQueue_historyGet (jb : Jitterbuf) : SameQueue jb (historyGet jb) := by
  have hcalc : SameQueue jb (historyCalcMaxbuf jb) := by
    unfold historyCalcMaxbuf
    by_cases h0 : jb.histPtr = 0
    · rw [if_pos h0]
      exact .refl jb
    · rw [if_neg h0]
      exact ⟨rfl, rfl, rfl, rfl, rfl, rfl⟩
  unfold historyGet
  by_cases hv : jb.histMaxbufValid = true
  · rw [if_pos hv]
    exact ⟨rfl, rfl, rfl, rfl, rfl, rfl⟩
  · rw [if_neg hv]
    exact ⟨hcalc.1, hcalc.2, hcalc.3, hcalc.4, hcalc.5, hcalc.6⟩

theorem sameQueue_historyPut (jb : Jitterbuf) (ts now : ℤ) :
    SameQueue jb (historyPut jb ts now).1 := by
  unfold historyPut
  by_cases h0 : ts ≤ 0
  · rw [if_pos h0]
    exact .refl jb
  · rw [if_neg h0]
    split
    · split
      · simp only
        split
        · exact ⟨rfl, rfl, rfl, rfl, rfl, rfl⟩
        · exact ⟨rfl, rfl, rfl, rfl, rfl, rfl⟩
      · exact ⟨rfl, rfl, rfl, rfl, rfl, rfl⟩
    · exact ⟨rfl, rfl, rfl, rfl, rfl, rfl⟩

theorem sameQueue_putHistory {jb₁ : Jitterbuf} {ok : Bool}
    (h : putHistory jb type ts now = (jb₁, ok)) : SameQueue jb jb₁ := by
  have hfst : (putHistory jb type ts now).1 = jb₁ := by rw [h]
  have hdrop : SameQueue jb { jb with dropem := false } := ⟨rfl, rfl, rfl, rfl, rfl, rfl⟩
  rw [← hfst]
  unfold putHistory
  by_cases hv : type = .voice
  · rw [if_pos hv]
    exact hdrop.trans (sameQueue_historyPut _ ts now)
  · rw [if_neg hv]
    exact hdrop

/-! ## The exits of `_jb_get` -/

/-- The counters of frames in and queued stay, and `n` frames go out. -/
structure Exits (info info' : JbInfo) (n : ℤ) : Prop where
  inn : info'.framesIn = info.framesIn
  cur : info'.framesCur = info.framesCur
  out : info'.framesOut = info.framesOut + n

theorem exits_contigInterp (info : JbInfo) : Exits info (contigInterp info) 0 := by
  unfold contigInterp
  simp only
  split
  · exact ⟨rfl, rfl, (add_zero _).symm⟩
  · exact ⟨rfl, rfl, (add_zero _).symm⟩

theorem exits_grow (info : JbInfo) (now interpl : ℤ) : Exits info (growInfo info now interpl) 0 := by
  have h := exits_contigInterp { info with
    current := info.current + interpl
    nextVoiceTs := info.nextVoiceTs + interpl
    lastVoiceMs := interpl
    lastAdjustment := now }
  exact ⟨h.inn, h.cur, h.out⟩

theorem exits_silenceShrink (info : JbInfo) (diff now interpl : ℤ) :
    Exits info (silenceShrink info diff now interpl) 0 := by
  unfold silenceShrink
  split
  · exact ⟨rfl, rfl, (add_zero _).symm⟩
  · exact ⟨rfl, rfl, (add_zero _).symm⟩

theorem Exits.trans {info'' : JbInfo} {m n : ℤ} (h : Exits info info' m) (h' : Exits info' info'' n) :
    Exits info info'' (m + n) :=
  ⟨h'.inn.trans h.inn, h'.cur.trans h.cur, by rw [h'.out, h.out, add_assoc]⟩

/-- The length of a frame is kept track of. -/
def trackMs (info : JbInfo) (d : FrameData) : JbInfo :=
  if d.ms > 0 then { info with lastVoiceMs := d.ms } else info

theorem exits_trackMs (info : JbInfo) (d : FrameData) : Exits info (trackMs info d) 0 := by
  unfold trackMs
  split
  · exact ⟨rfl, rfl, (add_zero _).symm⟩
  · exact ⟨rfl, rfl, (add_zero _).symm⟩

/-- A voice frame in time is thrown out to shrink, or played. -/
theorem talkVoice_some (info : JbInfo) (diff now interpl : ℤ) (d : FrameData) :
    talkVoice info diff now interpl (some d) =
      if wantsShrink (trackMs info d) diff now (some d) then talkShrink (trackMs info d) now (some d)
      else (decrementLosspct { trackMs info d with
        nextVoiceTs := (trackMs info d).nextVoiceTs + d.ms
        framesOut := (trackMs info d).framesOut + 1
        cntContigInterp := 0 }, .ok) := rfl

/-- **A frame that was taken goes out**, played or dropped. -/
theorem talkFrame_some (h : (info', ret) = talkFrame info diff now interpl (some d)) :
    Exits info info' 1 ∧ (ret = .ok ∨ ret = .drop) := by
  simp only [talkFrame] at h
  split at h
  · unfold talkOther at h
    obtain ⟨rfl, rfl⟩ := Prod.mk.inj h
    split
    · exact ⟨⟨rfl, rfl, rfl⟩, .inl rfl⟩
    · exact ⟨⟨rfl, rfl, rfl⟩, .inl rfl⟩
  · split at h
    · unfold talkLate at h
      split at h
      · obtain ⟨rfl, rfl⟩ := Prod.mk.inj h
        exact ⟨⟨rfl, rfl, rfl⟩, .inl rfl⟩
      · obtain ⟨rfl, rfl⟩ := Prod.mk.inj h
        exact ⟨⟨rfl, rfl, rfl⟩, .inr rfl⟩
    · rw [talkVoice_some] at h
      have htrack := exits_trackMs info d
      split at h
      · obtain ⟨rfl, rfl⟩ := Prod.mk.inj h
        exact ⟨htrack.trans (n := 1) ⟨rfl, rfl, rfl⟩, .inr rfl⟩
      · obtain ⟨rfl, rfl⟩ := Prod.mk.inj h
        exact ⟨htrack.trans (n := 1) ⟨rfl, rfl, rfl⟩, .inl rfl⟩

theorem talkFrame_none (h : (info', ret) = talkFrame info diff now interpl none) :
    Exits info info' 0 ∧ (ret = .interp ∨ ret = .noframe) := by
  simp only [talkFrame, talkVoice] at h
  split at h
  · simp only [talkShrink] at h
    obtain ⟨rfl, rfl⟩ := Prod.mk.inj h
    exact ⟨⟨rfl, rfl, (add_zero _).symm⟩, .inr rfl⟩
  · obtain ⟨rfl, rfl⟩ := Prod.mk.inj h
    have he := exits_contigInterp { incrementLosspct { info with
        framesLost := info.framesLost + 1 } with
      nextVoiceTs := info.nextVoiceTs + interpl
      lastVoiceMs := interpl }
    exact ⟨⟨he.inn, he.cur, he.out⟩, .inl rfl⟩

theorem silenceFrame_some (h : (info', ret) = silenceFrame info (some d)) :
    Exits info info' 1 ∧ (ret = .ok ∨ ret = .drop) := by
  simp only [silenceFrame] at h
  split at h
  · obtain ⟨rfl, rfl⟩ := Prod.mk.inj h
    exact ⟨⟨rfl, rfl, rfl⟩, .inl rfl⟩
  · split at h
    · obtain ⟨rfl, rfl⟩ := Prod.mk.inj h
      exact ⟨⟨rfl, rfl, rfl⟩, .inr rfl⟩
    · obtain ⟨rfl, rfl⟩ := Prod.mk.inj h
      exact ⟨⟨rfl, rfl, rfl⟩, .inl rfl⟩

theorem silenceFrame_none (h : (info', ret) = silenceFrame info none) :
    Exits info info' 0 ∧ ret = .noframe := by
  obtain ⟨rfl, rfl⟩ := Prod.mk.inj h
  exact ⟨⟨rfl, rfl, (add_zero _).symm⟩, rfl⟩

/-! ## Whole runs -/

/-- What was taken out of the queue. -/
theorem queueGet_taken {all : Bool} (hq : QueueOk jb q fl)
    (h : queueGet jb ts all = some (jb', frame)) :
    (frame = none ∧ jb' = jb) ∨ ∃ x q' f, q = x :: q' ∧ frame = some f ∧ f.toFrameData = x.2 ∧
      QueueOk jb' q' (x.1 :: fl) := by
  obtain ⟨hdue, hno⟩ := queueGet_spec hq ts all
  by_cases hd : ∃ x q', q = x :: q' ∧ (all = true ∨ x.2.ts ≤ ts)
  · obtain ⟨x, q', rfl, hx⟩ := hd
    obtain ⟨jb₁, f, hget, hf, hq'⟩ := hdue x q' rfl hx
    rw [h] at hget
    obtain ⟨rfl, rfl⟩ := Prod.mk.inj (Option.some.inj hget)
    exact .inr ⟨x, q', f, rfl, rfl, hf, hq'⟩
  · have hnone := hno fun x q' hq hx => hd ⟨x, q', hq, hx⟩
    rw [h] at hnone
    obtain ⟨rfl, rfl⟩ := Prod.mk.inj (Option.some.inj hnone)
    exact .inl ⟨rfl, rfl⟩

theorem QueueOnly.counts (h : QueueOnly jb jb') :
    jb'.info.framesIn = jb.info.framesIn ∧ jb'.info.framesOut = jb.info.framesOut ∧
      jb'.info.resyncOffset = jb.info.resyncOffset := by
  rw [h.info]
  exact ⟨rfl, rfl, rfl⟩

/-- **The head goes out.** -/
theorem Accounts.pop {x : Item} {taken : ℕ} (ha : Accounts jb l (x :: q) fl)
    (hq : QueueOk jb' q (x.1 :: fl)) (hin : jb'.info.framesIn = jb.info.framesIn)
    (hout : jb'.info.framesOut + taken = jb.info.framesOut + l.taken + 1) :
    Accounts jb' { l with returned := l.returned ++ [x.2], taken := taken } q (x.1 :: fl) where
  queue := hq
  fifo hlost t := by
    rw [← ha.fifo hlost t]
    unfold atTs
    rw [List.filter_append, List.append_assoc, List.map_cons, ← List.filter_append]
    rfl
  balance := by
    have hcur : jb'.info.framesCur + 1 = jb.info.framesCur := by
      rw [hq.cur, ha.queue.cur]
      simp
    have hbal := ha.balance
    simp only
    omega

/-- **A frame goes in.** -/
theorem Accounts.push {x : Item} {q' : List Item} {fl' : List ℕ} (ha : Accounts jb l q fl)
    (hi : Inserted x q q') (hq : QueueOk jb' q' fl')
    (hin : jb'.info.framesIn = jb.info.framesIn + 1)
    (hout : jb'.info.framesOut = jb.info.framesOut) :
    Accounts jb' { l with accepted := l.accepted ++ [x.2] } q' fl' where
  queue := hq
  fifo hlost t := by
    have hold := ha.fifo hlost t
    have hnew := hi.filter t
    unfold atTs at hold ⊢
    rw [hnew, ← List.append_assoc, hold, List.filter_append]
  balance := by
    have hcur : jb'.info.framesCur = jb.info.framesCur + 1 := by
      rw [hq.cur, ha.queue.cur, hi.perm.length_eq]
      simp
    have hbal := ha.balance
    simp only
    omega

/-- A call of `jb_put` that got as far as the queue. -/
theorem Accounts.put {jb₁ : Jitterbuf} {head : Bool} (ha : Accounts jb l q fl)
    (hs : SameQueue jb jb₁) (hm : malloc ≠ 0 → jb.mem malloc = none)
    (hput : queuePut fuel { jb₁ with info := { jb₁.info with framesIn := jb₁.info.framesIn + 1 } }
      malloc data type ms ts = some (jb', head)) :
    ∃ q' fl', Accounts jb' { l with
      accepted := l.accepted ++ [⟨data, ts - jb'.info.resyncOffset, ms, type⟩]
      lost := if jb.free = 0 ∧ malloc = 0 then l.lost + 1 else l.lost } q' fl' := by
  set jb₂ : Jitterbuf := { jb₁ with info := { jb₁.info with framesIn := jb₁.info.framesIn + 1 } }
    with hjb₂
  have hq₂ : QueueOk jb₂ q fl := ha.queue.congr hs.frames hs.free hs.mem hs.cur
  have hcounts := (queuePut_only hput).counts
  have hput' := queuePut_mono hput (le_max_left fuel q.length)
  have hm₂ : malloc ≠ 0 → jb₂.mem malloc = none := by
    rwa [show jb₂.mem = jb.mem from hs.mem]
  obtain ⟨hfail, hok⟩ := queuePut_spec data type ms ts hq₂ hm₂ (le_max_right fuel q.length)
  rw [show jb₂.free = jb.free from hs.free] at hfail hok
  by_cases hnone : jb.free = 0 ∧ malloc = 0
  · -- nothing is queued, but the frame counts as accepted
    have heq := hfail hnone
    rw [hput'] at heq
    have hsame : jb' = jb₂ := (Prod.mk.inj (Option.some.inj heq)).1
    rw [hsame]
    refine ⟨q, fl, ⟨hq₂, fun hlost => ?_, ?_⟩⟩
    · rw [if_pos hnone] at hlost
      cases hlost
    · have hbal := ha.balance
      have hin : jb₂.info.framesIn = jb.info.framesIn + 1 := congrArg (· + 1) hs.inn
      have hout : jb₂.info.framesOut = jb.info.framesOut := hs.out
      have hcur : jb₂.info.framesCur = jb.info.framesCur := hs.cur
      simp only [if_pos hnone]
      push_cast
      omega
  · obtain ⟨jb₃, head', a, q', fl', hput₃, hq', hi⟩ := hok hnone
    rw [hput'] at hput₃
    obtain ⟨rfl, -⟩ := Prod.mk.inj (Option.some.inj hput₃)
    have hin : jb'.info.framesIn = jb.info.framesIn + 1 :=
      hcounts.1.trans (congrArg (· + 1) hs.inn)
    have hout : jb'.info.framesOut = jb.info.framesOut := hcounts.2.1.trans hs.out
    have hpush := ha.push hi hq' hin hout
    rw [hcounts.2.2, if_neg hnone]
    exact ⟨q', fl', hpush⟩

/-- A call of `jb_get` once the queue was asked. -/
theorem Accounts.get {k jb₁ : Jitterbuf} {frameout before : JbFrame} (ha : Accounts jb l q fl)
    (hs : SameQueue jb k) (hq : queueGet k ts false = some (jb₁, frame))
    (hnone : frame = none → Exits jb₁.info jb'.info 0 ∧ ret ≠ .ok ∧ ret ≠ .drop)
    (hsome : ∀ f, frame = some f → Exits jb₁.info jb'.info 1 ∧ (ret = .ok ∨ ret = .drop))
    (hjb' : jb' = { jb₁ with info := jb'.info })
    (hout : frameout = if ret = .interp then
      { frame.getD before with ms := jb'.info.lastVoiceMs } else frame.getD before) :
    ∃ q' fl', Accounts jb' (ledgerAfter jb jb' (.get now interpl ret frameout) l) q' fl' := by
  have hcounts := (queueGet_cases hq).1.counts
  rcases queueGet_taken (hs.queueOk ha.queue) hq with ⟨rfl, rfl⟩ | ⟨x, q', f, rfl, rfl, hf, hq'⟩
  · obtain ⟨he, hok, hdrop⟩ := hnone rfl
    simp only [ledgerAfter, hok, hdrop, or_self, if_false]
    refine ⟨q, fl, SameQueue.accounts ?_ ha⟩
    rw [hjb']
    refine ⟨hs.frames, hs.free, hs.mem, he.cur.trans hs.cur, he.inn.trans hs.inn, ?_⟩
    rw [he.out, add_zero]
    exact hs.out
  · obtain ⟨he, hret⟩ := hsome f rfl
    have hni : ret ≠ .interp := by
      rcases hret with rfl | rfl
      · simp
      · simp
    rw [if_neg hni, Option.getD_some] at hout
    simp only [ledgerAfter, if_pos hret, hout, hf]
    have hq'' : QueueOk jb' q' (x.1 :: fl) := by
      rw [hjb']
      exact hq'.congr rfl rfl rfl he.cur
    refine ⟨q', x.1 :: fl, ha.pop hq'' ?_ ?_⟩
    · rw [he.inn, hcounts.1, hs.inn]
    · rw [he.out, hcounts.2.1, hs.out]
      omega

/-- **A call keeps the accounts.** -/
theorem Accounts.step {ev : JbEvent} (ha : Accounts jb l q fl) (hstep : JbStep jb ev jb') :
    ∃ q' fl', Accounts jb' (ledgerAfter jb jb' ev l) q' fl' := by
  cases ev with
  | put malloc data type ms ts now ret =>
    obtain ⟨hm, fuel, hput⟩ := hstep
    rcases jbPut_cases hput with ⟨-, rfl, rfl⟩ | ⟨-, jb₁, hp, rfl, rfl⟩ | ⟨-, jb₁, hd, hp, hq, hret⟩
    · have hs : SameQueue jb (putFull jb) := ⟨rfl, rfl, rfl, rfl, rfl, rfl⟩
      exact ⟨q, fl, hs.accounts ha⟩
    · have hs := sameQueue_putHistory hp
      exact ⟨q, fl, SameQueue.accounts ⟨hs.1, hs.2, hs.3, hs.4, hs.5, hs.6⟩ ha⟩
    · have hret' : ret = .ok ∨ ret = .sched := by
        cases hd
        · exact .inl hret
        · exact .inr hret
      simp only [ledgerAfter, if_pos hret']
      exact ha.put (sameQueue_putHistory hp) hm hq
  | get now interpl ret frameout =>
    obtain ⟨before, hget⟩ := hstep
    obtain ⟨frame, hget, hout⟩ := jbGet_cases hget
    obtain ⟨j, diff, hj, -, hcases⟩ := jbGetFrame_cases hget
    have hs : SameQueue jb j := by
      have hh := sameQueue_historyGet jb
      rw [hj]
      exact ⟨hh.1, hh.2, hh.3, hh.4, hh.5, hh.6⟩
    rcases hcases with ⟨-, -, rfl, rfl, -⟩ | ⟨-, -, jb₁, hq, htalk, hjb'⟩ |
      ⟨-, k, jb₁, rfl, hq, hsil, hjb'⟩
    · have he := exits_grow j.info now interpl
      refine ⟨q, fl, SameQueue.accounts ⟨hs.1, hs.2, hs.3, he.cur.trans hs.cur,
        he.inn.trans hs.inn, ?_⟩ ha⟩
      rw [he.out, add_zero, hs.out]
    · refine ha.get hs hq (fun hn => ?_) (fun f hf => ?_) hjb' hout
      · subst hn
        obtain ⟨he, hr⟩ := talkFrame_none htalk
        refine ⟨he, ?_⟩
        rcases hr with rfl | rfl
        · simp
        · simp
      · subst hf
        exact talkFrame_some htalk
    · have he := exits_silenceShrink j.info diff now interpl
      have hs' : SameQueue jb { j with info := silenceShrink j.info diff now interpl } := by
        refine ⟨hs.1, hs.2, hs.3, he.cur.trans hs.cur, he.inn.trans hs.inn, ?_⟩
        rw [he.out, add_zero, hs.out]
      refine ha.get hs' hq (fun hn => ?_) (fun f hf => ?_) hjb' hout
      · subst hn
        obtain ⟨he, rfl⟩ := silenceFrame_none hsil
        exact ⟨he, by simp, by simp⟩
      · subst hf
        exact silenceFrame_some hsil
  | getall ret frameout =>
    obtain ⟨before, hget⟩ := hstep
    obtain ⟨frame, hq, hframe⟩ := jbGetall_cases hget
    have hcounts := (queueGet_cases hq).1.counts
    rcases queueGet_taken ha.queue hq with ⟨rfl, rfl⟩ | ⟨x, q', f, rfl, rfl, hf, hq'⟩
    · obtain ⟨-, rfl⟩ := hframe.resolve_right (by simp)
      exact ⟨q, fl, ha⟩
    · obtain ⟨hfo, rfl⟩ := hframe.resolve_left (by simp)
      obtain rfl := Option.some.inj hfo
      simp only [ledgerAfter, if_true, hf]
      refine ⟨q', x.1 :: fl, ha.pop hq' hcounts.1 ?_⟩
      rw [hcounts.2.1]
      push_cast
      omega
  | next t =>
    rcases jbNext_cases hstep with rfl | rfl
    · exact ⟨q, fl, ha⟩
    · exact ⟨q, fl, (sameQueue_historyGet jb).accounts ha⟩
  | getinfo stats =>
    rw [show jb' = historyGet jb from (Prod.mk.inj hstep).1.symm]
    exact ⟨q, fl, (sameQueue_historyGet jb).accounts ha⟩
  | setconf conf =>
    have hs : SameQueue jb (jbSetconf jb conf) := ⟨rfl, rfl, rfl, rfl, rfl, rfl⟩
    rw [show jb' = jbSetconf jb conf from hstep]
    exact ⟨q, fl, hs.accounts ha⟩

/-- Nothing has been put. -/
def Ledger.start : Ledger := ⟨[], [], 0, 0⟩

theorem Accounts.start (conf : JbConf) : Accounts (jbNew conf) Ledger.start [] [] where
  queue := ⟨rfl, trivial, by simp, rfl, by simp, by simp, rfl⟩
  fifo _ t := rfl
  balance := rfl

/-- **The queue and the counters are right exactly where no frame was
accepted without memory for it.** -/
theorem queue_good_iff {conf : JbConf} {evs : List JbEvent} {s : Jitterbuf × Ledger}
    (hrun : Trace LedgerStep (jbNew conf, Ledger.start) evs s) :
    QueueGood s.1 s.2 ↔ s.2.lost = 0 := by
  obtain ⟨q, fl, ha⟩ : ∃ q fl, Accounts s.1 s.2 q fl := by
    refine hrun.inv_state (I := fun s => ∃ q fl, Accounts s.1 s.2 q fl)
      ⟨[], [], Accounts.start conf⟩ ?_
    rintro t e u ⟨q, fl, ha⟩ ⟨hstep, hl⟩
    rw [hl]
    exact ha.step hstep
  have hbal := ha.balance
  constructor
  · intro hgood
    have hgoodbal := hgood.balance
    omega
  · intro h0
    refine ⟨⟨q, fl, ha.queue, ha.fifo h0⟩, ?_⟩
    omega

/-! ## Every call returns -/

theorem QueueOk.full (hq : QueueOk jb q fl) : ∃ b, jbFull jb = some b := by
  unfold jbFull
  rw [hq.queueLast, hq.queueNext]
  by_cases h0 : jb.frames ≠ 0
  · rw [if_pos h0]
    exact ⟨_, rfl⟩
  · rw [if_neg h0]
    exact ⟨_, rfl⟩

theorem QueueOk.get_returns (hq : QueueOk jb q fl) (ts : ℤ) (all : Bool) :
    ∃ r, queueGet jb ts all = some r := by
  obtain ⟨hdue, hno⟩ := queueGet_spec hq ts all
  by_cases hd : ∃ x q', q = x :: q' ∧ (all = true ∨ x.2.ts ≤ ts)
  · obtain ⟨x, q', rfl, hx⟩ := hd
    obtain ⟨jb₁, f, hget, -, -⟩ := hdue x q' rfl hx
    exact ⟨_, hget⟩
  · exact ⟨_, hno fun x q' hq hx => hd ⟨x, q', hq, hx⟩⟩

/-- **`jb_put` returns**: its loop ends, and no pointer leads out of the
memory. -/
theorem put_returns (hq : QueueOk jb q fl) (hm : malloc ≠ 0 → jb.mem malloc = none) :
    ∃ fuel r, jbPut fuel jb malloc data type ms ts now = some r := by
  obtain ⟨full, hfull⟩ := hq.full
  refine ⟨q.length, ?_⟩
  unfold jbPut
  rw [hfull]
  simp only [Option.bind_eq_bind, Option.bind_some]
  cases full with
  | true => exact ⟨_, rfl⟩
  | false =>
    rw [if_neg (by simp)]
    rcases hput : putHistory jb type ts now with ⟨jb₁, ok⟩
    have hsplit : (if type = .voice then historyPut { jb with dropem := false } ts now
        else ({ jb with dropem := false }, true)) = (jb₁, ok) := hput
    rw [hsplit]
    cases ok with
    | false => exact ⟨_, rfl⟩
    | true =>
      have hs := sameQueue_putHistory hput
      have hq₁ : QueueOk { jb₁ with info := { jb₁.info with
          framesIn := jb₁.info.framesIn + 1 } } q fl := hq.congr hs.frames hs.free hs.mem hs.cur
      have hm₁ : malloc ≠ 0 → jb₁.mem malloc = none := by
        rwa [hs.mem]
      obtain ⟨hfail, hok⟩ := queuePut_spec data type ms ts hq₁ hm₁ (Nat.le_refl q.length)
      rw [if_neg (by simp)]
      by_cases hnone : jb₁.free = 0 ∧ malloc = 0
      · rw [hfail hnone]
        exact ⟨_, rfl⟩
      · obtain ⟨jb₃, head, a, q', fl', hput₃, -⟩ := hok hnone
        rw [hput₃]
        exact ⟨_, rfl⟩

theorem get_returns {before : JbFrame} (hq : QueueOk jb q fl) :
    ∃ r, jbGet jb before now interpl = some r := by
  have hs : SameQueue jb (jbRetarget jb) := by
    have hh := sameQueue_historyGet jb
    exact ⟨hh.1, hh.2, hh.3, hh.4, hh.5, hh.6⟩
  have hj := hs.queueOk hq
  have hframe : ∃ r, jbGetFrame jb now interpl = some r := by
    unfold jbGetFrame
    generalize jbRetarget jb = j at hj
    by_cases hsil : j.info.silenceBeginTs = 0
    · obtain ⟨grow, hgrow⟩ : ∃ b, wantsGrow j (j.info.target - j.info.current) now = some b := by
        unfold wantsGrow
        rw [hj.queueLast, hj.queueNext]
        split
        · split
          · exact ⟨_, rfl⟩
          · exact ⟨_, rfl⟩
        · exact ⟨_, rfl⟩
      simp only [if_pos hsil, jbGetTalk, hgrow, Option.bind_eq_bind, Option.bind_some]
      cases grow with
      | true => exact ⟨_, rfl⟩
      | false =>
        obtain ⟨r, hr⟩ := hj.get_returns (j.info.nextVoiceTs - j.info.current) false
        simp only [Bool.false_eq_true, if_false, hr, Option.bind_some]
        exact ⟨_, rfl⟩
    · have he := exits_silenceShrink j.info (j.info.target - j.info.current) now interpl
      have hk : QueueOk { j with
          info := silenceShrink j.info (j.info.target - j.info.current) now interpl } q fl :=
        hj.congr rfl rfl rfl he.cur
      obtain ⟨r, hr⟩ := hk.get_returns (now - (silenceShrink j.info
        (j.info.target - j.info.current) now interpl).current) false
      simp only [if_neg hsil, jbGetSilence, hr, Option.bind_eq_bind, Option.bind_some]
      exact ⟨_, rfl⟩
  obtain ⟨r, hr⟩ := hframe
  unfold jbGet
  simp only [hr, Option.bind_eq_bind, Option.bind_some]
  split
  · exact ⟨_, rfl⟩
  · exact ⟨_, rfl⟩

theorem getall_returns {before : JbFrame} (hq : QueueOk jb q fl) :
    ∃ r, jbGetall jb before = some r := by
  obtain ⟨⟨j, fr⟩, hr⟩ := hq.get_returns 0 true
  unfold jbGetall
  simp only [hr, Option.bind_eq_bind, Option.bind_some]
  cases fr with
  | none => exact ⟨_, rfl⟩
  | some f => exact ⟨_, rfl⟩

/-- A buffer of a second. -/
def ledgerConf : JbConf := ⟨1000, 1000, 0, -1⟩

/-- A new buffer with these settings. -/
def ledgerBuffer : Jitterbuf := jbSetconf (jbNew ledgerConf) ledgerConf

theorem ledger_setconf : LedgerStep (jbNew ledgerConf, Ledger.start) (.setconf ledgerConf)
    (ledgerBuffer, Ledger.start) := ⟨rfl, rfl⟩

/-- Two control frames out of order, and the earlier one taken. -/
theorem queue_good_reordered :
    ∃ evs s, Trace LedgerStep (jbNew ledgerConf, Ledger.start) evs s ∧
      s.2.accepted = [⟨7, 40, 0, .control⟩, ⟨8, 20, 0, .control⟩] ∧
      s.2.returned = [⟨8, 20, 0, .control⟩] ∧ QueueGood s.1 s.2 := by
  have hcalls : ((jbPut 1 ledgerBuffer 1 7 .control 0 40 40).bind fun r₁ =>
      (jbPut 1 r₁.1 2 8 .control 0 20 41).bind fun r₂ =>
        (jbGetall r₂.1 ⟨⟨0, 0, 0, .control⟩, 0, 0⟩).map fun r₃ =>
          ((r₁.2, r₂.2, r₃.2.1), r₃.2.2.toFrameData, (r₁.1.mem 2).isNone,
            r₁.1.info.resyncOffset, r₂.1.info.resyncOffset)) =
      some ((.sched, .sched, .ok), ⟨8, 20, 0, .control⟩, true, 0, 0) := by decide +kernel
  simp only [Option.bind_eq_some_iff, Option.map_eq_some_iff, Prod.mk.injEq, Prod.exists]
    at hcalls
  obtain ⟨jb₁, ret₁, h₁, jb₂, ret₂, h₂, jb₃, ret₃, f, h₃, ⟨rfl, rfl, rfl⟩, hf, hmem, ho₁, ho₂⟩ :=
    hcalls
  have hfirst : LedgerStep (ledgerBuffer, Ledger.start) (.put 1 7 .control 0 40 40 .sched)
      (jb₁, ⟨[⟨7, 40, 0, .control⟩], [], 0, 0⟩) := by
    refine ⟨⟨fun _ => rfl, 1, h₁⟩, ?_⟩
    simp [ledgerAfter, Ledger.start, ho₁]
  have hsecond : LedgerStep (jb₁, ⟨[⟨7, 40, 0, .control⟩], [], 0, 0⟩)
      (.put 2 8 .control 0 20 41 .sched)
      (jb₂, ⟨[⟨7, 40, 0, .control⟩, ⟨8, 20, 0, .control⟩], [], 0, 0⟩) := by
    refine ⟨⟨fun _ => Option.isNone_iff_eq_none.1 hmem, 1, h₂⟩, ?_⟩
    simp [ledgerAfter, ho₂]
  have hthird : LedgerStep (jb₂, ⟨[⟨7, 40, 0, .control⟩, ⟨8, 20, 0, .control⟩], [], 0, 0⟩)
      (.getall .ok f)
      (jb₃, ⟨[⟨7, 40, 0, .control⟩, ⟨8, 20, 0, .control⟩], [⟨8, 20, 0, .control⟩], 1, 0⟩) := by
    refine ⟨⟨_, h₃⟩, ?_⟩
    simp [ledgerAfter, hf]
  have hrun := (((Trace.single ledger_setconf).snoc hfirst).snoc hsecond).snoc hthird
  exact ⟨_, _, hrun, rfl, rfl, (queue_good_iff hrun).2 rfl⟩

/-- **Without memory** `jb_put` answers `JB_OK`, and the frame is neither
queued nor counted. -/
theorem not_queueGood_of_no_memory :
    ∃ evs s, Trace LedgerStep (jbNew ledgerConf, Ledger.start) evs s ∧
      s.2.accepted = [⟨7, 40, 0, .control⟩] ∧ s.2.returned = [] ∧ s.1.frames = 0 ∧
      ¬ QueueGood s.1 s.2 := by
  have hput : (jbPut 1 ledgerBuffer 0 7 .control 0 40 40).map (fun r =>
      (r.2, r.1.frames, r.1.info.resyncOffset, r.1.info.framesIn, r.1.info.framesOut,
        r.1.info.framesCur)) = some (.ok, 0, 0, 1, 0, 0) := by decide +kernel
  simp only [Option.map_eq_some_iff, Prod.mk.injEq, Prod.exists] at hput
  obtain ⟨jb₁, ret₁, h₁, rfl, hframes, ho₁, hin, hout, hcur⟩ := hput
  have hfirst : LedgerStep (ledgerBuffer, Ledger.start) (.put 0 7 .control 0 40 40 .ok)
      (jb₁, ⟨[⟨7, 40, 0, .control⟩], [], 0, 1⟩) := by
    refine ⟨⟨fun hne => absurd rfl hne, 1, h₁⟩, ?_⟩
    have hfree : ledgerBuffer.free = 0 := rfl
    simp [ledgerAfter, Ledger.start, ho₁, hfree]
  refine ⟨_, _, (Trace.single ledger_setconf).snoc hfirst, rfl, rfl, hframes, fun hgood => ?_⟩
  have hbal := hgood.balance
  rw [hin, hout, hcur] at hbal
  simp at hbal

end Jitter

end Trismedia
