import Trismedia.Jitter.Runs
/-!
# The timestamps that are played

While voice is played, the difference of `next_voice_ts` and `current` is
the timestamp that is expected, and it only grows; in silence the
timestamp the silence began at bounds what was played before. A run is
followed together with the timestamps of the voice frames that `jb_get`
returned. They never decrease as long as no late frame of silence sets the
bound back.
-/


namespace Trismedia

namespace Jitter

/-- The timestamps of the voice frames returned after a call. -/
def playedAfter (ev : JbEvent) (log : List ℤ) : List ℤ :=
  match ev with
  | .get _ _ ret frameout =>
    if ret = .ok ∧ frameout.type = .voice then log ++ [frameout.ts] else log
  | _ => log

/-- A call of `jb_put` or `jb_get` in which voice frames last `interpl`
milliseconds. -/
def VoiceCall (interpl : ℤ) : JbEvent → Prop
  | .put _ _ type ms _ _ _ => type = .voice → ms = interpl
  | .get _ interpl' _ _ => interpl' = interpl
  | _ => False

/-- **Silence rolls back.** While voice is played and the buffer does not
grow, the first frame is one of silence that is due, and its timestamp is
before that of the last voice frame returned. -/
def SilenceRollsBack (jb : Jitterbuf) (log : List ℤ) : JbEvent → Prop
  | .get now _ _ _ =>
    jb.info.silenceBeginTs = 0 ∧
      wantsGrow (jbRetarget jb) ((jbRetarget jb).info.target - jb.info.current) now = some false ∧
      ∃ f, jb.mem jb.frames = some f ∧ f.type = .silence ∧
        f.ts ≤ jb.info.nextVoiceTs - jb.info.current ∧ f.ts ≠ 0 ∧ ∃ t ∈ log.getLast?, f.ts < t
  | _ => False

/-- **One call, and the timestamps played so far.** -/
def PlayedStep (interpl : ℤ) (s : Jitterbuf × List ℤ) (ev : JbEvent) (s' : Jitterbuf × List ℤ) :
    Prop :=
  JbStep s.1 ev s'.1 ∧ VoiceCall interpl ev ∧ s'.2 = playedAfter ev s.2

/-- A call in which silence does not roll back. -/
def SteadyStep (interpl : ℤ) (s : Jitterbuf × List ℤ) (ev : JbEvent) (s' : Jitterbuf × List ℤ) :
    Prop :=
  PlayedStep interpl s ev s' ∧ ¬ SilenceRollsBack s.1 s.2 ev

variable {jb jb' : Jitterbuf} {info info' : JbInfo} {L now diff ts ms : ℤ} {last : Option ℤ}
variable {log : List ℤ} {ret : JbReturnCode} {d : FrameData} {frame : Option JbFrame}
variable {fuel malloc data : ℕ} {type : JbFrameType} {head all : Bool}

/-! ## The counters -/

/-- **What is expected is after what was played.** -/
structure VoiceInfo (L : ℤ) (info : JbInfo) (last : Option ℤ) : Prop where
  talk : info.silenceBeginTs = 0 → info.lastVoiceMs = L ∧
    ∀ t ∈ last, t + L ≤ info.nextVoiceTs - info.current
  silence : info.silenceBeginTs ≠ 0 → ∀ t ∈ last, t ≤ info.silenceBeginTs

/-- The counters of the voice are the same. -/
structure SameVoice (info info' : JbInfo) : Prop where
  silence : info'.silenceBeginTs = info.silenceBeginTs
  next : info'.nextVoiceTs = info.nextVoiceTs
  current : info'.current = info.current
  ms : info'.lastVoiceMs = info.lastVoiceMs

theorem VoiceInfo.congr (h : VoiceInfo L info last) (hs : SameVoice info info') :
    VoiceInfo L info' last := by
  refine ⟨fun h0 => ?_, fun h0 => ?_⟩
  · rw [hs.ms, hs.next, hs.current]
    exact h.talk (hs.silence ▸ h0)
  · rw [hs.silence]
    exact h.silence (hs.silence ▸ h0)

/-- Interpolating leaves the expected timestamp after what was played,
also where it begins a silence. -/
theorem VoiceInfo.contigInterp (hL : 0 ≤ L) (h0 : info.silenceBeginTs = 0)
    (hms : info.lastVoiceMs = L) (hlast : ∀ t ∈ last, t + L ≤ info.nextVoiceTs - info.current) :
    VoiceInfo L (contigInterp info) last := by
  unfold Jitter.contigInterp
  simp only
  split
  · refine ⟨fun _ => ⟨hms, hlast⟩, fun _ t ht => ?_⟩
    have := hlast t ht
    show t ≤ info.nextVoiceTs - info.current
    omega
  · exact ⟨fun _ => ⟨hms, hlast⟩, fun hne => absurd h0 hne⟩

theorem VoiceInfo.grow (h : VoiceInfo L info last) (hL : 0 ≤ L) (h0 : info.silenceBeginTs = 0) :
    VoiceInfo L (growInfo info now L) last := by
  refine VoiceInfo.contigInterp hL h0 rfl fun t ht => ?_
  have := (h.talk h0).2 t ht
  show t + L ≤ info.nextVoiceTs + L - (info.current + L)
  omega

/-- No frame: the buffer shrinks, or a frame was lost. -/
theorem VoiceInfo.talkNone (h : VoiceInfo L info last) (hL : 0 ≤ L) (h0 : info.silenceBeginTs = 0)
    (ht : (info', ret) = talkFrame info diff now L none) : VoiceInfo L info' last := by
  obtain ⟨hms, hlast⟩ := h.talk h0
  simp only [talkFrame, talkVoice] at ht
  split at ht
  · simp only [talkShrink] at ht
    obtain ⟨rfl, rfl⟩ := Prod.mk.inj ht
    refine ⟨fun _ => ⟨hms, fun t htl => ?_⟩, fun hne => absurd h0 hne⟩
    have := hlast t htl
    show t + L ≤ info.nextVoiceTs - (info.current - info.lastVoiceMs)
    omega
  · obtain ⟨rfl, rfl⟩ := Prod.mk.inj ht
    refine VoiceInfo.contigInterp hL h0 rfl fun t htl => ?_
    have := hlast t htl
    show t + L ≤ info.nextVoiceTs + L - info.current
    omega

/-- **A voice frame that is played** is not before the last one, and the
next one is expected after it. -/
theorem VoiceInfo.talkVoice (h : VoiceInfo L info last) (hL : 0 ≤ L)
    (h0 : info.silenceBeginTs = 0) (hv : d.type = .voice) (hms : d.ms = L)
    (hdue : d.ts ≤ info.nextVoiceTs - info.current)
    (ht : (info', ret) = talkFrame info diff now L (some d)) :
    VoiceInfo L info' (if ret = .ok then some d.ts else last) ∧
      (ret = .ok → ∀ t ∈ last, t ≤ d.ts) := by
  obtain ⟨hlms, hlast⟩ := h.talk h0
  simp only [talkFrame] at ht
  rw [if_neg (not_not.2 hv)] at ht
  by_cases hlate : d.ts + info.current < info.nextVoiceTs
  · rw [if_pos hlate] at ht
    unfold talkLate at ht
    by_cases hsoon : d.ts + info.current > info.nextVoiceTs - info.lastVoiceMs
    · -- it came a little too quick
      rw [if_pos hsoon] at ht
      obtain ⟨rfl, rfl⟩ := Prod.mk.inj ht
      rw [if_pos rfl]
      refine ⟨⟨fun _ => ⟨hlms, fun t htl => ?_⟩, fun hne => absurd h0 hne⟩, fun _ t htl => ?_⟩
      · obtain rfl := Option.some.inj htl
        show d.ts + L ≤ d.ts + info.current + d.ms - info.current
        omega
      · have := hlast t htl
        omega
    · rw [if_neg hsoon] at ht
      obtain ⟨rfl, rfl⟩ := Prod.mk.inj ht
      exact ⟨h.congr ⟨rfl, rfl, rfl, rfl⟩, fun hr => by cases hr⟩
  · -- it is the one that was expected
    rw [if_neg hlate, talkVoice_some] at ht
    have htms : (trackMs info d).lastVoiceMs = L := by
      unfold trackMs
      split
      · exact hms
      · exact hlms
    have htrack : (trackMs info d).nextVoiceTs = info.nextVoiceTs ∧
        (trackMs info d).current = info.current ∧
        (trackMs info d).silenceBeginTs = info.silenceBeginTs := by
      unfold trackMs
      split
      · exact ⟨rfl, rfl, rfl⟩
      · exact ⟨rfl, rfl, rfl⟩
    obtain ⟨hnext, hcur, hsil⟩ := htrack
    split at ht
    · obtain ⟨rfl, rfl⟩ := Prod.mk.inj ht
      refine ⟨⟨fun _ => ⟨htms, fun t htl => ?_⟩, fun hne => absurd (hsil.trans h0) hne⟩,
        fun hr => by cases hr⟩
      have := hlast t htl
      show t + L ≤ (trackMs info d).nextVoiceTs - ((trackMs info d).current - d.ms)
      omega
    · obtain ⟨rfl, rfl⟩ := Prod.mk.inj ht
      rw [if_pos rfl]
      refine ⟨⟨fun _ => ⟨htms, fun t htl => ?_⟩, fun hne => absurd (hsil.trans h0) hne⟩,
        fun _ t htl => ?_⟩
      · obtain rfl := Option.some.inj htl
        show d.ts + L ≤ (trackMs info d).nextVoiceTs + d.ms - (trackMs info d).current
        omega
      · have := hlast t htl
        omega

/-- Another frame: only one of silence matters. -/
theorem VoiceInfo.talkOther (h : VoiceInfo L info last) (h0 : info.silenceBeginTs = 0)
    (hv : d.type ≠ .voice)
    (hsil : d.type = .silence → d.ts = 0 ∨ ∀ t ∈ last, t ≤ d.ts)
    (ht : (info', ret) = talkFrame info diff now L (some d)) : VoiceInfo L info' last := by
  simp only [talkFrame] at ht
  rw [if_pos hv] at ht
  unfold Jitter.talkOther at ht
  obtain ⟨rfl, rfl⟩ := Prod.mk.inj ht
  by_cases hs : d.type = .silence
  · simp only [if_pos hs]
    refine ⟨fun _ => h.talk h0, fun hne t htl => ?_⟩
    rcases hsil hs with hz | hle
    · exact absurd hz hne
    · exact hle t htl
  · simp only [if_neg hs]
    exact h.congr ⟨rfl, rfl, rfl, rfl⟩

/-- **In silence** a voice frame before its beginning is dropped. -/
theorem VoiceInfo.silenceFrame (h : VoiceInfo L info last) (h0 : info.silenceBeginTs ≠ 0)
    (hms : d.type = .voice → d.ms = L) (ht : (info', ret) = silenceFrame info (some d)) :
    VoiceInfo L info' (if ret = .ok ∧ d.type = .voice then some d.ts else last) ∧
      (ret = .ok ∧ d.type = .voice → ∀ t ∈ last, t ≤ d.ts) := by
  simp only [Jitter.silenceFrame] at ht
  by_cases hv : d.type = .voice
  · rw [if_neg (not_not.2 hv)] at ht
    by_cases hlate : d.ts < info.silenceBeginTs
    · rw [if_pos hlate] at ht
      obtain ⟨rfl, rfl⟩ := Prod.mk.inj ht
      rw [if_neg (by simp)]
      exact ⟨h.congr ⟨rfl, rfl, rfl, rfl⟩, fun hr => by cases hr.1⟩
    · rw [if_neg hlate] at ht
      obtain ⟨rfl, rfl⟩ := Prod.mk.inj ht
      rw [if_pos ⟨rfl, hv⟩]
      refine ⟨⟨fun _ => ⟨hms hv, fun t htl => ?_⟩, fun hne => absurd rfl hne⟩, fun _ t htl => ?_⟩
      · obtain rfl := Option.some.inj htl
        have := hms hv
        show d.ts + L ≤ d.ts + info.target + d.ms - info.target
        omega
      · have := h.silence h0 t htl
        omega
  · rw [if_pos hv] at ht
    obtain ⟨rfl, rfl⟩ := Prod.mk.inj ht
    rw [if_neg fun hr => hv hr.2]
    exact ⟨h.congr ⟨rfl, rfl, rfl, rfl⟩, fun hr => absurd hr.2 hv⟩

theorem silenceShrink_silence (info : JbInfo) (diff now interpl : ℤ) :
    (silenceShrink info diff now interpl).silenceBeginTs = info.silenceBeginTs := by
  unfold silenceShrink
  split
  · rfl
  · rfl

/-! ## The frames in memory -/

/-- Voice frames last `L` milliseconds. -/
def VoiceFrames (L : ℤ) (mem : ℕ → Option JbFrame) : Prop :=
  ∀ a f, mem a = some f → f.type = .voice → f.ms = L

variable {mem mem' : ℕ → Option JbFrame} {a v p : ℕ}

theorem VoiceFrames.setNext (hf : VoiceFrames L mem) (h : setNext mem a v = some mem') :
    VoiceFrames L mem' := by
  intro b f hb
  obtain ⟨g, hg, hdata⟩ := setNext_data h hb
  rw [← hdata]
  exact hf b g hg

theorem VoiceFrames.setPrev (hf : VoiceFrames L mem) (h : setPrev mem a v = some mem') :
    VoiceFrames L mem' := by
  intro b f hb
  obtain ⟨g, hg, hdata⟩ := setPrev_data h hb
  rw [← hdata]
  exact hf b g hg

theorem VoiceFrames.update (hf : VoiceFrames L mem) {f : JbFrame} (hms : f.type = .voice → f.ms = L) :
    VoiceFrames L (Function.update mem a (some f)) := by
  intro b g hb
  by_cases hba : b = a
  · rw [hba, Function.update_self] at hb
    obtain rfl := Option.some.inj hb
    exact hms
  · rw [Function.update_of_ne hba] at hb
    exact hf b g hb

theorem VoiceFrames.linkBefore (hf : VoiceFrames L mem) (hms : d.type = .voice → d.ms = L)
    (h : linkBefore mem a p d = some mem') : VoiceFrames L mem' := by
  simp only [Jitter.linkBefore, Option.bind_eq_bind, Option.bind_eq_some_iff] at h
  obtain ⟨fp, -, m, hm, h⟩ := h
  exact ((hf.update hms).setPrev hm).setNext h

theorem VoiceFrames.get (hf : VoiceFrames L jb.mem) (h : queueGet jb ts all = some (jb', frame)) :
    VoiceFrames L jb'.mem := by
  unfold queueGet at h
  by_cases h0 : jb.frames = 0
  · rw [if_pos h0] at h
    obtain ⟨rfl, rfl⟩ := Prod.mk.inj (Option.some.inj h)
    exact hf
  · rw [if_neg h0] at h
    simp only [Option.bind_eq_bind, Option.bind_eq_some_iff] at h
    obtain ⟨g, -, h⟩ := h
    by_cases hdue : all = true ∨ ts ≥ g.ts
    · rw [if_pos hdue] at h
      simp only [Option.bind_eq_some_iff, Option.pure_def, Option.some.injEq, Prod.mk.injEq] at h
      obtain ⟨m₁, hm₁, f₁, -, m₂, hm₂, f₂, -, m₃, hm₃, f, -, rfl, rfl⟩ := h
      exact ((hf.setNext hm₁).setPrev hm₂).setNext hm₃
    · rw [if_neg hdue] at h
      obtain ⟨rfl, rfl⟩ := Prod.mk.inj (Option.some.inj h)
      exact hf

theorem VoiceFrames.put (hf : VoiceFrames L jb.mem) (hms : type = .voice → ms = L)
    (h : queuePut fuel jb malloc data type ms ts = some (jb', head)) : VoiceFrames L jb'.mem := by
  unfold queuePut at h
  simp only [Option.bind_eq_bind, Option.bind_eq_some_iff, Prod.exists] at h
  obtain ⟨jb₁, a, hframe, h⟩ := h
  have hmem : jb₁.mem = jb.mem := by
    unfold queueFrame at hframe
    split at hframe
    · simp only [Option.bind_eq_bind, Option.bind_eq_some_iff, Option.pure_def,
        Option.some.injEq, Prod.mk.injEq] at hframe
      obtain ⟨f, -, rfl, -⟩ := hframe
      rfl
    · obtain ⟨rfl, -⟩ := Prod.mk.inj (Option.some.inj hframe)
      rfl
  rw [← hmem] at hf
  split at h
  · obtain ⟨rfl, -⟩ := Prod.mk.inj (Option.some.inj h)
    exact hf
  · split at h
    · obtain ⟨rfl, -⟩ := Prod.mk.inj (Option.some.inj h)
      exact hf.update hms
    · simp only [Option.bind_eq_some_iff] at h
      obtain ⟨hd, -, h⟩ := h
      split at h
      · simp only [Option.bind_eq_some_iff, Option.pure_def, Option.some.injEq,
          Prod.mk.injEq] at h
        obtain ⟨m, hm, rfl, -⟩ := h
        exact hf.linkBefore hms hm
      · simp only [Option.bind_eq_some_iff, Option.pure_def, Option.some.injEq,
          Prod.mk.injEq] at h
        obtain ⟨f, -, q, -, m, hm, rfl, -⟩ := h
        exact hf.linkBefore hms hm

/-! ## Whole runs -/

theorem sameVoice_historyPut (jb : Jitterbuf) (ts now : ℤ) :
    SameVoice jb.info (historyPut jb ts now).1.info := by
  unfold historyPut
  by_cases h0 : ts ≤ 0
  · rw [if_pos h0]
    exact ⟨rfl, rfl, rfl, rfl⟩
  · rw [if_neg h0]
    split
    · split
      · simp only
        split
        · exact ⟨rfl, rfl, rfl, rfl⟩
        · exact ⟨rfl, rfl, rfl, rfl⟩
      · exact ⟨rfl, rfl, rfl, rfl⟩
    · exact ⟨rfl, rfl, rfl, rfl⟩

theorem sameVoice_putHistory {jb₁ : Jitterbuf} {now : ℤ} {ok : Bool}
    (h : putHistory jb type ts now = (jb₁, ok)) : SameVoice jb.info jb₁.info := by
  have hfst : (putHistory jb type ts now).1 = jb₁ := by rw [h]
  rw [← hfst]
  unfold putHistory
  by_cases hv : type = .voice
  · rw [if_pos hv]
    exact sameVoice_historyPut { jb with dropem := false } ts now
  · rw [if_neg hv]
    exact ⟨rfl, rfl, rfl, rfl⟩

theorem QueueOnly.sameVoice (h : QueueOnly jb jb') : SameVoice jb.info jb'.info := by
  rw [h.info]
  exact ⟨rfl, rfl, rfl, rfl⟩

theorem sameVoice_historyGet (jb : Jitterbuf) : SameVoice jb.info (historyGet jb).info := by
  have hcalc : (historyCalcMaxbuf jb).info = jb.info := by
    unfold historyCalcMaxbuf
    split
    · rfl
    · rfl
  unfold historyGet
  split
  · exact ⟨rfl, rfl, rfl, rfl⟩
  · simp only [hcalc]
    exact ⟨rfl, rfl, rfl, rfl⟩

theorem mem_retarget (jb : Jitterbuf) :
    (jbRetarget jb).mem = jb.mem ∧ (jbRetarget jb).frames = jb.frames := by
  have hs := sameQueue_historyGet jb
  exact ⟨hs.mem, hs.frames⟩

/-- **The timestamps played so far are in order**, and what is expected is
after them. -/
structure PlayedOk (L : ℤ) (jb : Jitterbuf) (log : List ℤ) : Prop where
  info : VoiceInfo L jb.info log.getLast?
  frames : VoiceFrames L jb.mem
  sorted : log.Pairwise (· ≤ ·)

/-- A timestamp is added that is not before the last one. -/
theorem sorted_snoc {t : ℤ} (hs : log.Pairwise (· ≤ ·)) (ht : ∀ t' ∈ log.getLast?, t' ≤ t) :
    (log ++ [t]).Pairwise (· ≤ ·) := by
  rw [List.pairwise_append]
  refine ⟨hs, List.pairwise_singleton _ _, fun a ha b hb => ?_⟩
  rw [List.mem_singleton.1 hb]
  rcases List.eq_nil_or_concat' log with rfl | ⟨l, z, rfl⟩
  · cases ha
  · have hz : z ≤ t := ht z (by simp)
    rw [List.pairwise_append] at hs
    rcases List.mem_append.1 ha with ha | ha
    · exact (hs.2.2 a ha z List.mem_cons_self).trans hz
    · rw [List.mem_singleton.1 ha]
      exact hz

/-- Once a frame was taken out of the queue. -/
theorem PlayedOk.take {jb₁ : Jitterbuf} {f before frameout : JbFrame} {interpl : ℤ}
    (h : PlayedOk L jb log) (hf : VoiceFrames L jb₁.mem)
    (hinfo : VoiceInfo L jb'.info (if ret = .ok ∧ f.type = .voice then some f.ts
      else log.getLast?))
    (hle : ret = .ok ∧ f.type = .voice → ∀ t ∈ log.getLast?, t ≤ f.ts)
    (hjb' : jb' = { jb₁ with info := jb'.info })
    (hout : frameout = if ret = .interp then
      { (some f).getD before with ms := jb'.info.lastVoiceMs } else (some f).getD before) :
    PlayedOk L jb' (playedAfter (.get now interpl ret frameout) log) := by
  have hmem : VoiceFrames L jb'.mem := by
    rw [hjb']
    exact hf
  have hdata : frameout.type = f.type ∧ frameout.ts = f.ts := by
    rw [hout]
    split
    · exact ⟨rfl, rfl⟩
    · exact ⟨rfl, rfl⟩
  simp only [playedAfter, hdata.1, hdata.2]
  by_cases hok : ret = .ok ∧ f.type = .voice
  · rw [if_pos hok] at hinfo ⊢
    refine ⟨?_, hmem, sorted_snoc h.sorted (hle hok)⟩
    rw [List.getLast?_concat]
    exact hinfo
  · rw [if_neg hok] at hinfo ⊢
    exact ⟨hinfo, hmem, h.sorted⟩

/-- **A call keeps the order.** -/
theorem PlayedOk.step {ev : JbEvent} (hL : 0 ≤ L) (h : PlayedOk L jb log)
    (hstep : JbStep jb ev jb') (hcall : VoiceCall L ev) (hno : ¬ SilenceRollsBack jb log ev) :
    PlayedOk L jb' (playedAfter ev log) := by
  cases ev with
  | put malloc data type ms ts now ret =>
    obtain ⟨-, fuel, hput⟩ := hstep
    rcases jbPut_cases hput with ⟨-, rfl, -⟩ | ⟨-, jb₁, hp, rfl, -⟩ | ⟨-, jb₁, hd, hp, hq, -⟩
    · exact ⟨h.info.congr ⟨rfl, rfl, rfl, rfl⟩, h.frames, h.sorted⟩
    · have hs := sameVoice_putHistory hp
      have hmem : jb₁.mem = jb.mem := (sameQueue_putHistory hp).mem
      refine ⟨h.info.congr ⟨hs.1, hs.2, hs.3, hs.4⟩, ?_, h.sorted⟩
      show VoiceFrames L jb₁.mem
      rw [hmem]
      exact h.frames
    · have hs := sameVoice_putHistory hp
      have hmem : jb₁.mem = jb.mem := (sameQueue_putHistory hp).mem
      have hinfo : VoiceInfo L { jb₁.info with framesIn := jb₁.info.framesIn + 1 } log.getLast? :=
        h.info.congr ⟨hs.1, hs.2, hs.3, hs.4⟩
      refine ⟨hinfo.congr (queuePut_only hq).sameVoice, VoiceFrames.put ?_ hcall hq, h.sorted⟩
      show VoiceFrames L jb₁.mem
      rw [hmem]
      exact h.frames
  | get now interpl ret frameout =>
    obtain rfl : interpl = L := hcall
    obtain ⟨before, hget⟩ := hstep
    obtain ⟨frame, hget, hout⟩ := jbGet_cases hget
    obtain ⟨j, diff, hj, hdiff, hcases⟩ := jbGetFrame_cases hget
    have hh := sameVoice_historyGet jb
    have hs : SameVoice jb.info j.info := by
      rw [hj]
      exact ⟨hh.1, hh.2, hh.3, hh.4⟩
    have hmem : j.mem = jb.mem := hj ▸ (mem_retarget jb).1
    have hframes : j.frames = jb.frames := hj ▸ (mem_retarget jb).2
    have hjinfo := h.info.congr hs
    have hjmem : VoiceFrames interpl j.mem := hmem ▸ h.frames
    rcases hcases with ⟨hsil, -, rfl, rfl, -⟩ | ⟨hsil, hgrow, jb₁, hq, htalk, hjb'⟩ |
      ⟨hsil, k, jb₁, hk, hq, hsf, hjb'⟩
    · simp only [playedAfter, if_neg (show ¬ (JbReturnCode.interp = .ok ∧ _) by simp)]
      exact ⟨hjinfo.grow hL hsil, hjmem, h.sorted⟩
    · obtain ⟨honly, hframe⟩ := queueGet_cases hq
      have hs₁ := honly.sameVoice
      have hinfo₁ := hjinfo.congr hs₁
      have hsil₁ : jb₁.info.silenceBeginTs = 0 := hs₁.silence.trans hsil
      rcases hframe with ⟨rfl, -⟩ | ⟨f, g, rfl, hg, hdata, hdue⟩
      · have hret := (talkFrame_none htalk).2
        have hno : ¬ (ret = .ok ∧ frameout.type = .voice) := by
          rintro ⟨rfl, -⟩
          rcases hret with hr | hr <;> cases hr
        simp only [playedAfter, if_neg hno]
        refine ⟨hinfo₁.talkNone hL hsil₁ htalk, ?_, h.sorted⟩
        rw [hjb']
        have hmem₁ : VoiceFrames interpl jb₁.mem := hjmem.get hq
        exact hmem₁
      · have hdue' : f.ts ≤ jb₁.info.nextVoiceTs - jb₁.info.current := by
          rw [hs₁.next, hs₁.current]
          simpa using hdue
        have hgv : g.type = .voice → g.ms = interpl := hjmem _ g hg
        rw [show g.type = f.type from congrArg _ hdata,
          show g.ms = f.ms from congrArg _ hdata] at hgv
        by_cases hv : f.type = .voice
        · have htv := hinfo₁.talkVoice hL hsil₁ hv (hgv hv) hdue' htalk
          refine h.take (hjmem.get hq) ?_ (fun hr => htv.2 hr.1) hjb' hout
          simpa [hv] using htv.1
        · have hsilence : f.type = .silence → f.ts = 0 ∨ ∀ t ∈ log.getLast?, t ≤ f.ts := by
            intro hft
            by_contra hcon
            rw [not_or, not_forall] at hcon
            obtain ⟨hne, t, hcon⟩ := hcon
            rw [Classical.not_imp, not_le] at hcon
            have hgd : g.type = .silence ∧ g.ts = f.ts :=
              ⟨(congrArg FrameData.type hdata).trans hft, congrArg FrameData.ts hdata⟩
            refine hno ⟨hs.silence ▸ hsil, ?_, g, ?_, hgd.1, ?_, ?_, t, hcon.1, ?_⟩
            · rw [← hj, ← hs.current, ← hdiff]
              exact hgrow
            · rw [← hmem, ← hframes]
              exact hg
            · rw [hgd.2, ← hs.next, ← hs.current]
              simpa using hdue
            · rw [hgd.2]
              exact hne
            · rw [hgd.2]
              exact hcon.2
          refine h.take (hjmem.get hq) ?_ (fun hr => absurd hr.2 hv) hjb' hout
          rw [if_neg fun hr => hv hr.2]
          exact hinfo₁.talkOther hsil₁ hv hsilence htalk
    · have hsame : k.info.silenceBeginTs = j.info.silenceBeginTs := by
        rw [hk]
        exact silenceShrink_silence _ _ _ _
      have hksil : k.info.silenceBeginTs ≠ 0 := fun h0 => hsil (hsame.symm.trans h0)
      have hkinfo : VoiceInfo interpl k.info log.getLast? := by
        refine ⟨fun h0 => absurd h0 hksil, fun _ => ?_⟩
        rw [hsame]
        exact hjinfo.silence hsil
      have hkmem : VoiceFrames interpl k.mem := by
        rw [hk]
        exact hjmem
      obtain ⟨honly, hframe⟩ := queueGet_cases hq
      have hs₁ := honly.sameVoice
      have hinfo₁ := hkinfo.congr hs₁
      have hsil₁ : jb₁.info.silenceBeginTs ≠ 0 := fun h0 => hksil (hs₁.silence.symm.trans h0)
      have hmem₁ : VoiceFrames interpl jb₁.mem := hkmem.get hq
      rcases hframe with ⟨rfl, -⟩ | ⟨f, g, rfl, hg, hdata, -⟩
      · obtain ⟨hi, rfl⟩ := Prod.mk.inj hsf
        simp only [playedAfter, if_neg (show ¬ (JbReturnCode.noframe = .ok ∧ _) by simp)]
        refine ⟨hi ▸ hinfo₁, ?_, h.sorted⟩
        rw [hjb']
        exact hmem₁
      · have hgv : g.type = .voice → g.ms = interpl := hkmem _ g hg
        rw [show g.type = f.type from congrArg _ hdata,
          show g.ms = f.ms from congrArg _ hdata] at hgv
        have hsv := hinfo₁.silenceFrame hsil₁ hgv hsf
        exact h.take hmem₁ hsv.1 hsv.2 hjb' hout
  | getall ret frameout => exact hcall.elim
  | next t => exact hcall.elim
  | getinfo stats => exact hcall.elim
  | setconf conf => exact hcall.elim

/-- A new buffer with its settings. -/
def jbStart (memory conf : JbConf) : Jitterbuf := jbSetconf (jbNew memory) conf

theorem PlayedOk.start (L : ℤ) (memory conf : JbConf) : PlayedOk L (jbStart memory conf) [] where
  info := by
    refine ⟨fun h => ?_, fun _ t ht => ?_⟩
    · cases h
    · cases ht
  frames a f h := by cases h
  sorted := List.Pairwise.nil

/-- **Voice is played in order** in every run in which silence does not
roll back. -/
theorem played_sorted {memory conf : JbConf} {evs : List JbEvent} {s : Jitterbuf × List ℤ}
    (hL : 0 ≤ L) (hrun : Trace (SteadyStep L) (jbStart memory conf, []) evs s) :
    s.2.Pairwise (· ≤ ·) := by
  have hok : PlayedOk L s.1 s.2 := by
    refine hrun.inv_state (I := fun s => PlayedOk L s.1 s.2) (PlayedOk.start L memory conf) ?_
    rintro t e u ht ⟨⟨hstep, hcall, hlog⟩, hno⟩
    rw [hlog]
    exact ht.step hL hstep hcall hno
  exact hok.sorted

/-! ## Concrete runs -/

/-- A buffer of a second. -/
def playConf : JbConf := ⟨1000, 1000, 0, -1⟩

/-- What a caller's frame holds before the first call. -/
def noFrame : JbFrame := ⟨⟨0, 0, 0, .control⟩, 0, 0⟩

theorem played_put {malloc : ℕ} (hm : malloc ≠ 0 → jb.mem malloc = none)
    (h : jbPut 2 jb malloc data type ms ts now = some (jb', ret))
    (hms : type = .voice → ms = L) :
    PlayedStep L (jb, log) (.put malloc data type ms ts now ret) (jb', log) :=
  ⟨⟨hm, 2, h⟩, hms, rfl⟩

theorem played_get {frameout : JbFrame} (h : jbGet jb noFrame now L = some (jb', ret, frameout)) :
    PlayedStep L (jb, log) (.get now L ret frameout)
      (jb', playedAfter (.get now L ret frameout) log) := ⟨⟨_, h⟩, rfl, rfl⟩

/-- Two voice frames in order. -/
theorem played_sorted_two :
    ∃ evs s, Trace (SteadyStep 20) (jbStart playConf playConf, []) evs s ∧ s.2 = [1000, 1020] ∧
      s.2.Pairwise (· ≤ ·) := by
  have hcalls : ((jbPut 2 (jbStart playConf playConf) 1 7 .voice 20 1000 1000).bind fun r₁ =>
      (jbPut 2 r₁.1 2 8 .voice 20 1020 1020).bind fun r₂ =>
        (jbGet r₂.1 noFrame 1040 20).bind fun r₃ => (jbGet r₃.1 noFrame 1060 20).map fun r₄ =>
          (((r₁.1.mem 2).isNone, r₂.1.info.silenceBeginTs), (r₃.2.1, r₃.2.2.ts, r₃.2.2.type),
            (r₃.1.mem r₃.1.frames).map fun f => f.type, (r₄.2.1, r₄.2.2.ts, r₄.2.2.type))) =
      some ((true, -1), (.ok, 1000, .voice), some .voice, (.ok, 1020, .voice)) := by
    decide +kernel
  simp only [Option.bind_eq_some_iff, Option.map_eq_some_iff, Prod.mk.injEq, Prod.exists]
    at hcalls
  obtain ⟨jb₁, ret₁, h₁, jb₂, ret₂, h₂, jb₃, ret₃, f₃, h₃, jb₄, ret₄, f₄, h₄, ⟨hmem, hsil⟩,
    ⟨rfl, hts₃, hty₃⟩, hhead, ⟨rfl, hts₄, hty₄⟩⟩ := hcalls
  have hlog₃ : playedAfter (.get 1040 20 .ok f₃) [] = [1000] := by simp [playedAfter, hty₃, hts₃]
  have hlog₄ : playedAfter (.get 1060 20 .ok f₄) [1000] = [1000, 1020] := by
    simp [playedAfter, hty₄, hts₄]
  have hstep₁ : SteadyStep 20 (jbStart playConf playConf, [])
      (.put 1 7 .voice 20 1000 1000 ret₁) (jb₁, []) :=
    ⟨played_put (fun _ => rfl) h₁ fun _ => rfl, fun h => h⟩
  have hstep₂ : SteadyStep 20 (jb₁, []) (.put 2 8 .voice 20 1020 1020 ret₂) (jb₂, []) :=
    ⟨played_put (fun _ => Option.isNone_iff_eq_none.1 hmem) h₂ fun _ => rfl, fun h => h⟩
  have hstep₃ : SteadyStep 20 (jb₂, []) (.get 1040 20 .ok f₃) (jb₃, [1000]) := by
    refine ⟨hlog₃ ▸ played_get h₃, fun h => ?_⟩
    have hzero : jb₂.info.silenceBeginTs = 0 := h.1
    rw [hsil] at hzero
    cases hzero
  have hstep₄ : SteadyStep 20 (jb₃, [1000]) (.get 1060 20 .ok f₄) (jb₄, [1000, 1020]) := by
    refine ⟨hlog₄ ▸ played_get h₄, ?_⟩
    rintro ⟨-, -, f, hf, hft, -⟩
    obtain ⟨g, hg, hgt⟩ := hhead
    have hfg : f = g := Option.some.inj (hf.symm.trans hg)
    rw [hfg, hgt] at hft
    cases hft
  have hrun := (((Trace.single hstep₁).snoc hstep₂).snoc hstep₃).snoc hstep₄
  exact ⟨_, _, hrun, rfl, played_sorted (by decide) hrun⟩

/-- **A late frame of silence sets the bound back**: voice of timestamp 600
is played after voice of timestamp 1000, with no resync, in time that never
goes backwards. -/
theorem not_sorted_of_late_silence :
    ∃ evs s f₁ f₂ f₃ r₁ r₂ r₃, evs = [.put 1 7 .voice 20 1000 1000 r₁, .get 1040 20 .ok f₁,
        .put 0 8 .silence 0 500 1041 r₂, .get 1041 20 .ok f₂, .put 0 9 .voice 20 600 1042 r₃,
        .get 1043 20 .ok f₃] ∧
      Trace (PlayedStep 20) (jbStart playConf playConf, []) evs s ∧
      s.1.info.resyncOffset = 0 ∧ s.2 = [1000, 600] ∧ ¬ s.2.Pairwise (· ≤ ·) := by
  have hcalls : ((jbPut 2 (jbStart playConf playConf) 1 7 .voice 20 1000 1000).bind fun r₁ =>
      (jbGet r₁.1 noFrame 1040 20).bind fun r₂ =>
        (jbPut 2 r₂.1 0 8 .silence 0 500 1041).bind fun r₃ =>
          (jbGet r₃.1 noFrame 1041 20).bind fun r₄ =>
            (jbPut 2 r₄.1 0 9 .voice 20 600 1042).bind fun r₅ =>
              (jbGet r₅.1 noFrame 1043 20).map fun r₆ =>
          ((r₂.2.1, r₂.2.2.ts, r₂.2.2.type), (r₄.2.1, r₄.2.2.type),
            (r₆.2.1, r₆.2.2.ts, r₆.2.2.type), r₆.1.info.resyncOffset)) =
      some ((.ok, 1000, .voice), (.ok, .silence), (.ok, 600, .voice), 0) := by
    decide +kernel
  simp only [Option.bind_eq_some_iff, Option.map_eq_some_iff, Prod.mk.injEq, Prod.exists]
    at hcalls
  obtain ⟨jb₁, ret₁, h₁, jb₂, ret₂, f₂, h₂, jb₃, ret₃, h₃, jb₄, ret₄, f₄, h₄, jb₅, ret₅, h₅, jb₆,
    ret₆, f₆, h₆, ⟨rfl, hts₂, hty₂⟩, ⟨rfl, hty₄⟩, ⟨rfl, hts₆, hty₆⟩, hoff⟩ := hcalls
  have hlog₂ : playedAfter (.get 1040 20 .ok f₂) [] = [1000] := by simp [playedAfter, hty₂, hts₂]
  have hlog₄ : playedAfter (.get 1041 20 .ok f₄) [1000] = [1000] := by simp [playedAfter, hty₄]
  have hlog₆ : playedAfter (.get 1043 20 .ok f₆) [1000] = [1000, 600] := by
    simp [playedAfter, hty₆, hts₆]
  have hstep₁ : PlayedStep 20 (jbStart playConf playConf, [])
      (.put 1 7 .voice 20 1000 1000 ret₁) (jb₁, []) := played_put (fun _ => rfl) h₁ fun _ => rfl
  have hstep₂ : PlayedStep 20 (jb₁, []) (.get 1040 20 .ok f₂) (jb₂, [1000]) :=
    hlog₂ ▸ played_get h₂
  have hstep₃ : PlayedStep 20 (jb₂, [1000]) (.put 0 8 .silence 0 500 1041 ret₃) (jb₃, [1000]) :=
    played_put (fun h => absurd rfl h) h₃ fun h => by cases h
  have hstep₄ : PlayedStep 20 (jb₃, [1000]) (.get 1041 20 .ok f₄) (jb₄, [1000]) := by
    have h : PlayedStep 20 (jb₃, [1000]) (.get 1041 20 .ok f₄)
        (jb₄, playedAfter (.get 1041 20 .ok f₄) [1000]) := played_get h₄
    rwa [hlog₄] at h
  have hstep₅ : PlayedStep 20 (jb₄, [1000]) (.put 0 9 .voice 20 600 1042 ret₅) (jb₅, [1000]) :=
    played_put (fun h => absurd rfl h) h₅ fun _ => rfl
  have hstep₆ : PlayedStep 20 (jb₅, [1000]) (.get 1043 20 .ok f₆) (jb₆, [1000, 600]) :=
    hlog₆ ▸ played_get h₆
  have hroll : ¬ ([1000, 600] : List ℤ).Pairwise (· ≤ ·) := by decide
  exact ⟨_, _, f₂, f₄, f₆, ret₁, ret₃, ret₅, rfl,
    .cons hstep₁ (.cons hstep₂ (.cons hstep₃ (.cons hstep₄ (.cons hstep₅ (.single hstep₆))))),
    hoff, rfl, hroll⟩

end Jitter

end Trismedia
