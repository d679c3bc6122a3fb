import Trismedia.Common.CInt
import Trismedia.Common.Trace
/-!
# Timestamps of mini frames

A full frame carries the 32 bits of its timestamp, a mini frame the lower 16
of them, or 15 if it is of video. `socket_process` of `channels/chan_iax2.c`
takes the upper bits from the newest timestamp of the call, and
`unwrap_timestamp` corrects them. It does so for full frames too: the first
one of a call, with nothing to compare to, may be corrected to a wrong value.
The arithmetic of `int` wraps around, and the copy of a frame is allocated.
-/


namespace Trismedia

namespace Iax2

open CInt

/-! ## The code -/

/-- `x & upper_mask` -/
def upper (tsShift x : ℕ) : ℕ := x / 2 ^ tsShift * 2 ^ tsShift

/-- `x & lower_mask` -/
def lower (tsShift x : ℕ) : ℕ := x % 2 ^ tsShift

/-- The number of lower bits in the mini frames of a type. -/
def tsShift (video : Bool) : ℕ := if video then 15 else 16

/-- The threshold of a type. -/
def threshold (video : Bool) : ℕ := if video then 25000 else 50000

/-- `unwrap_timestamp`: `fr->ts` after it. -/
def unwrapTimestamp (video : Bool) (last ts : ℕ) : ℕ :=
  let lastUpper := upper (tsShift video) last
  if upper (tsShift video) ts = lastUpper then
    let x := wrapInt ((ts : ℤ) - last)
    if x < -(threshold video : ℤ) then
      (lastUpper + 2 ^ tsShift video) % 2 ^ 32 + lower (tsShift video) ts
    else if x > (threshold video : ℤ) then
      (lastUpper + (2 ^ 32 - 2 ^ tsShift video)) % 2 ^ 32 + lower (tsShift video) ts
    else ts
  else ts

/-- The commands of a full IAX frame whose timestamp comes from this end, and
the others. -/
inductive IaxCommand where
  | ack
  | pong
  | lagrp
  | other
  deriving DecidableEq

/-- A frame received. `full` is a full frame of neither kind named. -/
inductive RxFrame where
  | iax (subclass : IaxCommand) (ts : ℕ)
  | voice (subclass : ℕ) (ts : ℕ)
  | video (subclass : ℕ) (ts : ℕ)
  | full (ts : ℕ)
  | miniVoice (ts : ℕ)
  | miniVideo (ts : ℕ)

/-- What of `struct chan_iax2_pvt` the timestamps depend on. -/
structure Rx where
  last : ℕ
  started : Bool
  voiceformat : ℕ
  videoformat : ℕ

/-- The end of `socket_process`, with `schedule_delivery`: the call, and
`fr->ts` if the frame is passed on. -/
def deliver (p : Rx) (video : Bool) (ts : ℕ) : Rx × Option ℕ :=
  if p.started then
    let ts := unwrapTimestamp video p.last ts
    ({ p with last := if p.last < ts then ts else p.last }, some ts)
  else (p, none)

/-- `socket_process` from where a full frame has passed the check of its
sequence number. -/
def receive (p : Rx) : RxFrame → Rx × Option ℕ
  | .iax subclass ts =>
    ({ p with
       last :=
         if p.last < ts ∧ subclass ≠ .ack ∧ subclass ≠ .pong ∧ subclass ≠ .lagrp then ts
         else p.last }, none)
  | .voice subclass ts => deliver { p with voiceformat := subclass } false ts
  | .video subclass ts =>
    deliver
      { p with
        videoformat := if subclass ≠ p.videoformat then subclass / 2 * 2 else p.videoformat }
      true ts
  | .full ts => deliver p false ts
  | .miniVideo ts =>
    if p.videoformat > 0 then deliver p true (upper 15 p.last + lower 15 ts) else (p, none)
  | .miniVoice ts =>
    if p.voiceformat > 0 then deliver p false (upper 16 p.last + lower 16 ts) else (p, none)

/-! ## Runs -/

/-- The frames of a peer. -/
inductive Kind where
  | iax (subclass : IaxCommand)
  | voice (subclass : ℕ)
  | video (subclass : ℕ)
  | full
  | miniVoice
  | miniVideo

/-- The frame on the line, for its true timestamp. -/
def Kind.frame : Kind → ℕ → RxFrame
  | .iax subclass, ts => .iax subclass ts
  | .voice subclass, ts => .voice subclass ts
  | .video subclass, ts => .video subclass ts
  | .full, ts => .full ts
  | .miniVoice, ts => .miniVoice (ts % 2 ^ 16)
  | .miniVideo, ts => .miniVideo (ts % 2 ^ 15)

/-- The type `unwrap_timestamp` sees. -/
def Kind.isVideo : Kind → Bool
  | .video _ => true
  | .miniVideo => true
  | _ => false

def Kind.isMini : Kind → Bool
  | .miniVoice => true
  | .miniVideo => true
  | _ => false

def Kind.isIax : Kind → Bool
  | .iax _ => true
  | _ => false

/-- **The frames taken**: of an IAX frame those with a timestamp of the peer;
others once the call is started, mini frames once their format is known. -/
def Kind.taken (p : Rx) : Kind → Bool
  | .iax subclass => subclass ≠ .ack ∧ subclass ≠ .pong ∧ subclass ≠ .lagrp
  | .miniVoice => p.voiceformat > 0 ∧ p.started
  | .miniVideo => p.videoformat > 0 ∧ p.started
  | _ => p.started

/-- How far from the newest timestamp a frame may be. -/
def reach (video : Bool) : ℕ := if video then 7768 else 15536

/-- A call with the newest true timestamp of the frames taken, and the true
and the recovered timestamp of the mini frame delivered last. -/
structure Session where
  rx : Rx
  newest : Option ℕ
  delivered : Option (ℕ × ℕ)

/-- What happens: the call is started, or a frame arrives with its true
timestamp. -/
inductive RxEvent where
  | start
  | arrive (k : Kind) (ts : ℕ)

/-- The newest timestamp after a frame. -/
def newer (newest : Option ℕ) (ts : ℕ) : ℕ :=
  match newest with
  | none => ts
  | some m => max m ts

/-- **One event.** The first frame taken is a full frame; frames but those
of IAX are within reach of the newest timestamp. -/
inductive RxStep (x : Session) : RxEvent → Session → Prop
  | start : RxStep x .start { x with rx := { x.rx with started := true } }
  | taken {k : Kind} {ts : ℕ} (hts : ts < 2 ^ 32) (ht : k.taken x.rx = true)
      (hfirst : x.newest = none → k.isMini = false)
      (hnear : k.isIax = false → ∀ m, x.newest = some m →
        ts < m + reach k.isVideo ∧ m < ts + reach k.isVideo) :
      RxStep x (.arrive k ts)
        ⟨(receive x.rx (k.frame ts)).1, some (newer x.newest ts),
          if k.isMini then (receive x.rx (k.frame ts)).2.map fun r => (ts, r) else x.delivered⟩
  | passed {k : Kind} {ts : ℕ} (hts : ts < 2 ^ 32) (ht : k.taken x.rx = false) :
      RxStep x (.arrive k ts) { x with rx := (receive x.rx (k.frame ts)).1 }

/-- **What is wanted**: `last` is the newest timestamp, and a mini frame has
its true one. -/
structure Recovered (x : Session) : Prop where
  newest : ∀ m, x.newest = some m → x.rx.last = m
  delivered : ∀ ts r, x.delivered = some (ts, r) → r = ts

/-- The first full frame is one of IAX, or not one that looks like a jump
forwards from 0. -/
def FirstFits (x : Session) : RxEvent → Prop
  | .start => True
  | .arrive k ts =>
    x.newest = none → k.taken x.rx = true → k.isIax = false →
      ts ≤ threshold k.isVideo ∨ 2 ^ tsShift k.isVideo ≤ ts

/-! ## One frame -/

variable {x y : Session} {e : RxEvent} {k : Kind} {ts m : ℕ} {p : Rx} {video : Bool}

theorem upper_mini : upper (tsShift video) (upper (tsShift video) m + lower (tsShift video) ts) =
    upper (tsShift video) m := by
  cases video <;> simp only [upper, lower, tsShift, reduceIte, Bool.false_eq_true] <;> omega

theorem lower_mini : lower (tsShift video) (upper (tsShift video) m + lower (tsShift video) ts) =
    lower (tsShift video) ts := by
  cases video <;> simp only [upper, lower, tsShift, reduceIte, Bool.false_eq_true] <;> omega

/-- The difference to the reference, for a frame with the same upper bits. -/
theorem wrapInt_mini :
    wrapInt (((upper (tsShift video) m + lower (tsShift video) ts : ℕ) : ℤ) - m) =
      (lower (tsShift video) ts : ℤ) - lower (tsShift video) m := by
  cases video <;> simp only [upper, lower, tsShift, wrapInt, reduceIte, Bool.false_eq_true] <;> omega

/-- **Near the reference** the upper bits of a mini frame are recovered. -/
theorem unwrapTimestamp_mini (hts : ts < 2 ^ 32) (hm : m < 2 ^ 32)
    (hnear : ts < m + reach video ∧ m < ts + reach video) :
    unwrapTimestamp video m (upper (tsShift video) m + lower (tsShift video) ts) = ts := by
  unfold unwrapTimestamp
  dsimp only
  rw [if_pos upper_mini, wrapInt_mini, lower_mini]
  cases video
  · simp only [upper, lower, tsShift, threshold, reach, reduceIte, Bool.false_eq_true] at hnear ⊢
    split_ifs <;> omega
  · simp only [upper, lower, tsShift, threshold, reach, reduceIte] at hnear ⊢
    split_ifs <;> omega

/-- The timestamp of a full frame stays. -/
theorem unwrapTimestamp_full (hnear : ts < m + reach video ∧ m < ts + reach video) :
    unwrapTimestamp video m ts = ts := by
  cases video
  · simp only [unwrapTimestamp, upper, lower, tsShift, threshold, reach, wrapInt, reduceIte,
      Bool.false_eq_true] at hnear ⊢
    split_ifs <;> omega
  · simp only [unwrapTimestamp, upper, lower, tsShift, threshold, reach, wrapInt, reduceIte] at hnear ⊢
    split_ifs <;> omega

/-- **With no reference** a timestamp above the threshold, and below the
first wrap, is pushed back. -/
theorem unwrapTimestamp_zero (hts : ts < 2 ^ 32) :
    unwrapTimestamp video 0 ts = ts ↔ ts ≤ threshold video ∨ 2 ^ tsShift video ≤ ts := by
  cases video
  · simp only [unwrapTimestamp, upper, lower, tsShift, threshold, wrapInt, reduceIte,
      Bool.false_eq_true]
    split_ifs <;> omega
  · simp only [unwrapTimestamp, upper, lower, tsShift, threshold, wrapInt, reduceIte]
    split_ifs <;> omega

/-- The timestamp recovered for a frame. -/
def recovered (p : Rx) (k : Kind) (ts : ℕ) : ℕ :=
  unwrapTimestamp k.isVideo p.last
    (if k.isMini then upper (tsShift k.isVideo) p.last + lower (tsShift k.isVideo) ts else ts)

/-- **A frame taken** that is not one of IAX is passed on with the recovered
timestamp. -/
theorem receive_taken (ts : ℕ) (ht : k.taken p = true) (hiax : k.isIax = false) :
    (receive p (k.frame ts)).2 = some (recovered p k ts) ∧
      (receive p (k.frame ts)).1.last = max p.last (recovered p k ts) := by
  have hmax : ∀ r, (if p.last < r then r else p.last) = max p.last r := fun r => by
    rw [max_def]
    split_ifs <;> omega
  cases k with
  | iax subclass => simp [Kind.isIax] at hiax
  | voice subclass =>
    have hs : p.started = true := by simpa [Kind.taken] using ht
    simp [Kind.frame, receive, deliver, hs, recovered, Kind.isMini, Kind.isVideo, hmax]
  | video subclass =>
    have hs : p.started = true := by simpa [Kind.taken] using ht
    simp [Kind.frame, receive, deliver, hs, recovered, Kind.isMini, Kind.isVideo, hmax]
  | full =>
    have hs : p.started = true := by simpa [Kind.taken] using ht
    simp [Kind.frame, receive, deliver, hs, recovered, Kind.isMini, Kind.isVideo, hmax]
  | miniVoice =>
    have hs : 0 < p.voiceformat ∧ p.started = true := by simpa [Kind.taken] using ht
    simp [Kind.frame, receive, deliver, hs, recovered, Kind.isMini, Kind.isVideo, hmax, tsShift,
      lower]
  | miniVideo =>
    have hs : 0 < p.videoformat ∧ p.started = true := by simpa [Kind.taken] using ht
    simp [Kind.frame, receive, deliver, hs, recovered, Kind.isMini, Kind.isVideo, hmax, tsShift,
      lower]

theorem receive_iax (ts : ℕ) (ht : k.taken p = true) (hiax : k.isIax = true) :
    (receive p (k.frame ts)).2 = none ∧ (receive p (k.frame ts)).1.last = max p.last ts := by
  cases k with
  | iax subclass =>
    have hs : subclass ≠ .ack ∧ subclass ≠ .pong ∧ subclass ≠ .lagrp := by
      simpa [Kind.taken] using ht
    refine ⟨rfl, ?_⟩
    simp only [Kind.frame, receive]
    by_cases hlt : p.last < ts
    · rw [if_pos ⟨hlt, hs⟩, max_eq_right (by omega)]
    · rw [if_neg fun h => hlt h.1, max_eq_left (by omega)]
  | _ => simp [Kind.isIax] at hiax

/-- A frame passed over leaves the reference. -/
theorem receive_passed (ht : k.taken p = false) : (receive p (k.frame ts)).1.last = p.last := by
  cases k with
  | iax subclass =>
    have hs : ¬ (subclass ≠ .ack ∧ subclass ≠ .pong ∧ subclass ≠ .lagrp) := by
      simpa [Kind.taken] using ht
    simp only [Kind.frame, receive]
    rw [if_neg fun h => hs h.2]
  | voice subclass =>
    have hs : p.started = false := by simpa [Kind.taken] using ht
    simp [Kind.frame, receive, deliver, hs]
  | video subclass =>
    have hs : p.started = false := by simpa [Kind.taken] using ht
    simp [Kind.frame, receive, deliver, hs]
  | full =>
    have hs : p.started = false := by simpa [Kind.taken] using ht
    simp [Kind.frame, receive, deliver, hs]
  | miniVoice =>
    simp only [Kind.frame, receive, deliver]
    by_cases hf : p.voiceformat > 0
    · have hs : p.started = false := by simpa [Kind.taken, hf] using ht
      simp [hs]
    · rw [if_neg hf]
  | miniVideo =>
    simp only [Kind.frame, receive, deliver]
    by_cases hf : p.videoformat > 0
    · have hs : p.started = false := by simpa [Kind.taken, hf] using ht
      simp [hs]
    · rw [if_neg hf]

/-! ## Every run -/

/-- What any run keeps: before the first frame taken the reference is 0. -/
structure Begins (x : Session) : Prop where
  newest : ∀ m, x.newest = some m → m < 2 ^ 32
  none : x.newest = none → x.rx.last = 0 ∧ x.delivered = none

theorem newer_lt (hb : Begins x) (hts : ts < 2 ^ 32) : newer x.newest ts < 2 ^ 32 := by
  unfold newer
  cases h : x.newest with
  | none => exact hts
  | some m => exact max_lt (hb.newest m h) hts

theorem Begins.step (hb : Begins x) (h : RxStep x e y) : Begins y := by
  cases h with
  | start => exact ⟨hb.newest, hb.none⟩
  | @taken k ts hts =>
    refine ⟨fun m hm => ?_, fun hn => absurd hn (Option.some_ne_none _)⟩
    rw [← Option.some.inj hm]
    exact newer_lt hb hts
  | @passed k ts hts ht =>
    refine ⟨hb.newest, fun hn => ?_⟩
    rw [receive_passed ht]
    exact hb.none hn

/-- **One event keeps what is wanted** exactly if it fits. -/
theorem recovered_step (hb : Begins x) (hr : Recovered x) (h : RxStep x e y) :
    Recovered y ↔ FirstFits x e := by
  cases h with
  | start => exact ⟨fun _ => trivial, fun _ => ⟨hr.newest, hr.delivered⟩⟩
  | @passed k ts hts ht =>
    refine ⟨fun _ _ hk => ?_, fun _ => ⟨fun m hm => ?_, hr.delivered⟩⟩
    · rw [ht] at hk
      exact absurd hk Bool.false_ne_true
    · rw [receive_passed ht]
      exact hr.newest m hm
  | @taken k ts hts ht hfirst hnear =>
    have hnewer : x.newest = none ∨ ∃ m, x.newest = some m ∧ x.rx.last = m := by
      cases hn : x.newest with
      | none => exact .inl rfl
      | some m => exact .inr ⟨m, rfl, hr.newest m hn⟩
    rcases hnewer with hn | ⟨m, hn, hlast⟩
    · -- the first frame taken
      obtain ⟨hzero, hnone⟩ := hb.none hn
      have hmini := hfirst hn
      have hnew : newer x.newest ts = ts := by rw [hn]; rfl
      by_cases hiax : k.isIax = true
      · have hlast := (receive_iax ts ht hiax).2
        rw [hzero, Nat.zero_max] at hlast
        refine ⟨fun _ _ _ hk => absurd (hk ▸ hiax) (by simp), fun _ => ⟨fun m hm => ?_, ?_⟩⟩
        · rw [hlast, ← Option.some.inj hm, hnew]
        · simp [hmini, hnone]
      · rw [Bool.not_eq_true] at hiax
        have hlast := (receive_taken ts ht hiax).2
        rw [hzero, Nat.zero_max, recovered, hmini, hzero] at hlast
        have hiff : unwrapTimestamp k.isVideo 0 ts = ts ↔ _ := unwrapTimestamp_zero hts
        refine ⟨fun hy _ _ _ => hiff.1 ?_, fun hfit => ⟨fun m hm => ?_, ?_⟩⟩
        · have hy' := hy.newest _ rfl
          rw [hlast, hnew] at hy'
          simpa using hy'
        · have hts' := hiff.2 (hfit hn ht hiax)
          rw [hlast, ← Option.some.inj hm, hnew]
          simpa using hts'
        · simp [hmini, hnone]
    · -- near the reference
      have hm := hb.newest m hn
      have hnew : newer x.newest ts = max m ts := by rw [hn]; rfl
      refine ⟨fun _ hx => absurd (hn.symm.trans hx) (by simp), fun _ => ?_⟩
      by_cases hiax : k.isIax = true
      · obtain ⟨hnone, hmax⟩ := receive_iax ts ht hiax
        refine ⟨fun m' hm' => ?_, fun t r htr => ?_⟩
        · rw [hmax, ← Option.some.inj hm', hnew, hlast]
        · have hmini : k.isMini = false := by
            cases k <;> simp [Kind.isIax, Kind.isMini] at hiax ⊢
          simp only [hmini] at htr
          exact hr.delivered t r htr
      · rw [Bool.not_eq_true] at hiax
        obtain ⟨hsome, hmax⟩ := receive_taken ts ht hiax
        have hclose := hnear hiax m hn
        have hrec : recovered x.rx k ts = ts := by
          rw [recovered, hlast]
          split_ifs
          · exact unwrapTimestamp_mini hts hm hclose
          · exact unwrapTimestamp_full hclose
        rw [hrec] at hsome hmax
        refine ⟨fun m' hm' => ?_, fun t r htr => ?_⟩
        · rw [hmax, ← Option.some.inj hm', hnew, hlast]
        · rw [hsome] at htr
          split_ifs at htr
          · obtain ⟨rfl, rfl⟩ := Prod.mk.inj (Option.some.inj htr)
            rfl
          · exact hr.delivered t r htr

/-- A call to which nothing was sent yet, or one just transferred. -/
def Session.fresh (started : Bool) (voiceformat videoformat : ℕ) : Session :=
  ⟨⟨0, started, voiceformat, videoformat⟩, none, none⟩

/-- **Exactly the runs whose first frame fits** recover the timestamp of every
mini frame and keep the newest one. -/
theorem timestamps_iff (started : Bool) (voiceformat videoformat : ℕ) (evs : List RxEvent)
    (y : Session) :
    Trace (fun x e y => RxStep x e y ∧ Recovered y) (.fresh started voiceformat videoformat) evs y ↔
      Trace (fun x e y => RxStep x e y ∧ FirstFits x e) (.fresh started voiceformat videoformat)
        evs y :=
  Trace.kept_iff_met (fun _ _ _ hb h => hb.step h) (fun _ _ _ hb hr h => recovered_step hb hr h)
    ⟨fun _ h => absurd h (by simp [Session.fresh]), fun _ => ⟨rfl, rfl⟩⟩
    ⟨fun _ h => absurd h (by simp [Session.fresh]), fun _ _ h => absurd h (by simp [Session.fresh])⟩

/-- A voice frame of timestamp 60000, the first of its call. -/
theorem not_timestamps :
    ¬ ∀ (started : Bool) (voiceformat videoformat : ℕ) (evs : List RxEvent) (y : Session),
      Trace RxStep (.fresh started voiceformat videoformat) evs y → Recovered y := by
  intro hall
  let x : Session := .fresh true 0 0
  have hstep : RxStep x (.arrive (.voice 4) 60000) _ :=
    .taken (by decide) rfl (fun _ => rfl) fun _ m hm => absurd hm (by simp [x, Session.fresh])
  have hlast := (hall true 0 0 _ _ (Trace.nil.snoc hstep)).newest 60000 rfl
  exact absurd hlast (by decide)

end Iax2

end Trismedia
