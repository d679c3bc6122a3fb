import Mathlib.Order.OrderDual
import Trismedia.Common.Smallest
import Trismedia.Common.Trace
import Trismedia.Jitter.Model
/-!
# The history of delays

A run of the buffer is followed together with the list of the delays it
recorded since the last resync. The ring holds the last of them, and while
the two buffers are marked valid each knows the extreme delays among them,
as far as these lie within `JB_LONGMIN` and `JB_LONGMAX`. That is what
`history_get` reads, so it is right where enough of the delays do.
-/


namespace Trismedia

namespace Jitter

open Smallest

/-! ## What is recorded -/

/-- The delay of a frame is a drastic change. -/
def delayDiscont (info : JbInfo) (delay : ℤ) : Prop :=
  info.conf.resyncThreshold ≠ -1 ∧
    CInt.cAbs (CInt.wrapInt (delay - info.lastDelay)) >
      2 * info.jitter + info.conf.resyncThreshold

instance (info : JbInfo) (delay : ℤ) : Decidable (delayDiscont info delay) :=
  inferInstanceAs (Decidable (_ ∧ _))

/-- The delays recorded once a voice frame has come. A resync starts
over. -/
def recordDelay (info : JbInfo) (ts now : ℤ) (log : List ℤ) : List ℤ :=
  let delay := now - (ts - info.resyncOffset)
  if ts ≤ 0 then
    log
  else if delayDiscont info delay then
    if info.cntDelayDiscont + 1 > 3 then [0] else log
  else
    log ++ [delay]

/-- The delays recorded after a call. -/
def logAfter (jb : Jitterbuf) (ev : JbEvent) (log : List ℤ) : List ℤ :=
  match ev with
  | .put _ _ type _ ts now _ =>
    if jbFull jb = some false ∧ type = .voice then recordDelay jb.info ts now log else log
  | _ => log

/-- **One call, and the delays recorded so far.** -/
def LoggedStep (s : Jitterbuf × List ℤ) (ev : JbEvent) (s' : Jitterbuf × List ℤ) : Prop :=
  JbStep s.1 ev s'.1 ∧ s'.2 = logAfter s.1 ev s.2

/-- The last delays, as many as the history holds. -/
def lastDelays (log : List ℤ) : List ℤ := log.drop (log.length - jbHistorySz)

/-- The element of rank `k` from above. -/
def largest (l : List ℤ) (k : ℕ) : Option ℤ := smallest (α := ℤᵒᵈ) l k

/-- The rank that is looked for among `n` delays. -/
def rank (n : ℕ) : ℕ := min jbHistorySz n * jbHistoryDroppct / 100

/-- **`history_get` is right**: what it computes is what the last delays
give from scratch. -/
def HistoryRight (jb : Jitterbuf) (log : List ℤ) : Prop :=
  ∃ lo hi, smallest (lastDelays log) (rank log.length) = some lo ∧
    largest (lastDelays log) (rank log.length) = some hi ∧
    (historyGet jb).info.min = lo ∧ (historyGet jb).info.jitter = hi - lo

/-- More than `rank` of the last delays are within the limits of the
buffers, on either side. -/
def EnoughInside (log : List ℤ) : Prop :=
  rank log.length < (lastDelays log).countP (· ≤ jbLongmax) ∧
    rank log.length < (lastDelays log).countP (jbLongmin ≤ ·)

instance (log : List ℤ) : Decidable (EnoughInside log) := inferInstanceAs (Decidable (_ ∧ _))

/-! ## The buffers -/

variable {jb jb' : Jitterbuf} {log l ts mn mx : List ℤ} {delay t x : ℤ} {n k : ℕ}

/-- What the two buffers know of a list of delays. -/
structure BufsKeep (mx mn l : List ℤ) : Prop where
  max : Keeps (α := ℤᵒᵈ) jbLongmin jbHistoryMaxbufSz mx l
  min : Keeps jbLongmax jbHistoryMaxbufSz mn l

theorem insertMinbuf_eq (toins : ℤ) (buf : List ℤ) : insertMinbuf toins buf = keepSmall toins buf := by
  induction buf with
  | nil => rfl
  | cons b bs ih => rw [insertMinbuf, keepSmall, ih]

theorem insertMaxbuf_eq (toins : ℤ) (buf : List ℤ) :
    insertMaxbuf toins buf = keepSmall (α := ℤᵒᵈ) toins buf := by
  induction buf with
  | nil => rfl
  | cons b bs ih =>
    rw [insertMaxbuf, ih]
    rfl

/-- The last entry of a buffer bounds the others. -/
theorem le_getLast {buf : List ℤ} (h : buf.Pairwise (· ≤ ·)) :
    ∀ b ∈ buf, b ≤ buf.getLast?.getD 0 := by
  rcases List.eq_nil_or_concat' buf with rfl | ⟨bs, m, rfl⟩
  · simp
  · intro b hb
    rw [List.getLast?_concat, Option.getD_some]
    rw [List.pairwise_append] at h
    rcases List.mem_append.1 hb with hb | hb
    · exact h.2.2 b hb m List.mem_cons_self
    · exact (List.mem_singleton.1 hb).le

theorem getLast_le {buf : List ℤ} (h : buf.Pairwise (· ≥ ·)) :
    ∀ b ∈ buf, buf.getLast?.getD 0 ≤ b := by
  rcases List.eq_nil_or_concat' buf with rfl | ⟨bs, m, rfl⟩
  · simp
  · intro b hb
    rw [List.getLast?_concat, Option.getD_some]
    rw [List.pairwise_append] at h
    rcases List.mem_append.1 hb with hb | hb
    · exact h.2.2 b hb m List.mem_cons_self
    · exact (List.mem_singleton.1 hb).ge

/-- **A round of the loop.** A delay that is not looked at further fits
nowhere. -/
theorem BufsKeep.insert (h : BufsKeep mx mn l) (t : ℤ) :
    BufsKeep (historyInsert (mx, mn) t).1 (historyInsert (mx, mn) t).2 (t :: l) := by
  constructor
  · unfold historyInsert
    by_cases ht : t > mx.getLast?.getD 0
    · rw [if_pos ht, insertMaxbuf_eq]
      exact h.max.insert
    · rw [if_neg ht]
      refine h.max.skip fun b hb => ?_
      exact (not_lt.1 ht).trans (getLast_le h.max.sorted b hb)
  · unfold historyInsert
    by_cases ht : t < mn.getLast?.getD 0
    · rw [if_pos ht, insertMinbuf_eq]
      exact h.min.insert
    · rw [if_neg ht]
      exact h.min.skip fun b hb => (le_getLast h.min.sorted b hb).trans (not_lt.1 ht)

theorem BufsKeep.perm {l' : List ℤ} (h : BufsKeep mx mn l) (hp : l.Perm l') : BufsKeep mx mn l' :=
  ⟨h.max.perm hp, h.min.perm hp⟩

theorem BufsKeep.foldl (h : BufsKeep mx mn l) (ts : List ℤ) :
    BufsKeep (ts.foldl historyInsert (mx, mn)).1 (ts.foldl historyInsert (mx, mn)).2 (ts ++ l) := by
  induction ts generalizing mx mn l with
  | nil => exact h
  | cons t ts ih => exact (ih (h.insert t)).perm List.perm_middle

theorem BufsKeep.replicate : BufsKeep (List.replicate jbHistoryMaxbufSz jbLongmin)
    (List.replicate jbHistoryMaxbufSz jbLongmax) [] :=
  ⟨Keeps.replicate, Keeps.replicate⟩

/-! ## The ring and the buffers -/

/-- **The history holds the last delays**, and valid buffers know them. -/
structure HistoryOk (jb : Jitterbuf) (log : List ℤ) : Prop where
  ptr : jb.histPtr = log.length
  ring : ∀ i, ∀ h : i < log.length, log.length ≤ i + jbHistorySz →
    jb.history (i % jbHistorySz) = log[i]
  bufs : jb.histMaxbufValid = true → BufsKeep jb.histMaxbuf jb.histMinbuf (lastDelays log)

/-- The fields `history_get` looks at are the same. -/
structure SameHistory (jb jb' : Jitterbuf) : Prop where
  history : jb'.history = jb.history
  histPtr : jb'.histPtr = jb.histPtr
  histMaxbuf : jb'.histMaxbuf = jb.histMaxbuf
  histMinbuf : jb'.histMinbuf = jb.histMinbuf
  valid : jb'.histMaxbufValid = jb.histMaxbufValid

theorem SameHistory.info (jb : Jitterbuf) (info : JbInfo) :
    SameHistory jb { jb with info := info } := ⟨rfl, rfl, rfl, rfl, rfl⟩

theorem HistoryOk.congr (h : HistoryOk jb log) (hs : SameHistory jb jb') : HistoryOk jb' log := by
  refine ⟨hs.histPtr.trans h.ptr, fun i hi hw => ?_, fun hv => ?_⟩
  · rw [hs.history]
    exact h.ring i hi hw
  · rw [hs.histMaxbuf, hs.histMinbuf]
    exact h.bufs (hs.valid ▸ hv)

theorem HistoryOk.reset (conf : JbConf) : HistoryOk (jbReset conf) [] where
  ptr := rfl
  ring i h := absurd h (Nat.not_lt_zero i)
  bufs h := by cases h

/-- The ring read out from its oldest entry. -/
theorem HistoryOk.entries (h : HistoryOk jb log) : historyEntries jb = lastDelays log := by
  have hi : (if jb.histPtr > jbHistorySz then jb.histPtr - jbHistorySz else 0) =
      log.length - jbHistorySz := by
    rw [h.ptr]
    by_cases hlt : log.length > jbHistorySz
    · rw [if_pos hlt]
    · rw [if_neg hlt]
      omega
  unfold historyEntries lastDelays
  rw [hi, h.ptr]
  refine List.ext_getElem (by simp) fun j hj hj' => ?_
  rw [List.getElem_map, List.getElem_range', List.getElem_drop, Nat.one_mul]
  rw [List.length_drop] at hj'
  exact h.ring _ (by omega) (by omega)

theorem HistoryOk.calc (h : HistoryOk jb log) : HistoryOk (historyCalcMaxbuf jb) log := by
  unfold historyCalcMaxbuf
  by_cases h0 : jb.histPtr = 0
  · rw [if_pos h0]
    exact h
  · rw [if_neg h0]
    refine ⟨h.ptr, h.ring, fun _ => ?_⟩
    have hentries : (historyEntries jb ++ []).Perm (lastDelays log) := by
      rw [List.append_nil, h.entries]
    exact (BufsKeep.replicate.foldl (historyEntries jb)).perm hentries

/-- The history as `history_get` reads it. -/
def freshHistory (jb : Jitterbuf) : Jitterbuf :=
  if jb.histMaxbufValid then jb else historyCalcMaxbuf jb

theorem sameHistory_get (jb : Jitterbuf) : SameHistory (freshHistory jb) (historyGet jb) :=
  SameHistory.info (freshHistory jb) _

theorem HistoryOk.fresh (h : HistoryOk jb log) : HistoryOk (freshHistory jb) log := by
  unfold freshHistory
  by_cases hv : jb.histMaxbufValid = true
  · rw [if_pos hv]
    exact h
  · rw [if_neg hv]
    exact h.calc

/-- **`history_get` keeps the history.** -/
theorem HistoryOk.get (h : HistoryOk jb log) : HistoryOk (historyGet jb) log :=
  h.fresh.congr (sameHistory_get jb)

/-! ## A delay is recorded -/

/-- The last delays once one more came: the oldest falls out of a full
history. -/
theorem lastDelays_snoc (log : List ℤ) (delay : ℤ) :
    lastDelays (log ++ [delay]) =
      (if log.length < jbHistorySz then log else (lastDelays log).tail) ++ [delay] := by
  have hpos : 0 < jbHistorySz := by decide
  unfold lastDelays
  rw [List.length_append, List.length_singleton]
  by_cases hlt : log.length < jbHistorySz
  · rw [if_pos hlt, Nat.sub_eq_zero_of_le (by omega), List.drop_zero]
  · rw [if_neg hlt, List.tail_drop, List.drop_append_of_le_length (by omega),
      show log.length + 1 - jbHistorySz = log.length - jbHistorySz + 1 by omega]

/-- The oldest of the last delays stands where the next one will go. -/
theorem HistoryOk.kicked (h : HistoryOk jb log) (hfull : jbHistorySz ≤ log.length) :
    lastDelays log = jb.history (jb.histPtr % jbHistorySz) :: (lastDelays log).tail := by
  have hpos : 0 < jbHistorySz := by decide
  have hlt : log.length - jbHistorySz < log.length := by omega
  have hring := h.ring (log.length - jbHistorySz) hlt (by omega)
  have hmod : (log.length - jbHistorySz) % jbHistorySz = jb.histPtr % jbHistorySz := by
    rw [h.ptr, ← Nat.add_mod_right (log.length - jbHistorySz), Nat.sub_add_cancel hfull]
  unfold lastDelays
  rw [List.tail_drop, ← hmod, hring]
  exact List.drop_eq_getElem_cons hlt

/-- The five tests. -/
theorem historyKeep_iff {jb : Jitterbuf} {kicked : ℤ} : historyKeep jb delay kicked = true ↔
    jbHistorySz ≤ jb.histPtr ∧ jb.histMinbuf.getLast?.getD 0 ≤ delay ∧
      delay ≤ jb.histMaxbuf.getLast?.getD 0 ∧ jb.histMinbuf.getLast?.getD 0 < kicked ∧
      kicked < jb.histMaxbuf.getLast?.getD 0 := by
  simp [historyKeep, and_assoc]

/-- **A delay that passes the five tests leaves the buffers right**: it is
not among the extreme ones, and neither is the one it kicked out. -/
theorem BufsKeep.record {kicked : ℤ} (h : BufsKeep mx mn (kicked :: l))
    (hmn : mn.getLast?.getD 0 ≤ delay) (hmx : delay ≤ mx.getLast?.getD 0)
    (hkmn : mn.getLast?.getD 0 < kicked) (hkmx : kicked < mx.getLast?.getD 0) :
    BufsKeep mx mn (l ++ [delay]) := by
  have hmax : Keeps (α := ℤᵒᵈ) jbLongmin jbHistoryMaxbufSz mx l :=
    h.max.evict fun b hb => hkmx.trans_le (getLast_le h.max.sorted b hb)
  have hmin : Keeps jbLongmax jbHistoryMaxbufSz mn l :=
    h.min.evict fun b hb => (le_getLast h.min.sorted b hb).trans_lt hkmn
  have hmax' : Keeps (α := ℤᵒᵈ) jbLongmin jbHistoryMaxbufSz mx (delay :: l) :=
    hmax.skip fun b hb => hmx.trans (getLast_le h.max.sorted b hb)
  have hmin' : Keeps jbLongmax jbHistoryMaxbufSz mn (delay :: l) :=
    hmin.skip fun b hb => (le_getLast h.min.sorted b hb).trans hmn
  have hperm : (delay :: l).Perm (l ++ [delay]) := (List.perm_append_singleton delay l).symm
  exact ⟨hmax'.perm hperm, hmin'.perm hperm⟩

/-- The same where the history was not full: nothing was kicked out. -/
theorem BufsKeep.recordFirst (h : BufsKeep mx mn l) (hmn : mn.getLast?.getD 0 ≤ delay)
    (hmx : delay ≤ mx.getLast?.getD 0) : BufsKeep mx mn (l ++ [delay]) := by
  have hmax : Keeps (α := ℤᵒᵈ) jbLongmin jbHistoryMaxbufSz mx (delay :: l) :=
    h.max.skip fun b hb => hmx.trans (getLast_le h.max.sorted b hb)
  have hmin : Keeps jbLongmax jbHistoryMaxbufSz mn (delay :: l) :=
    h.min.skip fun b hb => (le_getLast h.min.sorted b hb).trans hmn
  have hperm : (delay :: l).Perm (l ++ [delay]) := (List.perm_append_singleton delay l).symm
  exact ⟨hmax.perm hperm, hmin.perm hperm⟩

/-- **A delay goes into the history.** -/
theorem HistoryOk.record (h : HistoryOk jb log) (delay : ℤ) :
    HistoryOk (historyRecord jb delay) (log ++ [delay]) where
  ptr := by simp [historyRecord, h.ptr]
  ring i hi hw := by
    simp only [historyRecord, h.ptr]
    rw [List.length_append, List.length_singleton] at hi hw
    rcases Nat.lt_succ_iff_lt_or_eq.1 hi with hlt | rfl
    · have hne : i % jbHistorySz ≠ log.length % jbHistorySz := by
        unfold jbHistorySz at hw ⊢
        omega
      rw [Function.update_of_ne hne, List.getElem_append_left hlt]
      exact h.ring i hlt (by omega)
    · rw [Function.update_self, List.getElem_concat_length rfl]
  bufs hv := by
    simp only [historyRecord, Bool.and_eq_true] at hv ⊢
    obtain ⟨hvalid, hkeep⟩ := hv
    obtain ⟨-, hmn, hmx, hkmn, hkmx⟩ := historyKeep_iff.1 hkeep
    have hbufs := h.bufs hvalid
    rw [lastDelays_snoc]
    by_cases hlt : log.length < jbHistorySz
    · rw [if_pos hlt]
      have hall : lastDelays log = log := by
        unfold lastDelays
        rw [Nat.sub_eq_zero_of_le hlt.le, List.drop_zero]
      rw [hall] at hbufs
      exact hbufs.recordFirst hmn hmx
    · rw [if_neg hlt]
      rw [h.kicked (by omega)] at hbufs
      exact hbufs.record hmn hmx hkmn hkmx

/-! ## Whole runs -/

theorem QueueOnly.sameHistory (h : QueueOnly jb jb') : SameHistory jb jb' :=
  ⟨h.history, h.histPtr, h.histMaxbuf, h.histMinbuf, h.valid⟩

/-- **`history_put` records what `recordDelay` says.** -/
theorem HistoryOk.put (h : HistoryOk jb log) (tsNew now : ℤ) :
    HistoryOk (historyPut jb tsNew now).1 (recordDelay jb.info tsNew now log) := by
  unfold historyPut recordDelay
  by_cases hts : tsNew ≤ 0
  · rw [if_pos hts, if_pos hts]
    exact h
  · rw [if_neg hts, if_neg hts]
    by_cases hthr : jb.info.conf.resyncThreshold ≠ -1
    · rw [if_pos hthr]
      by_cases hbig : delayDiscont jb.info (now - (tsNew - jb.info.resyncOffset))
      · rw [if_pos hbig.2, if_pos hbig]
        by_cases hcnt : jb.info.cntDelayDiscont + 1 > 3
        · -- the history starts over with a delay of zero
          rw [if_pos hcnt, if_pos hcnt]
          have hempty : ∀ info, HistoryOk
              { jb with histPtr := 0, histMaxbufValid := false, info := info } [] := by
            intro info
            refine ⟨rfl, fun i hi => absurd hi (Nat.not_lt_zero i), fun hv => ?_⟩
            cases hv
          exact (hempty _).record 0
        · rw [if_neg hcnt, if_neg hcnt]
          exact h.congr (.info jb _)
      · rw [if_neg fun hlt => hbig ⟨hthr, hlt⟩, if_neg hbig]
        exact (h.congr (.info jb _)).record _
    · rw [if_neg hthr, if_neg fun hd => hthr hd.1]
      exact h.record _

/-- **A call keeps the history.** -/
theorem HistoryOk.step {ev : JbEvent} (h : HistoryOk jb log) (hstep : JbStep jb ev jb') :
    HistoryOk jb' (logAfter jb ev log) := by
  cases ev with
  | put malloc data type ms ts now ret =>
    obtain ⟨-, fuel, hput⟩ := hstep
    have hhist : ∀ jb₁ ok, putHistory jb type ts now = (jb₁, ok) →
        HistoryOk jb₁ (if type = .voice then recordDelay jb.info ts now log else log) := by
      intro jb₁ ok hp
      have hfst : (putHistory jb type ts now).1 = jb₁ := by rw [hp]
      have hdrop : HistoryOk { jb with dropem := false } log := h.congr ⟨rfl, rfl, rfl, rfl, rfl⟩
      unfold putHistory at hfst
      by_cases hv : type = .voice
      · rw [if_pos hv] at hfst ⊢
        exact hfst ▸ hdrop.put ts now
      · rw [if_neg hv] at hfst ⊢
        exact hfst ▸ hdrop
    simp only [logAfter]
    rcases jbPut_cases hput with ⟨hfull, rfl, -⟩ | ⟨hfull, jb₁, hp, rfl, -⟩ |
      ⟨hfull, jb₁, hd, hp, hq, -⟩
    · simp only [hfull, Option.some.injEq, Bool.true_eq_false, false_and, if_false]
      exact h.congr ⟨rfl, rfl, rfl, rfl, rfl⟩
    · simp only [hfull, true_and]
      exact (hhist jb₁ _ hp).congr (.info jb₁ _)
    · simp only [hfull, true_and]
      exact ((hhist jb₁ _ hp).congr (.info jb₁ _)).congr (queuePut_only hq).sameHistory
  | get now interpl ret frameout =>
    obtain ⟨before, hget⟩ := hstep
    obtain ⟨frame, hget, -⟩ := jbGet_cases hget
    obtain ⟨j, diff, hj, -, hcases⟩ := jbGetFrame_cases hget
    have hjok : HistoryOk j log := hj ▸ h.get.congr (.info (historyGet jb) _)
    rcases hcases with ⟨-, -, rfl, -, -⟩ | ⟨-, -, jb₁, hq, -, hjb'⟩ | ⟨-, k, jb₁, rfl, hq, -, hjb'⟩
    · exact hjok.congr (.info j _)
    · rw [hjb']
      exact (hjok.congr (queueGet_cases hq).1.sameHistory).congr (.info jb₁ _)
    · rw [hjb']
      exact ((hjok.congr (.info j _)).congr (queueGet_cases hq).1.sameHistory).congr (.info jb₁ _)
  | getall ret frameout =>
    obtain ⟨before, hget⟩ := hstep
    obtain ⟨frame, hq, -⟩ := jbGetall_cases hget
    exact h.congr (queueGet_cases hq).1.sameHistory
  | next t =>
    rcases jbNext_cases hstep with rfl | rfl
    · exact h
    · exact h.get
  | getinfo stats =>
    have hjb' : jb' = historyGet jb := (Prod.mk.inj hstep).1.symm
    rw [hjb']
    exact h.get
  | setconf conf =>
    rw [show jb' = jbSetconf jb conf from hstep]
    exact h.congr (.info jb _)

/-- The history is right after every run. -/
theorem historyOk_of_trace {conf : JbConf} {evs : List JbEvent} {s : Jitterbuf × List ℤ}
    (hrun : Trace LoggedStep (jbNew conf, []) evs s) : HistoryOk s.1 s.2 := by
  refine hrun.inv_state (I := fun s => HistoryOk s.1 s.2) (HistoryOk.reset conf) ?_
  rintro t e u ht ⟨hstep, hlog⟩
  rw [hlog]
  exact ht.step hstep

/-! ## What `history_get` computes -/

theorem rank_eq (n : ℕ) : historyIdx n = rank n := by
  have hcount : historyCount n = min jbHistorySz n := by
    unfold historyCount
    by_cases h : n < jbHistorySz
    · rw [if_pos h, Nat.min_eq_right h.le]
    · rw [if_neg h, Nat.min_eq_left (by omega)]
  have hmax : ¬ min jbHistorySz n * jbHistoryDroppct / 100 > jbHistoryMaxbufSz - 1 := by
    have hle : min jbHistorySz n ≤ 500 := Nat.min_le_left _ _
    have hsz : jbHistoryMaxbufSz = 20 := by decide
    unfold jbHistoryDroppct
    omega
  unfold historyIdx rank
  simp only [hcount, if_neg hmax]

/-- A rank that is looked for is in the buffers. -/
theorem rank_lt (n : ℕ) : rank n < jbHistoryMaxbufSz := by
  have hle : min jbHistorySz n ≤ 500 := Nat.min_le_left _ _
  have hsz : jbHistoryMaxbufSz = 20 := by decide
  unfold rank jbHistoryDroppct
  omega

/-- **Valid buffers** make `history_get` right if and only if enough of
the delays are within the limits. -/
theorem BufsKeep.right_iff (h : BufsKeep mx mn l) (hk : k < jbHistoryMaxbufSz) :
    (∃ lo hi, smallest l k = some lo ∧ largest l k = some hi ∧ mn[k]?.getD 0 = lo ∧
      mx[k]?.getD 0 - mn[k]?.getD 0 = hi - lo) ↔
    k < l.countP (· ≤ jbLongmax) ∧ k < l.countP (jbLongmin ≤ ·) := by
  have hkn : k < mn.length := h.min.length ▸ hk
  have hkx : k < mx.length := h.max.length ▸ hk
  have hmn : mn[k]? = some mn[k] := List.getElem?_eq_getElem hkn
  have hmx : mx[k]? = some mx[k] := List.getElem?_eq_getElem hkx
  have hlo := h.min.getElem?_iff hmn
  have hhi := h.max.getElem?_iff hmx
  rw [hmn, hmx, Option.getD_some, Option.getD_some]
  constructor
  · rintro ⟨lo, hi, hl, hh, rfl, hsub⟩
    obtain rfl : mx[k] = hi := by omega
    exact ⟨hlo.1 hl, hhi.1 hh⟩
  · rintro ⟨hl, hh⟩
    exact ⟨mn[k], mx[k], hlo.2 hl, hhi.2 hh, rfl, rfl⟩

/-- **`history_get` is right exactly where enough delays are within the
limits.** -/
theorem history_right_iff {conf : JbConf} {evs : List JbEvent} {s : Jitterbuf × List ℤ}
    (hrun : Trace LoggedStep (jbNew conf, []) evs s) (hne : s.2 ≠ []) :
    HistoryRight s.1 s.2 ↔ EnoughInside s.2 := by
  have hok := historyOk_of_trace hrun
  have hvalid : (freshHistory s.1).histMaxbufValid = true := by
    unfold freshHistory
    by_cases hv : s.1.histMaxbufValid = true
    · rw [if_pos hv, hv]
    · have hptr : s.1.histPtr ≠ 0 := by
        rw [hok.ptr]
        exact fun h0 => hne (List.length_eq_zero_iff.1 h0)
      rw [if_neg hv, historyCalcMaxbuf, if_neg hptr]
  have hbufs := hok.fresh.bufs hvalid
  have hidx : historyIdx (freshHistory s.1).histPtr = rank s.2.length := by
    rw [rank_eq, hok.fresh.ptr]
  have hmin : (historyGet s.1).info.min =
      (freshHistory s.1).histMinbuf[rank s.2.length]?.getD 0 := by
    rw [← hidx]
    rfl
  have hjitter : (historyGet s.1).info.jitter =
      (freshHistory s.1).histMaxbuf[rank s.2.length]?.getD 0 -
        (freshHistory s.1).histMinbuf[rank s.2.length]?.getD 0 := by
    rw [← hidx]
    rfl
  unfold HistoryRight
  rw [hmin, hjitter]
  exact hbufs.right_iff (rank_lt s.2.length)

/-! ## Concrete runs -/

/-- A buffer of a second that resyncs where delays change by `threshold`. -/
def secondConf (threshold : ℤ) : JbConf := ⟨1000, threshold, 0, -1⟩

/-- A new buffer with these settings. -/
def secondBuffer (threshold : ℤ) : Jitterbuf :=
  jbSetconf (jbNew (secondConf threshold)) (secondConf threshold)

/-- Two frames that come 5 and 3 milliseconds late. -/
theorem history_right_two :
    ∃ evs s, Trace LoggedStep (jbNew (secondConf 1000), []) evs s ∧ s.2 = [5, 3] ∧
      HistoryRight s.1 s.2 := by
  have hput : ((jbPut 1 (secondBuffer 1000) 1 0 .voice 20 20 25).bind fun r =>
      (jbPut 1 r.1 2 0 .voice 20 40 43).map fun r' =>
        (r.2, r'.2, (r.1.mem 2).isNone, jbFull r.1, recordDelay r.1.info 40 43 [5])) =
      some (.sched, .ok, true, some false, [5, 3]) := by decide +kernel
  simp only [Option.bind_eq_some_iff, Option.map_eq_some_iff, Prod.mk.injEq, Prod.exists] at hput
  obtain ⟨jb₁, ret₁, h₁, jb₂, ret₂, h₂, rfl, rfl, hmem, hfull, hlog⟩ := hput
  have hconf : LoggedStep (jbNew (secondConf 1000), []) (.setconf (secondConf 1000))
      (secondBuffer 1000, []) := ⟨rfl, rfl⟩
  have hfirst : LoggedStep (secondBuffer 1000, []) (.put 1 0 .voice 20 20 25 .sched)
      (jb₁, [5]) := by
    have hlog : logAfter (secondBuffer 1000) (.put 1 0 .voice 20 20 25 .sched) [] = [5] := by
      decide +kernel
    exact ⟨⟨fun _ => rfl, 1, h₁⟩, hlog.symm⟩
  have hsecond : LoggedStep (jb₁, [5]) (.put 2 0 .voice 20 40 43 .ok) (jb₂, [5, 3]) := by
    refine ⟨⟨fun _ => Option.isNone_iff_eq_none.1 hmem, 1, h₂⟩, ?_⟩
    simp [logAfter, hfull, hlog]
  have hrun := ((Trace.single hconf).snoc hfirst).snoc hsecond
  have henough : EnoughInside [5, 3] := by decide +kernel
  exact ⟨_, _, hrun, rfl, (history_right_iff hrun (by simp)).2 henough⟩

/-- **A delay beyond `JB_LONGMAX`** never enters the buffer of the least
delays: `history_get` says that the least is `JB_LONGMAX`. -/
theorem not_historyRight_of_late :
    ∃ evs s, Trace LoggedStep (jbNew (secondConf (-1)), []) evs s ∧ s.2 = [3000000000] ∧
      (historyGet s.1).info.min = 2147483647 ∧ ¬ HistoryRight s.1 s.2 := by
  have hput : ((jbPut 1 (secondBuffer (-1)) 1 0 .voice 20 1 3000000001).map fun r =>
      (r.2, (historyGet r.1).info.min)) = some (.sched, 2147483647) := by decide +kernel
  simp only [Option.map_eq_some_iff, Prod.mk.injEq, Prod.exists] at hput
  obtain ⟨jb₁, ret₁, h₁, rfl, hmin⟩ := hput
  have hconf : LoggedStep (jbNew (secondConf (-1)), []) (.setconf (secondConf (-1)))
      (secondBuffer (-1), []) := ⟨rfl, rfl⟩
  have hfirst : LoggedStep (secondBuffer (-1), []) (.put 1 0 .voice 20 1 3000000001 .sched)
      (jb₁, [3000000000]) := by
    have hlog : logAfter (secondBuffer (-1)) (.put 1 0 .voice 20 1 3000000001 .sched) [] =
        [3000000000] := by decide +kernel
    exact ⟨⟨fun _ => rfl, 1, h₁⟩, hlog.symm⟩
  refine ⟨_, _, (Trace.single hconf).snoc hfirst, rfl, hmin, ?_⟩
  rintro ⟨lo, hi, hlo, -, hlo', -⟩
  have hsmallest : smallest (lastDelays [3000000000]) (rank 1) = some 3000000000 := by
    simp [smallest, lastDelays, rank, jbHistorySz, jbHistoryDroppct]
  have heq : some lo = some 3000000000 := hlo.symm.trans hsmallest
  rw [hmin] at hlo'
  rw [← hlo'] at heq
  simp at heq

end Jitter

end Trismedia
