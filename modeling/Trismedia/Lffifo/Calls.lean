import Trismedia.Lffifo.Queue
/-!
# Runs of calls

Puts and gets one after the other on a fifo from `lffifo_alloc`. Beside the
fifo a run keeps the frames that were accepted and not yet taken; `Conforms`
says what a bounded queue of these frames does at a call. After any run of
calls that are `CallOk`, the next call conforms exactly when it is.
-/


namespace Trismedia

namespace Lffifo

inductive Call
  | put (data : Frame)
  | get (bufsize : ℕ)

/-- A put passes at least one byte. -/
def Call.Valid : Call → Prop
  | .put data => data ≠ []
  | .get _ => True

/-- The fifo, and the frames that were accepted and not yet taken. -/
structure Run where
  fifo : Fifo
  held : List Frame

/-- The state after a call. -/
def Run.call (s : Run) : Call → Run
  | .put data =>
    let res := (lffifoPut s.fifo.size data).run s.fifo
    ⟨res.2, if res.1 = 0 then s.held ++ [data] else s.held⟩
  | .get bufsize =>
    let res := (lffifoGet s.fifo.size bufsize).run s.fifo
    ⟨res.2, if 0 < res.1.1 then s.held.tail else s.held⟩

/-- A put into a bounded queue. -/
def PutConforms (s : Run) (data : Frame) : Prop :=
  let res := (lffifoPut s.fifo.size data).run s.fifo
  if Fits s.fifo s.held data then res.1 = 0 else res.1 = 1 ∧ res.2 = s.fifo

/-- A get from a bounded queue. -/
def GetConforms (s : Run) (bufsize : ℕ) : Prop :=
  let res := (lffifoGet s.fifo.size bufsize).run s.fifo
  (res.1.1 ≤ 0 → res.2 = s.fifo) ∧
    match s.held with
    | [] => res.1.1 = 0
    | f :: _ =>
      if f.length ≤ bufsize then res.1 = (↑f.length, f) else res.1.1 = (bufsize : ℤ) - ↑f.length

/-- **The call does what a bounded queue of frames does.** -/
def Conforms (s : Run) : Call → Prop
  | .put data => PutConforms s data
  | .get bufsize => GetConforms s bufsize

/-- **The puts that go well**: all but a frame longer than the whole fifo
where the fifo is empty, and a frame over the limit of the sanity check
that would fit. -/
def PutOk (s : Run) (data : Frame) : Prop :=
  if data.length ≤ 0x10000000 then (encFrame data).length ≤ s.fifo.size ∨ s.held ≠ []
  else ¬ Fits s.fifo s.held data

def CallOk (s : Run) : Call → Prop
  | .put data => PutOk s data
  | .get _ => True

variable {s : Run} {data : Frame}

theorem putConforms_iff (h : Holds s.fifo s.held) (hne : data ≠ []) :
    PutConforms s data ↔ PutOk s data := by
  have hpos : 0 < data.length := List.length_pos_of_ne_nil hne
  unfold PutConforms PutOk
  dsimp only
  by_cases hlen : data.length ≤ 0x10000000
  · have hsane : Sane data := by
      rintro (h0 | hbig) <;> omega
    rw [if_pos hlen]
    by_cases hfits : Fits s.fifo s.held data
    · obtain ⟨t, hrun, -⟩ := run_put_fits h hsane hfits
      have hle : (encFrame data).length ≤ s.fifo.size := by
        unfold Fits at hfits
        omega
      rw [if_pos hfits, hrun]
      exact ⟨fun _ => .inl hle, fun _ => rfl⟩
    · rw [if_neg hfits]
      by_cases hheld : s.held = []
      · have hlong : ¬ (encFrame data).length ≤ s.fifo.size := by
          intro hle
          rw [Fits, hheld] at hfits
          exact hfits (by simpa [bytesOf] using hle)
        rw [hheld] at h
        have hzero := run_put_empty h hsane
        constructor
        · intro hone
          rw [hzero] at hone
          exact absurd hone.1 (by decide)
        · rintro (hle | hne')
          · exact absurd hle hlong
          · exact absurd hheld hne'
      · rw [run_put_full h hheld hfits]
        exact ⟨fun _ => .inr hheld, fun _ => ⟨rfl, rfl⟩⟩
  · have hinsane : ¬ Sane data := fun hsane => hsane (.inr (by omega))
    rw [if_neg hlen, run_put_insane hinsane]
    by_cases hfits : Fits s.fifo s.held data
    · rw [if_pos hfits]
      exact ⟨fun hone => absurd hone one_ne_zero, fun hno => absurd hfits hno⟩
    · rw [if_neg hfits]
      exact ⟨fun _ => hfits, fun _ => ⟨rfl, rfl⟩⟩

theorem getConforms (h : Holds s.fifo s.held) (bufsize : ℕ) : GetConforms s bufsize := by
  unfold GetConforms
  cases hheld : s.held with
  | nil =>
    rw [hheld] at h
    rw [run_get_empty h]
    exact ⟨fun _ => rfl, rfl⟩
  | cons f held =>
    rw [hheld] at h
    by_cases hb : f.length ≤ bufsize
    · obtain ⟨t, hrun, -⟩ := run_get_frame h hb
      obtain ⟨r, hr⟩ := h
      have hpos : 0 < f.length := List.length_pos_of_ne_nil (hr.ne_nil f List.mem_cons_self)
      rw [hrun]
      refine ⟨fun hle => ?_, ?_⟩
      · dsimp only at hle
        omega
      · dsimp only
        rw [if_pos hb]
    · rw [run_get_small h (by omega)]
      refine ⟨fun _ => rfl, ?_⟩
      dsimp only
      rw [if_neg hb]

/-- **One call keeps the frames in the ring.** -/
theorem Holds.call (h : Holds s.fifo s.held) {c : Call} (hv : c.Valid) (hok : CallOk s c) :
    Holds (s.call c).fifo (s.call c).held := by
  cases c with
  | put data =>
    by_cases hfits : Fits s.fifo s.held data ∧ data.length ≤ 0x10000000
    · have hpos : 0 < data.length := List.length_pos_of_ne_nil hv
      have hsane : Sane data := by
        rintro (h0 | hbig) <;> omega
      obtain ⟨t, hrun, -, ht⟩ := run_put_fits h hsane hfits.1
      simp only [Run.call, hrun, if_true]
      exact ht
    · have hfits' : ¬ Fits s.fifo s.held data := by
        intro hf
        have hlen : ¬ data.length ≤ 0x10000000 := fun hlen => hfits ⟨hf, hlen⟩
        rw [CallOk, PutOk, if_neg hlen] at hok
        exact hok hf
      have hconf := (putConforms_iff h hv).2 hok
      rw [PutConforms, if_neg hfits'] at hconf
      simp only [Run.call, hconf.1, hconf.2]
      exact h
  | get bufsize =>
    have hconf := getConforms h bufsize
    cases hheld : s.held with
    | nil =>
      have hempty := h
      rw [hheld] at hempty
      simp only [Run.call, run_get_empty hempty, lt_irrefl, if_false]
      exact h
    | cons f held =>
      have hcons := h
      rw [hheld] at hcons
      by_cases hb : f.length ≤ bufsize
      · obtain ⟨t, hrun, -, ht⟩ := run_get_frame hcons hb
        obtain ⟨r, hr⟩ := hcons
        have hpos : 0 < f.length := List.length_pos_of_ne_nil (hr.ne_nil f List.mem_cons_self)
        have hpos' : (0 : ℤ) < ↑f.length := by omega
        simp only [Run.call, hrun, if_pos hpos', hheld, List.tail_cons]
        exact ht
      · have hneg : ¬ (0 : ℤ) < (bufsize : ℤ) - ↑f.length := by omega
        simp only [Run.call, run_get_small hcons (by omega : bufsize < f.length), if_neg hneg]
        exact h

/-- A call that goes well. -/
def OkStep (s : Run) (c : Call) (t : Run) : Prop := c.Valid ∧ CallOk s c ∧ t = s.call c

theorem run_holds {fifo : Fifo} {size : ℤ} (ha : lffifoAlloc size = some fifo) {calls : List Call}
    (h : Trace OkStep ⟨fifo, []⟩ calls s) : Holds s.fifo s.held := by
  refine Trace.inv_state (I := fun t => Holds t.fifo t.held) h (lffifoAlloc_holds ha) ?_
  rintro t c u ht ⟨hv, hok, rfl⟩
  exact ht.call hv hok

/-- **The fifo is a bounded queue of frames** for as long as every call is
`CallOk`, and the first call that is not does something else. -/
theorem lffifo_queue_iff {fifo : Fifo} {size : ℤ} (ha : lffifoAlloc size = some fifo)
    {calls : List Call} (h : Trace OkStep ⟨fifo, []⟩ calls s) {c : Call} (hc : c.Valid) :
    Conforms s c ↔ CallOk s c := by
  have hholds := run_holds ha h
  cases c with
  | put data => exact putConforms_iff hholds hc
  | get bufsize => exact ⟨fun _ => trivial, fun _ => getConforms hholds bufsize⟩

/-- Of two frames the second is refused by a fifo of four bytes. -/
theorem lffifo_queue_iff_two :
    (∃ fifo s, lffifoAlloc 4 = some fifo ∧ Trace OkStep ⟨fifo, []⟩ [.put [1]] s ∧
      (Call.put [2]).Valid ∧ (Conforms s (.put [2]) ↔ CallOk s (.put [2]))) := by
  have hrun : Trace OkStep ⟨⟨4, 0, 0, fun _ => bytEmpty⟩, []⟩ [.put [1]]
      (Run.call ⟨⟨4, 0, 0, fun _ => bytEmpty⟩, []⟩ (.put [1])) := by
    refine Trace.single ⟨List.cons_ne_nil _ _, ?_, rfl⟩
    exact .inl (by decide)
  have halloc : lffifoAlloc 4 = some ⟨4, 0, 0, fun _ => bytEmpty⟩ := rfl
  exact ⟨_, _, halloc, hrun, List.cons_ne_nil _ _, lffifo_queue_iff halloc hrun (List.cons_ne_nil _ _)⟩

/-- A frame of one byte goes into a fifo of two, though it needs three. -/
theorem not_lffifo_queue :
    ¬ ∀ (size : ℤ) (fifo : Fifo), lffifoAlloc size = some fifo → ∀ (calls : List Call) (s : Run),
      Trace (fun s c t => c.Valid ∧ t = Run.call s c) ⟨fifo, []⟩ calls s →
        ∀ c : Call, c.Valid → Conforms s c := by
  intro hall
  have halloc : lffifoAlloc 2 = some ⟨2, 0, 0, fun _ => bytEmpty⟩ := rfl
  have hconf := hall 2 _ halloc [] _ Trace.nil (.put [1]) (List.cons_ne_nil _ _)
  have hret : ((lffifoPut 2 [1]).run ⟨2, 0, 0, fun _ => bytEmpty⟩).1 = 0 := rfl
  have hfits : ¬ Fits ⟨2, 0, 0, fun _ => bytEmpty⟩ [] [1] := by decide
  rw [Conforms, PutConforms, if_neg hfits] at hconf
  rw [hret] at hconf
  exact absurd hconf.1 (by decide)

end Lffifo

end Trismedia
