import Trismedia.Common.Trace
import Trismedia.Slinfactory.Model
/-!
# Runs of the factory

What the reads since the last flush have given, followed by what is held, is
to be what has been fed since. A run of calls keeps that exactly where each of
its reads takes the hold either in part or from its beginning, leaves no more
of a frame than the hold takes, and comes to an end, and where each feed finds
memory and leaves less than `2 ^ 32` samples in the factory.
-/


namespace Trismedia

namespace Slinfactory

/-- A factory and what has gone through it since the last flush. There is no
factory any more once a read does not return. -/
structure Session where
  sf : Option TrisSlinfactory
  got : List Sample
  fed : List Sample

inductive Call
  | feed (f : Frame) (dup : Bool)
  | read (samples : ℕ)
  | flush

inductive Step : Session → Call → Session → Prop
  | feed (sf : TrisSlinfactory) (got fed : List Sample) (f : Frame) (dup : Bool) :
      Step ⟨some sf, got, fed⟩ (.feed f dup)
        ⟨some (tris_slinfactory_feed sf f dup).1, got, fed ++ f.fed⟩
  | read {sf t : TrisSlinfactory} {got fed buf : List Sample} {samples : ℕ} {r : ℤ} :
      Reads sf samples t buf r →
      Step ⟨some sf, got, fed⟩ (.read samples) ⟨some t, got ++ buf, fed⟩
  | hang {sf : TrisSlinfactory} {got fed : List Sample} {samples : ℕ} :
      Hangs sf samples → Step ⟨some sf, got, fed⟩ (.read samples) ⟨none, got, fed⟩
  | flush (sf : TrisSlinfactory) (got fed : List Sample) :
      Step ⟨some sf, got, fed⟩ .flush ⟨some (tris_slinfactory_flush sf), [], []⟩

/-- A factory as `tris_slinfactory_init` makes it. -/
def Session.init : Session := ⟨some tris_slinfactory_init, [], []⟩

/-- **No sample is lost, repeated or altered**, and the number of available
samples is the number of those held. -/
def Session.Faithful (s : Session) : Prop :=
  ∃ sf ∈ s.sf, s.got ++ sf.held = s.fed ∧ tris_slinfactory_available sf = sf.held.length

/-- **Where a read is right.** It comes to an end; where it takes the whole
hold, the samples at the beginning of the hold are those to be taken; and the
rest of the frame in which it ends fits in the hold. -/
structure ReadMet (sf : TrisSlinfactory) (samples : ℕ) : Prop where
  ends : samples < 4294967296 ∨ sf.held.length ≤ samples % 4294967296
  hold : sf.holdlen ≤ samples % 4294967296 →
    sf.hold.shorts.take sf.holdlen = (sf.hold.shorts.drop sf.offset).take sf.holdlen
  fits : sf.holdlen ≤ samples % 4294967296 →
    (leave (samples % 4294967296 - sf.holdlen) sf.queue).1.length ≤ maxHold

/-- **Where a call is right.** -/
def Met (s : Session) : Call → Prop
  | .feed f dup => ∀ sf ∈ s.sf,
    (f.fed = [] ∨ dup = true) ∧ sf.held.length + f.fed.length < 4294967296
  | .read samples => ∀ sf ∈ s.sf, ReadMet sf samples
  | .flush => True

variable {sf t : TrisSlinfactory} {s u : Session} {c : Call} {samples : ℕ}
  {got fed buf : List Sample} {r : ℤ}

/-! ## Each call -/

theorem init_wellFormed : WellFormed tris_slinfactory_init where
  inside := by decide
  offset_eq := fun _ => rfl
  size_lt := by decide

theorem init_faithful : Session.init.Faithful := ⟨tris_slinfactory_init, rfl, by simp [Session.init,
  tris_slinfactory_init, TrisSlinfactory.held, tris_slinfactory_available]⟩

theorem feed_wellFormed (hwf : WellFormed sf) (f : Frame) (dup : Bool) :
    WellFormed (tris_slinfactory_feed sf f dup).1 := by
  unfold tris_slinfactory_feed
  split
  · exact hwf
  · split
    · exact ⟨hwf.inside, hwf.offset_eq, Nat.mod_lt _ (by decide)⟩
    · exact hwf

/-- **A frame that is fed** stands behind what is held, if there is memory. -/
theorem feed_held (f : Frame) (dup : Bool) :
    (tris_slinfactory_feed sf f dup).1.held = sf.held ++ if dup then f.fed else [] := by
  unfold tris_slinfactory_feed Frame.fed
  cases f.data <;> cases dup <;> simp [TrisSlinfactory.held]

theorem feed_size (hwf : WellFormed sf) (f : Frame) (dup : Bool) :
    (tris_slinfactory_feed sf f dup).1.size =
      (sf.size + if dup then f.fed.length else 0) % 4294967296 := by
  have hsize := hwf.size_lt
  have hlen := f.length_data
  unfold tris_slinfactory_feed Frame.fed
  cases hd : f.data with
  | none => cases dup <;> simp [Nat.mod_eq_of_lt hsize]
  | some d =>
    rw [hd] at hlen
    cases dup with
    | false => simp [Nat.mod_eq_of_lt hsize]
    | true => simp [hlen d rfl]

/-- What a read returns does not depend on how long it is given. -/
theorem readLoop_unique {k k' n n' : ℕ} {t t' : TrisSlinfactory} {b b' : List Sample}
    (h : readLoop samples k sf 0 [] = some (t, n, b))
    (h' : readLoop samples k' sf 0 [] = some (t', n', b')) : t = t' ∧ n = n' ∧ b = b' := by
  have h1 := readLoop_add h k'
  have h2 := readLoop_add h' k
  rw [Nat.add_comm k' k, h1] at h2
  simpa using h2

/-- **A read that is not to end does not.** -/
theorem hangs_iff (hwf : WellFormed sf) :
    Hangs sf samples ↔ ¬ (samples < 4294967296 ∨ sf.held.length ≤ samples % 4294967296) := by
  constructor
  · intro h hends
    by_cases hle : sf.holdlen ≤ samples % 4294967296
    · obtain ⟨fuel, t, hrun, -⟩ := readLoop_whole hwf hle hends
      rw [h fuel] at hrun
      cases hrun
    · have hheld := hwf.length_held
      have hs : samples < sf.holdlen := by omega
      obtain ⟨fuel, t, hrun, -⟩ := readLoop_part hwf hs
      rw [h fuel] at hrun
      cases hrun
  · intro h fuel
    rw [hwf.length_held] at h
    exact readLoop_none (by omega) (by omega) (by omega)

/-- What a read leaves once its loop is through: `sofar` samples less. -/
theorem wellFormed_less {t' : TrisSlinfactory} (hin : t'.offset + t'.holdlen ≤ maxHold)
    (hoff : t'.holdlen = 0 → t'.offset = 0) (sofar : ℕ) :
    WellFormed { t' with size := (t'.size + (4294967296 - sofar)) % 4294967296 } :=
  ⟨hin, hoff, Nat.mod_lt _ (by decide)⟩

/-- **What a read does**: it takes the whole hold and goes on with the queue,
or it takes less than the hold. -/
theorem reads_cases (hwf : WellFormed sf) (h : Reads sf samples t buf r) :
    (samples < 4294967296 ∨ sf.held.length ≤ samples % 4294967296) ∧ WellFormed t ∧
      buf.length = min (samples % 4294967296) sf.held.length ∧
      t.size = (sf.size + (4294967296 - min (samples % 4294967296) sf.held.length)) % 4294967296 ∧
      ((sf.holdlen ≤ samples % 4294967296 ∧
          buf = sf.hold.shorts.take sf.holdlen ++
            sf.queue.flatten.take (samples % 4294967296 - sf.holdlen) ∧
          t.held = (leave (samples % 4294967296 - sf.holdlen) sf.queue).1.take maxHold ++
            (leave (samples % 4294967296 - sf.holdlen) sf.queue).2.flatten) ∨
        (samples % 4294967296 < sf.holdlen ∧
          buf ++ t.held = sf.held)) := by
  obtain ⟨k, t', n, hrun, rfl, -⟩ := h
  have hends : samples < 4294967296 ∨ sf.held.length ≤ samples % 4294967296 := by
    by_contra hnot
    have hnone := (hangs_iff hwf).2 hnot k
    rw [hrun] at hnone
    cases hnone
  refine ⟨hends, ?_⟩
  have hlen := hwf.length_held
  have hlh := hwf.length_hold
  have hin := hwf.inside
  by_cases hle : sf.holdlen ≤ samples % 4294967296
  · obtain ⟨fuel, u, hrun', hheld, hoff, hmax, hsize⟩ := readLoop_whole hwf hle hends
    obtain ⟨rfl, rfl, rfl⟩ := readLoop_unique hrun hrun'
    refine ⟨wellFormed_less (by omega) (fun _ => hoff) _, ?_, ?_, Or.inl ⟨hle, rfl, hheld⟩⟩
    · rw [List.length_append, List.length_take, List.length_take, sf.hold.length_shorts]
      omega
    · simp only [hsize]
  · have hs : samples < sf.holdlen := by omega
    have hmod : samples % 4294967296 = samples := by omega
    have hmin : min (samples % 4294967296) sf.held.length = samples := by omega
    obtain ⟨fuel, u, hrun', hheld, hu, hsize⟩ := readLoop_part hwf hs
    obtain ⟨rfl, hn, rfl⟩ := readLoop_unique hrun hrun'
    have htake : (sf.hold.shorts.drop sf.offset).take samples = sf.held.take samples := by
      rw [TrisSlinfactory.held, List.take_append_of_le_length (by omega), List.take_take,
        Nat.min_eq_left (by omega)]
    rw [htake, hmin, hn]
    refine ⟨wellFormed_less hu.inside hu.offset_eq _, ?_, ?_, Or.inr ⟨by omega, ?_⟩⟩
    · rw [List.length_take]
      omega
    · simp only [hsize]
    · have hheld' : ({ t' with size := (t'.size + (4294967296 - samples)) % 4294967296 } :
          TrisSlinfactory).held = t'.held := rfl
      rw [hheld', hheld, List.take_append_drop]

/-- **A read is right exactly where it is met.** -/
theorem reads_iff (hwf : WellFormed sf) (hsize : sf.size = sf.held.length)
    (h : Reads sf samples t buf r) :
    (buf ++ t.held = sf.held ∧ t.size = t.held.length) ↔ ReadMet sf samples := by
  obtain ⟨hends, -, hbl, hts, hcase⟩ := reads_cases hwf h
  have hlt := hwf.size_lt
  have hcount : buf ++ t.held = sf.held → t.size = t.held.length := by
    intro hall
    have hlen := congrArg List.length hall
    rw [List.length_append, hbl] at hlen
    rw [hts]
    omega
  rcases hcase with ⟨hle, rfl, hheld⟩ | ⟨hpart, hall⟩
  · have hflat := leave_flatten (samples % 4294967296 - sf.holdlen) sf.queue
    have hcut : sf.held = (sf.hold.shorts.drop sf.offset).take sf.holdlen ++
        (sf.queue.flatten.take (samples % 4294967296 - sf.holdlen) ++
          ((leave (samples % 4294967296 - sf.holdlen) sf.queue).1 ++
            (leave (samples % 4294967296 - sf.holdlen) sf.queue).2.flatten)) := by
      rw [hflat, List.take_append_drop, TrisSlinfactory.held]
    constructor
    · rintro ⟨hall, -⟩
      have hl : (sf.hold.shorts.take sf.holdlen).length =
          ((sf.hold.shorts.drop sf.offset).take sf.holdlen).length := by
        have hin := hwf.inside
        rw [hwf.length_hold, List.length_take, sf.hold.length_shorts]
        omega
      rw [hcut, hheld, List.append_assoc] at hall
      obtain ⟨hhold, hrest⟩ := List.append_inj hall hl
      have hfits := List.append_cancel_right (List.append_cancel_left hrest)
      refine ⟨hends, fun _ => hhold, fun _ => ?_⟩
      rw [← hfits]
      exact List.length_take_le _ _
    · intro hmet
      have hall : sf.hold.shorts.take sf.holdlen ++
          sf.queue.flatten.take (samples % 4294967296 - sf.holdlen) ++ t.held = sf.held := by
        rw [hcut, hheld, hmet.hold hle, List.take_of_length_le (hmet.fits hle), List.append_assoc]
      exact ⟨hall, hcount hall⟩
  · have hmet : ReadMet sf samples := ⟨hends, fun h => by omega, fun h => by omega⟩
    exact ⟨fun _ => hmet, fun _ => ⟨hall, hcount hall⟩⟩

/-! ## Runs -/

/-- The factory of a session, if there still is one. -/
def Session.WellFormed (s : Session) : Prop := ∀ sf ∈ s.sf, Slinfactory.WellFormed sf

theorem step_wellFormed (hwf : s.WellFormed) (h : Step s c u) : u.WellFormed := by
  intro sf' hsf'
  cases h with
  | feed sf got fed f dup =>
    obtain rfl := Option.some.inj hsf'
    exact feed_wellFormed (hwf sf rfl) f dup
  | read hr =>
    obtain rfl := Option.some.inj hsf'
    exact (reads_cases (hwf _ rfl) hr).2.1
  | hang _ => cases hsf'
  | flush sf got fed =>
    obtain rfl := Option.some.inj hsf'
    exact ⟨Nat.zero_le _, fun _ => rfl, Nat.zero_lt_succ _⟩

/-- **A feed is right exactly where it is met.** -/
theorem feed_iff (hwf : WellFormed sf) (hsize : sf.size = sf.held.length) (f : Frame)
    (dup : Bool) :
    ((tris_slinfactory_feed sf f dup).1.held = sf.held ++ f.fed ∧
      (tris_slinfactory_feed sf f dup).1.size = (tris_slinfactory_feed sf f dup).1.held.length) ↔
    (f.fed = [] ∨ dup = true) ∧ sf.held.length + f.fed.length < 4294967296 := by
  have hlt := hwf.size_lt
  rw [feed_size hwf, feed_held, hsize]
  cases dup with
  | true =>
    simp only [if_true, List.length_append, or_true, true_and]
    constructor
    · intro h
      omega
    · intro h
      omega
  | false =>
    simp only [Bool.false_eq_true, if_false, List.append_nil, or_false]
    constructor
    · rintro ⟨h, -⟩
      have hnil : f.fed = [] := List.self_eq_append_right.1 h
      exact ⟨hnil, by rw [hnil, List.length_nil]; omega⟩
    · rintro ⟨h, -⟩
      rw [h, List.append_nil]
      exact ⟨rfl, by omega⟩

/-- **A step.** A call keeps a session faithful exactly where it is met. -/
theorem step_faithful_iff (hwf : s.WellFormed) (hs : s.Faithful) (h : Step s c u) :
    u.Faithful ↔ Met s c := by
  obtain ⟨sf, hsf, hall, hav⟩ := hs
  cases h with
  | feed sf' got fed f dup =>
    obtain rfl := Option.some.inj hsf
    have hiff := feed_iff (hwf _ rfl) hav f dup
    constructor
    · rintro ⟨t, ht, hall', hav'⟩ sf' hsf'
      obtain rfl := Option.some.inj hsf'
      obtain rfl := Option.some.inj ht
      simp only at hall hall'
      rw [← hall, List.append_assoc] at hall'
      exact hiff.1 ⟨List.append_cancel_left hall', hav'⟩
    · intro hmet
      obtain ⟨hheld, hsize⟩ := hiff.2 (hmet _ rfl)
      refine ⟨_, rfl, ?_, hsize⟩
      simp only at hall ⊢
      rw [hheld, ← hall, List.append_assoc]
  | @read sf' t got fed buf samples r hr =>
    obtain rfl := Option.some.inj hsf
    have hiff := reads_iff (hwf _ rfl) hav hr
    constructor
    · rintro ⟨t', ht, hall', hav'⟩ sf' hsf'
      obtain rfl := Option.some.inj hsf'
      obtain rfl := Option.some.inj ht
      simp only at hall hall'
      rw [← hall, List.append_assoc] at hall'
      exact hiff.1 ⟨List.append_cancel_left hall', hav'⟩
    · intro hmet
      obtain ⟨hheld, hsize⟩ := hiff.2 (hmet _ rfl)
      refine ⟨_, rfl, ?_, hsize⟩
      simp only at hall ⊢
      rw [List.append_assoc, hheld, hall]
  | hang hh =>
    obtain rfl := Option.some.inj hsf
    constructor
    · rintro ⟨t, ht, -⟩
      cases ht
    · intro hmet
      exact absurd (hmet _ rfl).ends ((hangs_iff (hwf _ rfl)).1 hh)
  | flush sf' got fed =>
    refine ⟨fun _ => trivial, fun _ => ⟨_, rfl, ?_, ?_⟩⟩
    · simp [tris_slinfactory_flush, TrisSlinfactory.held]
    · simp [tris_slinfactory_flush, TrisSlinfactory.held, tris_slinfactory_available]

/-- **Where the factory loses nothing.** The runs in which, after each call,
what was read since the last flush and what is held are what was fed, and the
available samples are those held, are the runs whose calls are all met. -/
theorem faithful_iff_met {calls : List Call} :
    Trace (fun s c u => Step s c u ∧ u.Faithful) Session.init calls s ↔
      Trace (fun s c u => Step s c u ∧ Met s c) Session.init calls s := by
  have hwf : Session.init.WellFormed := by
    intro sf hsf
    obtain rfl := Option.some.inj hsf
    exact init_wellFormed
  exact Trace.kept_iff_met (fun _ _ _ => step_wellFormed) (fun _ _ _ => step_faithful_iff) hwf
    init_faithful

/-! ## A run that repeats a sample -/

/-- A frame of four samples. -/
def fourSamples : Frame where
  data := some [1, 2, 3, 4]
  samples := 4
  samples_lt := by decide
  length_data := by simp

/-- **Two reads of one sample and one of two**: the sample read second is read
again, and the last one is lost. -/
theorem not_faithful_after_reads : ∃ s, Trace Step Session.init
    [.feed fourSamples true, .read 1, .read 1, .read 2] s ∧ ¬ s.Faithful := by
  have htake1 : (Hold.zero.copy [2, 3, 4]).shorts.take 1 = [2] :=
    take_copy Hold.zero (by decide) (by decide)
  have htake2 : (Hold.zero.copy [2, 3, 4]).shorts.take 2 = [2, 3] :=
    take_copy Hold.zero (by decide) (by decide)
  have h1 : Reads ⟨[[1, 2, 3, 4]], Hold.zero, 0, 0, 4⟩ 1
      ⟨[], Hold.zero.copy [2, 3, 4], 0, 3, 3⟩ [1] 1 :=
    ⟨2, ⟨[], Hold.zero.copy [2, 3, 4], 0, 3, 4⟩, 1, by simp [readLoop, maxHold], rfl, rfl⟩
  have h2 : Reads ⟨[], Hold.zero.copy [2, 3, 4], 0, 3, 3⟩ 1
      ⟨[], Hold.zero.copy [2, 3, 4], 1, 2, 2⟩ [2] 1 :=
    ⟨2, ⟨[], Hold.zero.copy [2, 3, 4], 1, 2, 3⟩, 1, by simpa [readLoop] using htake1, rfl, rfl⟩
  have h3 : Reads ⟨[], Hold.zero.copy [2, 3, 4], 1, 2, 2⟩ 2
      ⟨[], Hold.zero.copy [2, 3, 4], 0, 0, 0⟩ [2, 3] 2 :=
    ⟨2, ⟨[], Hold.zero.copy [2, 3, 4], 0, 0, 2⟩, 2, by simpa [readLoop] using htake2, rfl, rfl⟩
  refine ⟨⟨some ⟨[], Hold.zero.copy [2, 3, 4], 0, 0, 0⟩, [1, 2, 2, 3], [1, 2, 3, 4]⟩, ?_, ?_⟩
  · have hfeed := Step.feed tris_slinfactory_init [] [] fourSamples true
    exact Trace.cons hfeed (Trace.cons (.read h1) (Trace.cons (.read h2) (Trace.single (.read h3))))
  · rintro ⟨sf, hsf, hall, -⟩
    obtain rfl := Option.some.inj hsf
    simp [TrisSlinfactory.held] at hall

end Slinfactory

end Trismedia
