import Trismedia.Frame.Dup
/-!
# When `tris_frisolate` isolates

A stage that moves what is marked clears it at the input. Where the input
is the output it clears what it has just moved: the source is forgotten, or
the payload, and no frame owns the block any more. A new header has none of
the fields that are not copied. In all other cases the three stages give
the frame as it was.
-/


namespace Trismedia

namespace Frame

open Memory (Block Allocator load store strFrom StrAt)

variable {A : Allocator} {s s₁ s₂ s' : State} {a out p q : Addr} {qs : List Addr}

/-- A payload stage, where it can be done without loss. -/
theorem payload_stage (hc : CacheLive s₂) (hoff : (s₂.frames out).offset = (s₂.frames a).offset)
    (hlen : (s₂.frames out).datalen = (s₂.frames a).datalen)
    (hne : (s₂.frames a).mallocd.data = true → a ≠ out ∨ (s₂.frames a).data = 0)
    (h : isolateData A s₂ a out = (some out, s')) :
    ∃ rs d o m, Payload s₂ a out rs d o m s' := by
  by_cases hm : (s₂.frames a).mallocd.data = true
  · exact ⟨_, _, _, _, Payload.moved hm hoff (hne hm) h⟩
  · have hm' : (s₂.frames a).mallocd.data = false := Bool.eq_false_iff.2 hm
    by_cases hn : (s₂.frames a).datalen = 0
    · obtain ⟨d, o, m, hp⟩ := Payload.inlined hm' hn h
      exact ⟨_, d, o, m, hp⟩
    · obtain ⟨r, d, o, m, hp⟩ := Payload.copied hc hm' hn hlen h
      exact ⟨_, d, o, m, hp⟩

/-- A source stage, where it can be done without loss. -/
theorem source_stage (hc : CacheLive s₁) (hin : ∀ b ∈ s₁.used, b.base + b.size ≤ s₁.top)
    (hne : (s₁.frames a).mallocd.src = true → a ≠ out ∨ (s₁.frames a).src = 0)
    (h : isolateSrc A s₁ a out = (s₂, true)) : ∃ qs q, Source s₁ a out qs q s₂ := by
  by_cases hn : (s₁.frames a).src = 0
  · exact ⟨_, _, Source.moved (Or.inr hn) (Or.inr hn) h⟩
  · by_cases hm : (s₁.frames a).mallocd.src = true
    · exact ⟨_, _, Source.moved (Or.inl hm) (hne hm) h⟩
    · obtain ⟨q, hq⟩ := isolateSrc_copied hc hin (Bool.eq_false_iff.2 hm) hn h
      exact ⟨_, q, hq⟩

theorem isolateData_out (h : isolateData A s a out = (some p, s')) : p = out := by
  unfold isolateData at h
  split at h
  · split at h
    · exact (Option.some.inj (Prod.ext_iff.1 h).1).symm
    · rcases hq : s.malloc A ((s.frames a).datalen + friendlyOffset) with _ | ⟨q, s₁⟩
      · rw [hq] at h
        exact absurd (Prod.ext_iff.1 h).1 (Option.some_ne_none p).symm
      · rw [hq] at h
        exact (Option.some.inj (Prod.ext_iff.1 h).1).symm
  · exact (Option.some.inj (Prod.ext_iff.1 h).1).symm

/-- The three stages of a frame that has a mark, but not all. -/
theorem trisFrisolate_stages (hnone : (s.frames a).mallocd ≠ ⟨false, false, false⟩)
    (hall : (s.frames a).mallocd ≠ ⟨true, true, true⟩)
    (h : trisFrisolate A s a = (some out, s')) :
    ∃ s₁ s₂, isolateHeader A s a = some (out, s₁) ∧ isolateSrc A s₁ a out = (s₂, true) ∧
      isolateData A s₂ a out = (some out, s') := by
  rw [trisFrisolate, if_neg hnone, if_neg hall] at h
  rcases hh : isolateHeader A s a with _ | ⟨o, s₁⟩
  · rw [hh] at h
    exact absurd (Prod.ext_iff.1 h).1 (Option.some_ne_none out).symm
  · rw [hh] at h
    dsimp only at h
    rcases hsrc : isolateSrc A s₁ a o with ⟨s₂, b⟩
    rw [hsrc] at h
    cases b with
    | false => exact absurd (Prod.ext_iff.1 h).1 (Option.some_ne_none out).symm
    | true =>
      have ho : out = o := isolateData_out h
      rw [← ho] at hsrc h ⊢
      exact ⟨s₁, s₂, rfl, hsrc, h⟩

/-- **With a new header** nothing is lost but the fields that are not copied. -/
theorem isolated_newHeader (hs : MemOk s) (ha : FrameOk s a)
    (hh : (s.frames a).mallocd.hdr = false) (h₁ : isolateHeader A s a = some (out, s₁))
    (h₂ : isolateSrc A s₁ a out = (s₂, true)) (h₃ : isolateData A s₂ a out = (some out, s')) :
    Isolated s a s' out ↔ (s.frames a).delivery = ⟨0, 0⟩ ∧
      ((s.frames a).flags.hasTimingInfo = true ∨
        (s.frames a).ts = 0 ∧ (s.frames a).len = 0 ∧ (s.frames a).seqno = 0) := by
  have hin : ∀ b ∈ s.used, b.base + b.size ≤ s.top := fun b hb => (hs.inside b hb).2
  obtain ⟨m, hm, htook, hne, hframe, len, mallocd, hout⟩ := isolateHeader_new hs ha.header hh h₁
  obtain ⟨qs, q, hsource⟩ := source_stage (htook.cacheLive hs.cacheLive) (htook.inside hin)
    (fun _ => Or.inl hne) h₂
  obtain ⟨src, hsrc⟩ := hsource.frame_eq
  obtain ⟨mallocd', hout₂⟩ := hsource.out_eq
  have hoff : (s₂.frames out).offset = (s₂.frames a).offset := by
    rw [hout₂, hsrc, hout, hframe]
    rfl
  have hlen : (s₂.frames out).datalen = (s₂.frames a).datalen := by
    rw [hout₂, hsrc, hout, hframe]
    rfl
  obtain ⟨rs, d, o, marks, hpayload⟩ :=
    payload_stage (hsource.cacheLive (htook.cacheLive hs.cacheLive)) hoff hlen
      (fun _ => Or.inl hne) h₃
  have hmade : Made s a out [out] s₁ qs q s₂ rs d o marks s' :=
    ⟨htook.toGrown, ⟨(s.frames a).flags, hframe⟩, ⟨m, hm, htook.block⟩, Or.inr ⟨hne, hh, rfl⟩,
      by rw [hout]; rfl, hsource, hpayload⟩
  constructor
  · intro hiso
    have hg := hmade.output
    have hdelivery := hiso.same.delivery
    have hts := hiso.same.ts
    have hlen := hiso.same.len
    have hseqno := hiso.same.seqno
    rw [hg, hout] at hdelivery hts hlen hseqno
    refine ⟨hdelivery.symm, ?_⟩
    by_cases ht : (s.frames a).flags.hasTimingInfo = true
    · exact Or.inl ht
    · have hf : ∀ x : ℤ, (if (s.frames a).flags.hasTimingInfo = true then x else 0) = 0 :=
        fun x => if_neg ht
      exact Or.inr ⟨hts.symm.trans (hf _), hlen.symm.trans (hf _), hseqno.symm.trans (hf _)⟩
  · rintro ⟨hdelivery, htime⟩
    have hkept : ∀ x : ℤ, (s.frames a).flags.hasTimingInfo = true ∨ x = 0 →
        (if (s.frames a).flags.hasTimingInfo = true then x else 0) = x := by
      intro x hx
      by_cases ht : (s.frames a).flags.hasTimingInfo = true
      · exact if_pos ht
      · exact (if_neg ht).trans (hx.resolve_left ht).symm
    refine hmade.isolated hin ha ?_ ?_
    · rw [hout]
      exact ⟨rfl, rfl, rfl, rfl⟩
    · rw [hout]
      exact ⟨hdelivery.symm, hkept _ (htime.imp_right fun h => h.1),
        hkept _ (htime.imp_right fun h => h.2.1), hkept _ (htime.imp_right fun h => h.2.2)⟩

/-- The own header of the frame, at which the stages begin. -/
theorem ownHeader_spec (hh : (s.frames a).mallocd.hdr = true)
    (h₁ : isolateHeader A s a = some (out, s₁)) :
    out = a ∧ Grown s [] s₁ ∧ s₁.frames a = { s.frames a with
      flags := ⟨(s.frames a).flags.hasTimingInfo, false, false⟩ } := by
  obtain ⟨hout, hs₁⟩ := isolateHeader_own hh h₁
  rw [hs₁]
  exact ⟨hout, (Grown.refl s).setFrame _ _, setFrame_self _ _ _⟩

/-- **With its own header** a frame keeps all, if what it marks is null. -/
theorem isolated_ownHeader (hs : MemOk s) (ha : FrameOk s a)
    (hh : (s.frames a).mallocd.hdr = true)
    (hsrc : (s.frames a).mallocd.src = true → (s.frames a).src = 0)
    (hdata : (s.frames a).mallocd.data = true → (s.frames a).data = 0)
    (h₁ : isolateHeader A s a = some (out, s₁)) (h₂ : isolateSrc A s₁ a out = (s₂, true))
    (h₃ : isolateData A s₂ a out = (some out, s')) : Isolated s a s' out := by
  have hin : ∀ b ∈ s.used, b.base + b.size ≤ s.top := fun b hb => (hs.inside b hb).2
  obtain ⟨hout, hgrown, hframe⟩ := ownHeader_spec hh h₁
  subst hout
  obtain ⟨n, hn, hlive⟩ := ha.hdr hh
  obtain ⟨qs, q, hsource⟩ := source_stage (hgrown.cacheLive hs.cacheLive) (hgrown.inside hin)
    (by rw [hframe]; exact fun hm => Or.inr (hsrc hm)) h₂
  obtain ⟨src, hf⟩ := hsource.frame_eq
  obtain ⟨rs, d, o, marks, hpayload⟩ :=
    payload_stage (hsource.cacheLive (hgrown.cacheLive hs.cacheLive)) rfl rfl
      (by rw [hf, hframe]; exact fun hm => Or.inr (hdata hm)) h₃
  have hmade : Made s out out [] s₁ qs q s₂ rs d o marks s' :=
    ⟨hgrown, ⟨_, hframe⟩, ⟨n, hn, hgrown.live hlive⟩, Or.inl ⟨rfl, hh, rfl⟩, by rw [hframe],
      hsource, hpayload⟩
  refine hmade.isolated hin ha ?_ ?_
  · rw [hframe]
    exact ⟨rfl, rfl, rfl, rfl⟩
  · rw [hframe]
    exact ⟨rfl, rfl, rfl, rfl⟩

/-- **A marked source that is moved to its own frame is forgotten.** -/
theorem not_isolated_source (hs : MemOk s) (ha : FrameOk s a)
    (hh : (s.frames a).mallocd.hdr = true) (hm : (s.frames a).mallocd.src = true)
    (hd : (s.frames a).mallocd.data = false) (hn : (s.frames a).src ≠ 0)
    (h₁ : isolateHeader A s a = some (out, s₁)) (h₂ : isolateSrc A s₁ a out = (s₂, true))
    (h₃ : isolateData A s₂ a out = (some out, s')) : ¬Isolated s a s' out := by
  intro hiso
  have hin : ∀ b ∈ s.used, b.base + b.size ≤ s.top := fun b hb => (hs.inside b hb).2
  obtain ⟨hout, hgrown, hframe⟩ := ownHeader_spec hh h₁
  subst hout
  have hm₁ : (s₁.frames out).mallocd.src = true := by rw [hframe]; exact hm
  rw [isolateSrc_moved (Or.inl hm₁)] at h₂
  have hs₂ := (Prod.ext_iff.1 h₂).1
  dsimp only at hs₂
  have hsrc₂ : (s₂.frames out).src = 0 := by
    rw [← hs₂, setFrame_self]
  have hdata₂ : (s₂.frames out).mallocd.data = false := by
    rw [← hs₂, setFrame_self, setFrame_self, hframe]
    exact hd
  have hcache : CacheLive s₂ := by
    rw [← hs₂]
    exact hgrown.cacheLive hs.cacheLive
  obtain ⟨rs, d, o, marks, hpayload⟩ := payload_stage hcache rfl rfl
    (fun hx => Bool.noConfusion (hdata₂.symm.trans hx)) h₃
  have hlost : srcString s' (s'.frames out) = none := by
    refine if_pos ?_
    rw [hpayload.out_eq]
    exact hsrc₂
  obtain ⟨l, hl, hu, -⟩ := ha.source hn
  have hsome := source_eq hin hn hl hu
  exact absurd (hsome.symm.trans (hiso.same.source.symm.trans hlost)) (Option.some_ne_none l)

/-- **A marked payload that is moved to its own frame has no owner any more.** -/
theorem not_isolated_payload (hs : MemOk s) (ha : FrameOk s a)
    (hh : (s.frames a).mallocd.hdr = true) (hm : (s.frames a).mallocd.src = false)
    (hd : (s.frames a).mallocd.data = true) (hn : (s.frames a).data ≠ 0)
    (h₁ : isolateHeader A s a = some (out, s₁)) (h₂ : isolateSrc A s₁ a out = (s₂, true))
    (h₃ : isolateData A s₂ a out = (some out, s')) : ¬Isolated s a s' out := by
  intro hiso
  have hin : ∀ b ∈ s.used, b.base + b.size ≤ s.top := fun b hb => (hs.inside b hb).2
  obtain ⟨hout, hgrown, hframe⟩ := ownHeader_spec hh h₁
  subst hout
  obtain ⟨qs, q, hsource⟩ := source_stage (hgrown.cacheLive hs.cacheLive) (hgrown.inside hin)
    (by rw [hframe]; exact fun hx => Bool.noConfusion (hm.symm.trans hx)) h₂
  obtain ⟨mallocd, hout₂⟩ := hsource.out_eq
  obtain ⟨src, hf⟩ := hsource.frame_eq
  have hd₂ : (s₂.frames out).mallocd.data = true := by rw [hf, hframe]; exact hd
  rw [isolateData, if_neg (by rw [hd₂]; exact Bool.noConfusion)] at h₃
  have hs' := (Prod.ext_iff.1 h₃).2
  dsimp only at hs'
  have hzero : (s'.frames out).data = 0 := by
    rw [← hs', setFrame_self, setFrame_self]
  have hq : (s'.frames out).src = q := by
    rw [← hs', setFrame_self, setFrame_self, setFrame_self, hout₂]
  have hblock : (s.frames out).data - (s.frames out).offset ∈ owned s out :=
    mem_owns.2 (Or.inl ⟨hd, hn, rfl⟩)
  obtain ⟨n, hlive⟩ := ha.owned_live _ hblock
  have hlive₁ := hgrown.live hlive
  have hheap : ⟨(s.frames out).data - (s.frames out).offset, n⟩ ∈ s'.heap := by
    rw [← hs']
    exact (hsource.toGrown.live hlive₁).1
  rcases hiso.owner _ n hheap (Or.inl hblock) with ⟨hmem, -⟩ | ⟨hx, -⟩
  · rcases mem_owns.1 hmem with ⟨-, h0, -⟩ | ⟨-, h0, heq⟩ | ⟨-, heq⟩
    · exact h0 hzero
    · rw [hq] at h0 heq
      have hsn : (s₁.frames out).src ≠ 0 := fun hx => h0 (hsource.null hx).1
      rcases hsource.origin hsn with ⟨hx, -⟩ | ⟨-, hqs⟩
      · rw [hframe] at hx
        exact Bool.noConfusion (hm.symm.trans hx)
      · refine hsource.toGrown.live_ne hlive₁ ?_
        rw [hqs, heq]
        exact List.mem_singleton_self q
    · exact (owns_nodup.1 ha.nodup).2.1 hd hn hh heq
  · exact hx rfl

/-- **`tris_frisolate` isolates a frame** exactly where it is `Isolable`. -/
theorem isolated_iff_isolable (hs : MemOk s) (ha : FrameOk s a)
    (h : trisFrisolate A s a = (some out, s')) : Isolated s a s' out ↔ Isolable s a := by
  have hin : ∀ b ∈ s.used, b.base + b.size ≤ s.top := fun b hb => (hs.inside b hb).2
  by_cases hnone : (s.frames a).mallocd = ⟨false, false, false⟩
  · rw [trisFrisolate, if_pos hnone] at h
    rw [isolated_dup hs ha hnone h]
    constructor
    · intro hne
      exact ⟨fun _ => hne, fun _ hx => absurd hnone hx,
        fun hx => absurd (hnone.symm.trans hx) (by decide),
        fun hx => absurd (hnone.symm.trans hx) (by decide)⟩
    · exact fun hi => hi.unmarked hnone
  · by_cases hall : (s.frames a).mallocd = ⟨true, true, true⟩
    · rw [trisFrisolate, if_neg hnone, if_pos hall] at h
      obtain ⟨hout, hs'⟩ := Prod.mk.inj h
      have hiso := isolated_all hin ha hall
      rw [← hs', ← Option.some.inj hout]
      refine ⟨fun _ => ⟨fun hx => absurd hx hnone, fun hx => ?_,
        fun hx => absurd (hall.symm.trans hx) (by decide),
        fun hx => absurd (hall.symm.trans hx) (by decide)⟩, fun _ => hiso⟩
      rw [hall] at hx
      exact Bool.noConfusion hx
    · obtain ⟨s₁, s₂, h₁, h₂, h₃⟩ := trisFrisolate_stages hnone hall h
      by_cases hh : (s.frames a).mallocd.hdr = true
      · have hmallocd : ∀ {b c : Bool}, (s.frames a).mallocd.data = b →
            (s.frames a).mallocd.src = c → (s.frames a).mallocd = ⟨true, b, c⟩ := by
          intro b c hb hc
          rw [← hh, ← hb, ← hc]
        -- not both of the source and the payload are marked
        have hnot : (s.frames a).mallocd.data = true → (s.frames a).mallocd.src = false :=
          fun hd => Bool.eq_false_iff.2 fun hm => hall (hmallocd hd hm)
        have hnot' : (s.frames a).mallocd.src = true → (s.frames a).mallocd.data = false :=
          fun hm => Bool.eq_false_iff.2 fun hd => hall (hmallocd hd hm)
        constructor
        · intro hiso
          refine ⟨fun hx => absurd hx hnone, fun hx => Bool.noConfusion (hh.symm.trans hx),
            fun hx => ?_, fun hx => ?_⟩
          · refine Decidable.byContradiction fun hn => ?_
            have hm : (s.frames a).mallocd.src = true := congrArg Mallocd.src hx
            exact not_isolated_source hs ha hh hm (hnot' hm) hn h₁ h₂ h₃ hiso
          · refine Decidable.byContradiction fun hn => ?_
            have hd : (s.frames a).mallocd.data = true := congrArg Mallocd.data hx
            exact not_isolated_payload hs ha hh (hnot hd) hd hn h₁ h₂ h₃ hiso
        · intro hi
          exact isolated_ownHeader hs ha hh (fun hm => hi.ownSource (hmallocd (hnot' hm) hm))
            (fun hd => hi.ownPayload (hmallocd hd (hnot hd))) h₁ h₂ h₃
      · have hh' : (s.frames a).mallocd.hdr = false := Bool.eq_false_iff.2 hh
        rw [isolated_newHeader hs ha hh' h₁ h₂ h₃]
        constructor
        · intro hx
          refine ⟨fun hy => absurd hy hnone, fun _ _ => hx, fun hy => ?_, fun hy => ?_⟩
          · exact absurd (congrArg Mallocd.hdr hy) hh
          · exact absurd (congrArg Mallocd.hdr hy) hh
        · exact fun hi => hi.newHeader hh' hnone

/-- A header from `malloc` at 16, with a payload of four bytes at 264, in a
block of its own, and no source. -/
def voice : TrisFrame :=
  { zeroed with
    frametype := 2
    datalen := 4
    samples := 4
    mallocd := ⟨true, true, false⟩
    mallocdHdrLen := sizeofFrame
    offset := 64
    data := 264 }

/-- The same payload with a header that is not from `malloc`. -/
def borrowed : TrisFrame := { voice with mallocd := ⟨false, true, false⟩ }

/-- A memory with one frame, at 16. -/
def lone (f : TrisFrame) (heap statics : List Block) : State where
  frames a := if a = 16 then f else zeroed
  bytes a := BitVec.ofNat 8 a
  heap := heap
  statics := statics
  cache := []
  top := 1024

theorem lone_memOk (f : TrisFrame) {heap statics : List Block}
    (hapart : ∀ b ∈ heap ++ statics, ∀ c ∈ heap ++ statics, b = c ∨ b.Apart c)
    (hin : ∀ b ∈ heap ++ statics, b.base ≠ 0 ∧ b.base + b.size ≤ 1024) :
    MemOk (lone f heap statics) :=
  ⟨hapart, hin, List.nodup_nil, fun _ hc => absurd hc List.not_mem_nil⟩

theorem borrowed_ok : FrameOk (lone borrowed [⟨200, 68⟩] [⟨16, 112⟩]) 16 where
  header := ⟨⟨16, 112⟩, by decide, by decide, by decide⟩
  hdr h := absurd h (by decide)
  source h := absurd rfl h
  payload _ := ⟨by decide, ⟨200, 68⟩, by decide, by decide, by decide⟩
  block _ _ := ⟨68, ⟨by decide, by decide⟩, fun _ => by decide⟩
  nodup := by decide

/-- A payload is moved to a new header. -/
theorem isolated_iff_isolable_borrowed :
    ∃ out s', trisFrisolate Memory.bump (lone borrowed [⟨200, 68⟩] [⟨16, 112⟩]) 16 =
      (some out, s') ∧ Isolated (lone borrowed [⟨200, 68⟩] [⟨16, 112⟩]) 16 s' out := by
  have hrun : trisFrisolate Memory.bump (lone borrowed [⟨200, 68⟩] [⟨16, 112⟩]) 16 =
      (some 269, (trisFrisolate Memory.bump (lone borrowed [⟨200, 68⟩] [⟨16, 112⟩]) 16).2) :=
    Prod.ext (by decide) rfl
  refine ⟨269, _, hrun, ?_⟩
  refine (isolated_iff_isolable (lone_memOk _ (by decide) (by decide)) borrowed_ok hrun).2 ?_
  exact ⟨fun h => absurd h (by decide), fun _ _ => ⟨by decide, Or.inr (by decide)⟩,
    fun h => absurd h (by decide), fun h => absurd h (by decide)⟩

theorem voice_ok : FrameOk (lone voice [⟨16, 112⟩, ⟨200, 68⟩] []) 16 where
  header := ⟨⟨16, 112⟩, by decide, by decide, by decide⟩
  hdr _ := ⟨112, by decide, by decide, by decide⟩
  source h := absurd rfl h
  payload _ := ⟨by decide, ⟨200, 68⟩, by decide, by decide, by decide⟩
  block _ _ := ⟨68, ⟨by decide, by decide⟩, fun _ => by decide⟩
  nodup := by decide

/-- **A frame whose header and payload are from `malloc` loses its payload.** -/
theorem not_isolated_voice :
    ¬∀ (A : Allocator) (s s' : State) (a out : Addr), MemOk s → FrameOk s a →
      trisFrisolate A s a = (some out, s') → Isolated s a s' out := by
  intro h
  have hiso := h Memory.bump (lone voice [⟨16, 112⟩, ⟨200, 68⟩] []) _ 16 16
    (lone_memOk _ (by decide) (by decide)) voice_ok rfl
  have hheap : (⟨200, 68⟩ : Block) ∈ (lone voice [⟨16, 112⟩, ⟨200, 68⟩] []).heap := by decide
  rcases hiso.owner 200 68 hheap (Or.inl (by decide)) with ⟨hmem, -⟩ | ⟨hx, -⟩
  · exact absurd hmem (by decide)
  · exact hx rfl

end Frame

end Trismedia
