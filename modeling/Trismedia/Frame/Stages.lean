import Trismedia.Frame.Blocks
/-!
# The stages of `tris_frisolate`

The header, the source and the payload are made one after the other, each
in a new block or moved to the output. Where a stage clears what it moved,
the output must not be the input: `Header`, `Source` and `Payload` say what
a stage gives, and the lemmas when it gives it.
-/


namespace Trismedia

namespace Frame

open Memory (Block Allocator load store strFrom StrAt)

/-- A frame that is in use: its header, its source and its payload stand in
memory, what it marks is in a block of its own, and no block is marked twice. -/
structure FrameOk (s : State) (a : Addr) : Prop where
  header : InUse s ⟨a, sizeofFrame⟩
  hdr : (s.frames a).mallocd.hdr = true → ∃ n, sizeofFrame ≤ n ∧ Live s a n
  source : (s.frames a).src ≠ 0 → ∃ l : CString, StrAt s.bytes (s.frames a).src l ∧
    InUse s ⟨(s.frames a).src, l.length + 1⟩ ∧
    ((s.frames a).mallocd.src = true → ∃ n, l.length + 1 ≤ n ∧ Live s (s.frames a).src n)
  payload : (s.frames a).datalen ≠ 0 → (s.frames a).data ≠ 0 ∧
    InUse s ⟨(s.frames a).data, (s.frames a).datalen⟩
  block : (s.frames a).mallocd.data = true → (s.frames a).data ≠ 0 →
    ∃ n, Live s ((s.frames a).data - (s.frames a).offset) n ∧
      ((s.frames a).datalen ≠ 0 → Block.Within ⟨(s.frames a).data, (s.frames a).datalen⟩
        ⟨(s.frames a).data - (s.frames a).offset, n⟩)
  nodup : (owned s a).Nodup

/-! ## The header -/

/-- The fields of a new header. -/
def newHeader (f : TrisFrame) (hdrLen : ℕ) (mallocd : Mallocd) : TrisFrame :=
  { zeroed with
    frametype := f.frametype
    subclass := f.subclass
    datalen := f.datalen
    samples := f.samples
    mallocd := mallocd
    mallocdHdrLen := hdrLen
    offset := f.offset
    flags := ⟨f.flags.hasTimingInfo, false, false⟩
    ts := if f.flags.hasTimingInfo then f.ts else 0
    len := if f.flags.hasTimingInfo then f.len else 0
    seqno := if f.flags.hasTimingInfo then f.seqno else 0 }

variable {A : Allocator} {s s' : State} {a out p : Addr}

theorem isolateHeader_new (hs : MemOk s) (ha : InUse s ⟨a, sizeofFrame⟩)
    (hh : (s.frames a).mallocd.hdr = false) (h : isolateHeader A s a = some (out, s')) :
    ∃ m, sizeofFrame ≤ m ∧ Took s out m s' ∧ a ≠ out ∧ s'.frames a = s.frames a ∧
      ∃ len mallocd, s'.frames out = newHeader (s.frames a) len mallocd := by
  rw [isolateHeader, if_pos hh] at h
  obtain ⟨⟨q, s₁⟩, hq, heq⟩ := Option.map_eq_some_iff.1 h
  obtain ⟨m, hm, htook, len, mallocd, hzero⟩ := trisFrameHeaderNew_took hs hq
  have hne : a ≠ q := htook.header_ne (Nat.lt_of_lt_of_le (by decide) hm) ha
  have hfa : s₁.frames a = s.frames a := htook.frames a hne
  dsimp only at heq
  obtain ⟨rfl, hs'⟩ := Prod.ext_iff.1 heq
  dsimp only at hs'
  refine ⟨m, hm, ?_, hne, ?_, len, mallocd, ?_⟩
  · rw [← hs']
    split
    · exact (htook.setFrame _).setFrame _
    · exact htook.setFrame _
  · rw [← hs']
    split
    · exact (if_neg hne).trans ((if_neg hne).trans hfa)
    · exact (if_neg hne).trans hfa
  · rw [← hs']
    simp only [State.setFrame, if_neg hne, hfa, hzero, if_pos]
    by_cases ht : (s.frames a).flags.hasTimingInfo = true
    · simp only [if_pos ht, if_pos, newHeader, zeroed]
    · simp only [if_neg ht, if_pos, newHeader, zeroed]

theorem isolateHeader_own (hh : (s.frames a).mallocd.hdr = true)
    (h : isolateHeader A s a = some (out, s')) :
    out = a ∧ s' = s.setFrame a { s.frames a with
      flags := ⟨(s.frames a).flags.hasTimingInfo, false, false⟩ } := by
  rw [isolateHeader, if_neg (by rw [hh]; exact Bool.noConfusion)] at h
  obtain ⟨rfl, rfl⟩ := Prod.ext_iff.1 (Option.some.inj h)
  exact ⟨rfl, rfl⟩

/-! ## The source -/

/-- **The source of the frame at `a` stands at `q`**, for the output `out`,
and the frame has none that is marked. -/
structure Source (s : State) (a out : Addr) (ps : List Addr) (q : Addr) (s' : State) : Prop
    extends Grown s ps s' where
  out_eq : ∃ mallocd, s'.frames out = { s.frames out with src := q, mallocd := mallocd }
  frame_eq : ∃ src, s'.frames a = { s.frames a with
    src := src, mallocd := { (s.frames a).mallocd with src := false } }
  null : (s.frames a).src = 0 → q = 0 ∧ ps = []
  string : ∀ l, (s.frames a).src ≠ 0 → StrAt s.bytes (s.frames a).src l →
    InUse s ⟨(s.frames a).src, l.length + 1⟩ →
    ((s.frames a).mallocd.src = true → ∃ n, l.length + 1 ≤ n ∧ Live s (s.frames a).src n) →
    q ≠ 0 ∧ StrAt s'.bytes q l ∧ ∃ n, l.length + 1 ≤ n ∧ Live s' q n
  origin : (s.frames a).src ≠ 0 →
    ((s.frames a).mallocd.src = true ∧ q = (s.frames a).src ∧ ps = []) ∨
    ((s.frames a).mallocd.src = false ∧ ps = [q])

/-- Strings that are in use end before memory does. -/
theorem strAt_eq (hin : ∀ b ∈ s.used, b.base + b.size ≤ s.top) {l : CString}
    (hl : StrAt s.bytes p l) (hu : InUse s ⟨p, l.length + 1⟩) : s.strAt p = l := by
  obtain ⟨c, hc, -, -, hle⟩ := hu
  have hend := hin c hc
  exact hl.strFrom_eq (by dsimp only at hle; omega)

/-- What is copied stands in the new block. -/
theorem strdup_spec (hc : CacheLive s) {q : Addr} (h : s.strdup A p = some (q, s')) :
    Took s q ((s.strAt p).length + 1) s' ∧ s'.frames = s.frames ∧
      load s'.bytes q ((s.strAt p).length + 1) = s.strAt p ++ [0] := by
  rw [State.strdup, Option.map_eq_some_iff] at h
  obtain ⟨⟨r, s₁⟩, hr, heq⟩ := h
  obtain ⟨rfl, rfl⟩ := Prod.ext_iff.1 heq
  obtain ⟨htook, hframes, -, -⟩ := State.malloc_took hc hr
  have hlen : (s.strAt p ++ [(0 : CChar)]).length = (s.strAt p).length + 1 := by
    rw [List.length_append, List.length_singleton]
  have hload : load (store s₁.bytes r (s.strAt p ++ [0])) r ((s.strAt p).length + 1) =
      s.strAt p ++ [0] := by
    rw [← hlen]
    exact Memory.load_store _ _ _
  exact ⟨htook.write (hlen ▸ Block.Within.refl _), hframes, hload⟩

theorem isolateSrc_copied (hc : CacheLive s) (hin : ∀ b ∈ s.used, b.base + b.size ≤ s.top)
    (hm : (s.frames a).mallocd.src = false) (hn : (s.frames a).src ≠ 0)
    (h : isolateSrc A s a out = (s', true)) : ∃ q, Source s a out [q] q s' := by
  rw [isolateSrc, if_pos ⟨hm, hn⟩] at h
  split at h
  · rename_i q s₁ hq
    obtain ⟨htook, hframes, hload⟩ := strdup_spec hc hq
    have hs' := (Prod.ext_iff.1 h).1
    dsimp only at hs'
    have hsame : ({ s.frames a with mallocd := { (s.frames a).mallocd with src := false } } :
        TrisFrame) = s.frames a := by
      rw [← hm]
    refine ⟨q, hs' ▸ htook.toGrown.setFrame _ _, ⟨(s.frames out).mallocd, ?_⟩, ?_,
      fun h0 => absurd h0 hn, ?_, fun _ => Or.inr ⟨hm, rfl⟩⟩
    · rw [← hs', ← hframes]
      exact if_pos rfl
    · rw [← hs']
      by_cases ha : a = out
      · refine ⟨q, ?_⟩
        rw [← hm, ← hframes, ← ha]
        exact if_pos rfl
      · refine ⟨(s.frames a).src, ?_⟩
        rw [← hm, ← hframes]
        exact if_neg ha
    · intro l _ hl hu _
      have hstr := strAt_eq hin hl hu
      have hlive : Live s' q (l.length + 1) := by
        rw [← hs', ← hstr]
        exact htook.block
      refine ⟨htook.ne_zero, ⟨?_, hl.2⟩, l.length + 1, Nat.le_refl _, hlive⟩
      rw [← hs', ← hstr]
      exact hload
  · exact Bool.noConfusion (Prod.ext_iff.1 h).2

theorem isolateSrc_moved (hm : (s.frames a).mallocd.src = true ∨ (s.frames a).src = 0) :
    isolateSrc A s a out =
      ((s.setFrame out { s.frames out with src := (s.frames a).src }).setFrame a
        { (s.setFrame out { s.frames out with src := (s.frames a).src }).frames a with
          src := 0
          mallocd := { ((s.setFrame out { s.frames out with src := (s.frames a).src }).frames
            a).mallocd with src := false } }, true) := by
  rw [isolateSrc, if_neg]
  rintro ⟨h₁, h₂⟩
  rcases hm with h | h
  · exact Bool.noConfusion (h₁.symm.trans h)
  · exact h₂ h

/-- **A source is moved** to another frame, or it was null. -/
theorem Source.moved (hm : (s.frames a).mallocd.src = true ∨ (s.frames a).src = 0)
    (hne : a ≠ out ∨ (s.frames a).src = 0) (h : isolateSrc A s a out = (s', true)) :
    Source s a out [] (s.frames a).src s' := by
  rw [isolateSrc_moved hm] at h
  have hs' := (Prod.ext_iff.1 h).1
  dsimp only at hs'
  have hgrown : Grown s [] s' := by
    rw [← hs']
    exact ((Grown.refl s).setFrame _ _).setFrame _ _
  have hbytes : s'.bytes = s.bytes := by
    rw [← hs']
    rfl
  refine ⟨hgrown, ?_, ?_, fun h0 => ⟨h0, rfl⟩, ?_, ?_⟩
  · rw [← hs']
    by_cases ha : out = a
    · have h0 : (s.frames a).src = 0 := hne.resolve_left fun hx => hx ha.symm
      refine ⟨{ (s.frames a).mallocd with src := false }, ?_⟩
      rw [ha]
      refine (if_pos rfl).trans ?_
      simp only [State.setFrame, if_pos, h0]
    · refine ⟨(s.frames out).mallocd, (if_neg ha).trans ?_⟩
      exact if_pos rfl
  · rw [← hs']
    refine ⟨0, (if_pos rfl).trans ?_⟩
    by_cases ha : a = out
    · subst ha
      simp only [State.setFrame, if_pos]
    · simp only [State.setFrame, if_neg ha]
  · intro l hn hl _ hblock
    obtain ⟨n, hle, hlive⟩ := hblock (hm.resolve_right hn)
    exact ⟨hn, hbytes ▸ hl, n, hle, hgrown.live hlive⟩
  · exact fun hn => Or.inl ⟨hm.resolve_right hn, rfl, rfl⟩

/-! ## The payload -/

/-- **The payload of the frame at `a` stands at `d`**, `o` bytes into its
block, and what the frame at `a` had marked is marked in the output. -/
structure Payload (s : State) (a out : Addr) (ps : List Addr) (d o : ℕ) (m : Mallocd) (s' : State) :
    Prop extends Grown s ps s' where
  out_eq : s'.frames out = { s.frames out with
    data := d, offset := o, mallocd := m, datalen := (s.frames out).datalen }
  frame_mallocd : a ≠ out → (s'.frames a).mallocd = { (s.frames a).mallocd with data := false }
  marks : m.hdr = true ∧ m.src = true
  inline : (s.frames a).datalen = 0 → d % 4294967296 = (s.frames a).uint32
  payload : (s.frames a).datalen ≠ 0 → InUse s ⟨(s.frames a).data, (s.frames a).datalen⟩ →
    Memory.load s'.bytes d (s.frames a).datalen =
      Memory.load s.bytes (s.frames a).data (s.frames a).datalen
  block : (s.frames a).datalen ≠ 0 →
    ((s.frames a).mallocd.data = true → (s.frames a).data ≠ 0 ∧
      ∃ n, Live s ((s.frames a).data - (s.frames a).offset) n ∧
        Block.Within ⟨(s.frames a).data, (s.frames a).datalen⟩
          ⟨(s.frames a).data - (s.frames a).offset, n⟩) →
    m.data = true ∧ d ≠ 0 ∧ ∃ n, Live s' (d - o) n ∧
      Block.Within ⟨d, (s.frames a).datalen⟩ ⟨d - o, n⟩
  origin : m.data = true → d ≠ 0 →
    ((s.frames a).mallocd.data = true ∧ (s.frames a).data ≠ 0 ∧
      d - o = (s.frames a).data - (s.frames a).offset ∧ ps = []) ∨
    (ps = [d - o] ∧ ∃ n, Live s' (d - o) n)
  kept : (s.frames a).mallocd.data = true → (s.frames a).data ≠ 0 →
    m.data = true ∧ d = (s.frames a).data ∧ o = (s.frames a).offset
  taken : ps ≠ [] → m.data = true ∧ d ≠ 0

theorem setUint32_mod (data : ℕ) (f : TrisFrame) :
    setUint32 data f.uint32 % 4294967296 = f.uint32 := by
  have hlt : f.uint32 < 4294967296 := Nat.mod_lt _ (by omega)
  rw [setUint32]
  omega

/-- A frame without a payload hands on the number in its place. -/
theorem Payload.inlined (hm : (s.frames a).mallocd.data = false) (hn : (s.frames a).datalen = 0)
    {p : Option Addr} (h : isolateData A s a out = (p, s')) :
    ∃ d o m, Payload s a out [] d o m s' := by
  rw [isolateData, if_pos hm, if_pos hn] at h
  have hs' := (Prod.ext_iff.1 h).2
  dsimp only at hs'
  refine ⟨setUint32 (s.frames out).data (s.frames a).uint32, (s.frames out).offset,
    ⟨true, false, true⟩, hs' ▸ (Grown.refl s).setFrame _ _, ?_, ?_, ⟨rfl, rfl⟩,
    fun _ => setUint32_mod _ _, fun h0 => absurd hn h0, fun h0 => absurd hn h0,
    fun h0 => Bool.noConfusion h0, fun h0 => Bool.noConfusion (hm.symm.trans h0),
    fun h0 => absurd rfl h0⟩
  · rw [← hs']
    exact if_pos rfl
  · intro ha
    rw [← hs']
    refine (congrArg TrisFrame.mallocd (if_neg ha)).trans ?_
    rw [← hm]

/-- A payload is copied to a block with room before it. -/
theorem Payload.copied (hc : CacheLive s) (hm : (s.frames a).mallocd.data = false)
    (hn : (s.frames a).datalen ≠ 0) (hlen : (s.frames out).datalen = (s.frames a).datalen)
    (h : isolateData A s a out = (some p, s')) : ∃ q d o m, Payload s a out [q] d o m s' := by
  rw [isolateData, if_pos hm, if_neg hn] at h
  rcases hq : s.malloc A ((s.frames a).datalen + friendlyOffset) with _ | ⟨q, s₁⟩
  · rw [hq] at h
    dsimp only at h
    exact absurd (Prod.ext_iff.1 h).1 (Option.some_ne_none p).symm
  · obtain ⟨htook, hframes, hbytes, -⟩ := State.malloc_took hc hq
    rw [hq] at h
    dsimp only at h
    have hs' := (Prod.ext_iff.1 h).2
    dsimp only at hs'
    rw [hframes] at hs'
    -- storing the offset and the length changes neither where the payload is nor its length
    have hdata : ((s₁.setFrame out { s.frames out with
        offset := friendlyOffset, datalen := (s.frames a).datalen }).frames a).data =
          (s.frames a).data := by
      rw [setFrame_field s₁ out _ TrisFrame.data (by rw [hframes]) a, hframes]
    have hdatalen : ((s₁.setFrame out { s.frames out with
        offset := friendlyOffset, datalen := (s.frames a).datalen }).frames a).datalen =
          (s.frames a).datalen := by
      rw [setFrame_field s₁ out _ TrisFrame.datalen (by rw [hframes]; exact hlen.symm) a, hframes]
    rw [hdata, hdatalen] at hs'
    have hlength : (load s.bytes (s.frames a).data (s.frames a).datalen).length =
        (s.frames a).datalen := Memory.load_length
    have hw : Block.Within ⟨q + friendlyOffset, (load s.bytes (s.frames a).data
        (s.frames a).datalen).length⟩ ⟨q, (s.frames a).datalen + friendlyOffset⟩ := by
      rw [hlength]
      exact ⟨by dsimp only; omega, by dsimp only; omega⟩
    have hgrown : Grown s [q] s' := by
      rw [← hs']
      have htook' := (htook.write hw).toGrown
      rw [← hbytes] at htook'
      exact ((htook'.setFrame _ _).setFrame _ _)
    have hlive : Live s' (q + friendlyOffset - friendlyOffset)
        ((s.frames a).datalen + friendlyOffset) := by
      rw [← hs', Nat.add_sub_cancel]
      exact htook.block
    refine ⟨q, q + friendlyOffset, friendlyOffset, ⟨true, true, true⟩, hgrown, ?_, ?_,
      ⟨rfl, rfl⟩, fun h0 => absurd h0 hn, ?_, ?_, ?_,
      fun h0 => Bool.noConfusion (hm.symm.trans h0), fun _ => ⟨rfl, Nat.succ_ne_zero _⟩⟩
    · rw [← hs']
      refine (if_pos rfl).trans ?_
      simp only [State.setFrame, State.write, if_pos, hlen]
    · intro ha
      rw [← hs']
      refine (congrArg TrisFrame.mallocd ((if_neg ha).trans (if_neg ha))).trans ?_
      rw [hframes, ← hm]
    · intro _ _
      rw [← hs', ← hlength]
      simp only [State.setFrame, State.write, hbytes]
      rw [hlength]
      have hread := Memory.load_store s₁.bytes (q + friendlyOffset)
        (load s.bytes (s.frames a).data (s.frames a).datalen)
      rw [hlength, hbytes] at hread
      exact hread
    · intro _ _
      refine ⟨rfl, Nat.succ_ne_zero _, _, hlive, ?_⟩
      exact ⟨by dsimp only; omega, by dsimp only; omega⟩
    · intro _ _
      refine Or.inr ⟨?_, _, hlive⟩
      rw [Nat.add_sub_cancel]

/-- **A marked payload is moved** to another frame. -/
theorem Payload.moved (hm : (s.frames a).mallocd.data = true)
    (hoff : (s.frames out).offset = (s.frames a).offset)
    (hne : a ≠ out ∨ (s.frames a).data = 0) {p : Option Addr}
    (h : isolateData A s a out = (p, s')) :
    Payload s a out [] (s.frames a).data (s.frames a).offset ⟨true, true, true⟩ s' := by
  rw [isolateData, if_neg (by rw [hm]; exact Bool.noConfusion)] at h
  have hs' := (Prod.ext_iff.1 h).2
  dsimp only at hs'
  have hgrown : Grown s [] s' := by
    rw [← hs']
    exact (((Grown.refl s).setFrame _ _).setFrame _ _).setFrame _ _
  have hbytes : s'.bytes = s.bytes := by
    rw [← hs']
    rfl
  refine ⟨hgrown, ?_, ?_, ⟨rfl, rfl⟩, fun _ => rfl, fun _ _ => by rw [hbytes], ?_, ?_,
    fun _ _ => ⟨rfl, rfl, rfl⟩, fun h0 => absurd rfl h0⟩
  · rw [← hs']
    refine (if_pos rfl).trans ?_
    by_cases ha : out = a
    · subst ha
      have h0 : (s.frames out).data = 0 := hne.resolve_left fun hx => hx rfl
      simp only [State.setFrame, if_pos, h0]
    · simp only [State.setFrame, if_neg ha, if_pos, hoff]
  · intro ha
    rw [← hs']
    simp only [State.setFrame, if_neg ha, if_pos]
  · intro _ hblock
    obtain ⟨h0, n, hlive, hw⟩ := hblock hm
    exact ⟨rfl, h0, n, hgrown.live hlive, hw⟩
  · exact fun _ h0 => Or.inl ⟨hm, h0, rfl, rfl⟩

end Frame

end Trismedia
