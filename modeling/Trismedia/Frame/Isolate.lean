import Trismedia.Frame.Stages
/-!
# What `tris_frisolate` gives

The frame that comes back is to be the same frame, with all its parts from
`malloc`, and each block is to have one owner. It is so exactly where the
frame is `Isolable`: a frame that has its own header loses a source or a
payload that is marked, since it is cleared after it was moved to itself; a
frame that gets a new header loses the time of its delivery, and its
timestamps unless they are said to be valid; and one that has nothing
marked loses a source of no characters.
-/


namespace Trismedia

namespace Frame

open Memory (Block Allocator load StrAt)

/-- The source that a frame names. -/
def srcString (s : State) (f : TrisFrame) : Option CString :=
  if f.src = 0 then none else some (s.strAt f.src)

/-- The frame `g` of `s'` says what the frame `f` of `s` says. -/
structure SameFrame (s : State) (f : TrisFrame) (s' : State) (g : TrisFrame) : Prop where
  frametype : g.frametype = f.frametype
  subclass : g.subclass = f.subclass
  samples : g.samples = f.samples
  delivery : g.delivery = f.delivery
  timing : g.flags.hasTimingInfo = f.flags.hasTimingInfo
  ts : g.ts = f.ts
  len : g.len = f.len
  seqno : g.seqno = f.seqno
  source : srcString s' g = srcString s f
  datalen : g.datalen = f.datalen
  payload : Memory.load s'.bytes g.data g.datalen = Memory.load s.bytes f.data f.datalen
  inline : f.datalen = 0 → g.uint32 = f.uint32

/-- The bytes are in a block that the frame at `a` owns. -/
def InOwned (s : State) (a : Addr) (b : Block) : Prop :=
  ∃ p ∈ owned s a, ∃ n, Live s p n ∧ b.Within ⟨p, n⟩

/-- **Every part of the frame is from `malloc`**: it is in a block that is
given back with the frame, and no block is given back twice. -/
structure Malloced (s : State) (a : Addr) : Prop where
  header : a ∈ owned s a ∧ InOwned s a ⟨a, sizeofFrame⟩
  source : ∀ l, srcString s (s.frames a) = some l →
    InOwned s a ⟨(s.frames a).src, l.length + 1⟩
  payload : (s.frames a).datalen ≠ 0 → InOwned s a ⟨(s.frames a).data, (s.frames a).datalen⟩
  live : ∀ p ∈ owned s a, ∃ n, Live s p n
  nodup : (owned s a).Nodup

/-- **One of the frames owns the block**, and not the other. -/
def OneOwner (s : State) (a out p : Addr) : Prop :=
  (p ∈ owned s out ∧ (out = a ∨ p ∉ owned s a)) ∨ (out ≠ a ∧ p ∉ owned s out ∧ p ∈ owned s a)

/-- The block was the frame's before the call, or the call took it. -/
def InCharge (s : State) (a : Addr) (s' : State) (p : Addr) : Prop :=
  p ∈ owned s a ∨ (∀ n, ⟨p, n⟩ ∉ s.heap) ∨ (p ∈ s.cache ∧ p ∉ s'.cache)

/-- **What `tris_frisolate` is for.** -/
structure Isolated (s : State) (a : Addr) (s' : State) (out : Addr) : Prop where
  same : SameFrame s (s.frames a) s' (s'.frames out)
  malloced : Malloced s' out
  owner : ∀ p n, ⟨p, n⟩ ∈ s'.heap → InCharge s a s' p → OneOwner s' a out p

/-- When it does that. -/
structure Isolable (s : State) (a : Addr) : Prop where
  -- `tris_frdup` takes no source of length 0
  unmarked : (s.frames a).mallocd = ⟨false, false, false⟩ → srcString s (s.frames a) ≠ some []
  newHeader : (s.frames a).mallocd.hdr = false → (s.frames a).mallocd ≠ ⟨false, false, false⟩ →
    (s.frames a).delivery = ⟨0, 0⟩ ∧ ((s.frames a).flags.hasTimingInfo = true ∨
      (s.frames a).ts = 0 ∧ (s.frames a).len = 0 ∧ (s.frames a).seqno = 0)
  ownSource : (s.frames a).mallocd = ⟨true, false, true⟩ → (s.frames a).src = 0
  ownPayload : (s.frames a).mallocd = ⟨true, true, false⟩ → (s.frames a).data = 0

variable {A : Allocator} {s s₁ s₂ s' : State} {a out p q : Addr} {ps qs rs : List Addr} {d o : ℕ}
variable {m : Mallocd}

/-! ## All marked -/

theorem FrameOk.owned_live (ha : FrameOk s a) : ∀ p ∈ owned s a, ∃ n, Live s p n := by
  intro p hp
  rcases mem_owns.1 hp with ⟨hm, hn, rfl⟩ | ⟨hm, hn, rfl⟩ | ⟨hm, rfl⟩
  · obtain ⟨n, hlive, -⟩ := ha.block hm hn
    exact ⟨n, hlive⟩
  · obtain ⟨l, -, -, hblock⟩ := ha.source hn
    obtain ⟨n, -, hlive⟩ := hblock hm
    exact ⟨n, hlive⟩
  · obtain ⟨n, -, hlive⟩ := ha.hdr hm
    exact ⟨n, hlive⟩

theorem source_eq (hin : ∀ b ∈ s.used, b.base + b.size ≤ s.top) {f : TrisFrame} {l : CString}
    (hn : f.src ≠ 0) (hl : StrAt s.bytes f.src l) (hu : InUse s ⟨f.src, l.length + 1⟩) :
    srcString s f = some l := by
  rw [srcString, if_neg hn, strAt_eq hin hl hu]

/-- The string that a frame in use names. -/
theorem FrameOk.source_some (ha : FrameOk s a) (hin : ∀ b ∈ s.used, b.base + b.size ≤ s.top)
    {l : CString} (h : srcString s (s.frames a) = some l) :
    (s.frames a).src ≠ 0 ∧ StrAt s.bytes (s.frames a).src l ∧
      InUse s ⟨(s.frames a).src, l.length + 1⟩ ∧
      ((s.frames a).mallocd.src = true → ∃ n, l.length + 1 ≤ n ∧ Live s (s.frames a).src n) := by
  have hn : (s.frames a).src ≠ 0 := by
    intro h0
    rw [srcString, if_pos h0] at h
    exact absurd h.symm (Option.some_ne_none l)
  obtain ⟨k, hk, hu, hblock⟩ := ha.source hn
  have heq : k = l := Option.some.inj ((source_eq hin hn hk hu).symm.trans h)
  rw [heq] at hk hu hblock
  exact ⟨hn, hk, hu, hblock⟩

theorem isolated_all (hin : ∀ b ∈ s.used, b.base + b.size ≤ s.top) (ha : FrameOk s a)
    (hm : (s.frames a).mallocd = ⟨true, true, true⟩) : Isolated s a s a where
  same := ⟨rfl, rfl, rfl, rfl, rfl, rfl, rfl, rfl, rfl, rfl, rfl, fun _ => rfl⟩
  malloced := by
    have hhdr : (s.frames a).mallocd.hdr = true := by rw [hm]
    have hdata : (s.frames a).mallocd.data = true := by rw [hm]
    have hsrc : (s.frames a).mallocd.src = true := by rw [hm]
    have hself : a ∈ owned s a := mem_owns.2 (Or.inr (Or.inr ⟨hhdr, rfl⟩))
    refine ⟨⟨hself, ?_⟩, ?_, ?_, ha.owned_live, ha.nodup⟩
    · obtain ⟨n, hle, hlive⟩ := ha.hdr hhdr
      exact ⟨a, hself, n, hlive, Nat.le_refl _, Nat.add_le_add_left hle a⟩
    · intro l hl
      obtain ⟨hn, -, -, hblock⟩ := ha.source_some hin hl
      obtain ⟨n, hle, hlive⟩ := hblock hsrc
      exact ⟨_, mem_owns.2 (Or.inr (Or.inl ⟨hsrc, hn, rfl⟩)), n, hlive, Nat.le_refl _,
        Nat.add_le_add_left hle _⟩
    · intro hn
      obtain ⟨h0, -⟩ := ha.payload hn
      obtain ⟨n, hlive, hw⟩ := ha.block hdata h0
      exact ⟨_, mem_owns.2 (Or.inl ⟨hdata, h0, rfl⟩), n, hlive, hw hn⟩
  owner p n hp hcharge := by
    rcases hcharge with h | h | ⟨h, h'⟩
    · exact Or.inl ⟨h, Or.inl rfl⟩
    · exact absurd hp (h n)
    · exact absurd h h'

/-! ## The three stages -/

/-- **The output was made in three stages**: from `s₁`, where its header is,
to `s₂` with its source and to `s'` with its payload. -/
structure Made (s : State) (a out : Addr) (ps : List Addr) (s₁ : State) (qs : List Addr) (q : Addr)
    (s₂ : State) (rs : List Addr) (d o : ℕ) (m : Mallocd) (s' : State) : Prop where
  grown : Grown s ps s₁
  frame : ∃ flags, s₁.frames a = { s.frames a with flags := flags }
  live : ∃ n, sizeofFrame ≤ n ∧ Live s₁ out n
  origin : (out = a ∧ (s.frames a).mallocd.hdr = true ∧ ps = []) ∨
    (a ≠ out ∧ (s.frames a).mallocd.hdr = false ∧ ps = [out])
  datalen : (s₁.frames out).datalen = (s.frames a).datalen
  source : Source s₁ a out qs q s₂
  payload : Payload s₂ a out rs d o m s'

namespace Made

variable (h : Made s a out ps s₁ qs q s₂ rs d o m s')

include h

theorem grown' : Grown s ((ps ++ qs) ++ rs) s' :=
  (h.grown.trans h.source.toGrown).trans h.payload.toGrown

/-- The source and the payload of the input are in `s₁` and `s₂` what they were. -/
theorem input : (s₁.frames a).src = (s.frames a).src ∧
    (s₁.frames a).mallocd = (s.frames a).mallocd ∧
    (s₂.frames a).data = (s.frames a).data ∧ (s₂.frames a).datalen = (s.frames a).datalen ∧
    (s₂.frames a).offset = (s.frames a).offset ∧
    (s₂.frames a).mallocd = { (s.frames a).mallocd with src := false } := by
  obtain ⟨flags, hflags⟩ := h.frame
  obtain ⟨src, hsrc⟩ := h.source.frame_eq
  rw [hflags] at hsrc
  rw [hsrc, hflags]
  exact ⟨rfl, rfl, rfl, rfl, rfl, rfl⟩

theorem output : s'.frames out = { s₁.frames out with
    src := q, data := d, offset := o, mallocd := m } := by
  obtain ⟨mallocd, hout⟩ := h.source.out_eq
  rw [h.payload.out_eq, hout]

theorem mem_owned : p ∈ owned s' out ↔
    (m.data = true ∧ d ≠ 0 ∧ p = d - o) ∨ (q ≠ 0 ∧ p = q) ∨ p = out := by
  obtain ⟨hhdr, hsrc⟩ := h.payload.marks
  rw [owned, mem_owns, h.output]
  simp only [hhdr, hsrc, true_and]

theorem source_spec (ha : FrameOk s a) (hn : (s.frames a).src ≠ 0) :
    ∃ (l : CString) (n : ℕ), StrAt s.bytes (s.frames a).src l ∧
      InUse s ⟨(s.frames a).src, l.length + 1⟩ ∧ q ≠ 0 ∧ StrAt s₂.bytes q l ∧
      l.length + 1 ≤ n ∧ Live s₂ q n := by
  obtain ⟨hsrc, hmallocd, -⟩ := h.input
  obtain ⟨l, hl, hu, hblock⟩ := ha.source hn
  have hl₁ : StrAt s₁.bytes (s.frames a).src l := h.grown.strAt hu hl
  have hu₁ : InUse s₁ ⟨(s.frames a).src, l.length + 1⟩ := h.grown.inUse hu
  obtain ⟨hq0, hl₂, n, hle, hlive⟩ := h.source.string l (by rw [hsrc]; exact hn)
    (by rw [hsrc]; exact hl₁) (by rw [hsrc]; exact hu₁) (by
      rw [hsrc, hmallocd]
      intro hm
      obtain ⟨k, hk, hlive⟩ := hblock hm
      exact ⟨k, hk, h.grown.live hlive⟩)
  exact ⟨l, n, hl, hu, hq0, hl₂, hle, hlive⟩

/-- The source is copied or it is moved. -/
theorem srcString_eq (hin : ∀ b ∈ s.used, b.base + b.size ≤ s.top) (ha : FrameOk s a) :
    srcString s' (s'.frames out) = srcString s (s.frames a) ∧
      ∀ l, srcString s (s.frames a) = some l → q ≠ 0 ∧ ∃ n, l.length + 1 ≤ n ∧ Live s' q n := by
  have hq : (s'.frames out).src = q := by rw [h.output]
  by_cases hn : (s.frames a).src = 0
  · have hnone : srcString s (s.frames a) = none := if_pos hn
    have hq0 : q = 0 := (h.source.null (h.input.1.trans hn)).1
    refine ⟨?_, fun l hl => absurd (hl.symm.trans hnone) (Option.some_ne_none l)⟩
    rw [hnone, srcString, if_pos (hq.trans hq0)]
  · obtain ⟨l, n, hl, hu, hq0, hl₂, hle, hlive⟩ := h.source_spec ha hn
    have hw : Block.Within ⟨q, l.length + 1⟩ ⟨q, n⟩ := ⟨Nat.le_refl _, Nat.add_le_add_left hle q⟩
    have hl' : StrAt s'.bytes q l := h.payload.toGrown.strAt (hlive.inUse hw) hl₂
    have hlive' : Live s' q n := h.payload.toGrown.live hlive
    have hsome : srcString s (s.frames a) = some l := source_eq hin hn hl hu
    have hsome' : srcString s' (s'.frames out) = some l := by
      refine source_eq (h.grown'.inside hin) (hq ▸ hq0) (hq.symm ▸ hl') ?_
      rw [hq]
      exact hlive'.inUse hw
    refine ⟨hsome'.trans hsome.symm, fun k hk => ⟨hq0, n, ?_, hlive'⟩⟩
    have hkl : l = k := Option.some.inj (hsome.symm.trans hk)
    rw [← hkl]
    exact hle

/-- The payload is copied or it is moved. -/
theorem payload_eq (ha : FrameOk s a) :
    (s'.frames out).datalen = (s.frames a).datalen ∧
    load s'.bytes (s'.frames out).data (s'.frames out).datalen =
      load s.bytes (s.frames a).data (s.frames a).datalen ∧
    ((s.frames a).datalen = 0 → (s'.frames out).uint32 = (s.frames a).uint32) ∧
    ((s.frames a).datalen ≠ 0 → m.data = true ∧ d ≠ 0 ∧
      ∃ n, Live s' (d - o) n ∧ Block.Within ⟨d, (s.frames a).datalen⟩ ⟨d - o, n⟩) := by
  obtain ⟨-, -, hdata, hdatalen, hoffset, hmallocd⟩ := h.input
  have hgrown : Grown s (ps ++ qs) s₂ := h.grown.trans h.source.toGrown
  have hlen : (s'.frames out).datalen = (s.frames a).datalen := by
    rw [h.output]
    exact h.datalen
  have hd : (s'.frames out).data = d := by rw [h.output]
  refine ⟨hlen, ?_, ?_, ?_⟩
  · rw [hlen, hd]
    by_cases hn : (s.frames a).datalen = 0
    · rw [hn]
      rfl
    · obtain ⟨-, hu⟩ := ha.payload hn
      have hread := h.payload.payload (by rw [hdatalen]; exact hn)
        (by rw [hdata, hdatalen]; exact hgrown.inUse hu)
      rw [hdata, hdatalen] at hread
      exact hread.trans (hgrown.load _ _ hu)
  · intro hn
    rw [TrisFrame.uint32, hd, h.payload.inline (hdatalen.trans hn), TrisFrame.uint32, hdata,
      TrisFrame.uint32]
  · intro hn
    have hblock := h.payload.block (by rw [hdatalen]; exact hn)
    rw [hdata, hdatalen, hoffset, hmallocd] at hblock
    refine hblock fun hm => ?_
    obtain ⟨h0, -⟩ := ha.payload hn
    obtain ⟨n, hlive, hw⟩ := ha.block hm h0
    exact ⟨h0, n, hgrown.live hlive, hw hn⟩

/-- **Where the blocks of the output come from**: each was the input's, or
its stage took it. -/
theorem origins (ha : FrameOk s a) :
    (q ≠ 0 → ((s.frames a).mallocd.src = true ∧ (s.frames a).src ≠ 0 ∧ q = (s.frames a).src ∧
      qs = []) ∨ ((∃ n, Live s₂ q n) ∧ qs = [q])) ∧
    (m.data = true → d ≠ 0 → ((s.frames a).mallocd.data = true ∧ (s.frames a).data ≠ 0 ∧
      d - o = (s.frames a).data - (s.frames a).offset ∧ rs = []) ∨
      ((∃ n, Live s' (d - o) n) ∧ rs = [d - o])) := by
  obtain ⟨hsrc, hmallocd₁, hdata, -, hoffset, hmallocd₂⟩ := h.input
  constructor
  · intro hq0
    have hn : (s.frames a).src ≠ 0 := fun h0 => hq0 (h.source.null (hsrc.trans h0)).1
    rcases h.source.origin (by rw [hsrc]; exact hn) with ⟨hm, hq, hqs⟩ | ⟨-, hqs⟩
    · rw [hmallocd₁] at hm
      exact Or.inl ⟨hm, hn, hq.trans hsrc, hqs⟩
    · obtain ⟨-, n, -, -, -, -, -, hlive⟩ := h.source_spec ha hn
      exact Or.inr ⟨⟨n, hlive⟩, hqs⟩
  · intro hm hd0
    rcases h.payload.origin hm hd0 with ⟨hmd, hn, hd, hrs⟩ | ⟨hrs, hlive⟩
    · rw [hmallocd₂] at hmd
      rw [hdata] at hn
      rw [hdata, hoffset] at hd
      exact Or.inl ⟨hmd, hn, hd, hrs⟩
    · exact Or.inr ⟨hlive, hrs⟩

theorem out_live : ∃ n, sizeofFrame ≤ n ∧ Live s' out n ∧ Live s₂ out n := by
  obtain ⟨n, hle, hlive⟩ := h.live
  have hlive₂ : Live s₂ out n := h.source.toGrown.live hlive
  exact ⟨n, hle, h.payload.toGrown.live hlive₂, hlive₂⟩

/-- The blocks of the output are not one and the same. -/
theorem nodup (ha : FrameOk s a) : (owned s' out).Nodup := by
  obtain ⟨hqo, hdo⟩ := h.origins ha
  obtain ⟨hds, hdh, hsh⟩ := owns_nodup.1 ha.nodup
  obtain ⟨_, -, -, hout₂⟩ := h.out_live
  obtain ⟨_, -, hout₁⟩ := h.live
  obtain ⟨hhdr, hsrc⟩ := h.payload.marks
  have hdlive : (s.frames a).mallocd.data = true → (s.frames a).data ≠ 0 →
      ∃ n, Live s ((s.frames a).data - (s.frames a).offset) n :=
    fun hm hn => ha.owned_live _ (mem_owns.2 (Or.inl ⟨hm, hn, rfl⟩))
  have hslive : (s.frames a).mallocd.src = true → (s.frames a).src ≠ 0 →
      ∃ n, Live s (s.frames a).src n :=
    fun hm hn => ha.owned_live _ (mem_owns.2 (Or.inr (Or.inl ⟨hm, hn, rfl⟩)))
  have hgrown₂ : Grown s (ps ++ qs) s₂ := h.grown.trans h.source.toGrown
  -- what was the input's is not taken by a later stage, nor what an earlier stage made
  have hdq : m.data = true → d ≠ 0 → q ≠ 0 → d - o ≠ q := by
    intro hm hd0 hq0 heq
    rcases hdo hm hd0 with ⟨hmd, hn, hd, -⟩ | ⟨-, hrs⟩
    · obtain ⟨n, hlive⟩ := hdlive hmd hn
      rcases hqo hq0 with ⟨hms, hsn, hq, -⟩ | ⟨-, hqs⟩
      · exact hds hmd hn hms hsn (hd.symm.trans (heq.trans hq))
      · refine hgrown₂.live_ne hlive (List.mem_append_right _ ?_)
        rw [hqs, ← hd, heq]
        exact List.mem_singleton_self q
    · rcases hqo hq0 with ⟨hms, hsn, hq, -⟩ | ⟨⟨n, hlive⟩, -⟩
      · obtain ⟨n, hlive⟩ := hslive hms hsn
        refine h.payload.toGrown.live_ne (hgrown₂.live hlive) ?_
        rw [hrs, heq, hq]
        exact List.mem_singleton_self _
      · refine h.payload.toGrown.live_ne hlive ?_
        rw [hrs, heq]
        exact List.mem_singleton_self q
  have hnew : ∀ {r : Addr} {n : ℕ}, Live s r n → ps = [out] → r ≠ out := by
    intro r n hlive hps heq
    refine h.grown.live_ne hlive ?_
    rw [hps, heq]
    exact List.mem_singleton_self out
  have hdout : m.data = true → d ≠ 0 → d - o ≠ out := by
    intro hm hd0 heq
    rcases hdo hm hd0 with ⟨hmd, hn, hd, -⟩ | ⟨-, hrs⟩
    · obtain ⟨n, hlive⟩ := hdlive hmd hn
      rcases h.origin with ⟨hout, hh, -⟩ | ⟨-, -, hps⟩
      · exact hdh hmd hn hh (hd.symm.trans (heq.trans hout))
      · exact hnew hlive hps (hd.symm.trans heq)
    · refine h.payload.toGrown.live_ne hout₂ ?_
      rw [hrs, heq]
      exact List.mem_singleton_self out
  have hqout : q ≠ 0 → q ≠ out := by
    intro hq0 heq
    rcases hqo hq0 with ⟨hms, hsn, hq, -⟩ | ⟨-, hqs⟩
    · obtain ⟨n, hlive⟩ := hslive hms hsn
      rcases h.origin with ⟨hout, hh, -⟩ | ⟨-, -, hps⟩
      · exact hsh hms hsn hh (hq.symm.trans (heq.trans hout))
      · exact hnew hlive hps (hq.symm.trans heq)
    · refine h.source.toGrown.live_ne hout₁ ?_
      rw [hqs, heq]
      exact List.mem_singleton_self out
  refine owns_nodup.2 ?_
  rw [h.output]
  exact ⟨fun hm hd0 _ hq0 => hdq hm hd0 hq0, fun hm hd0 _ => hdout hm hd0,
    fun _ hq0 _ => hqout hq0⟩

/-- **All parts of the output are from `malloc`.** -/
theorem malloced (hin : ∀ b ∈ s.used, b.base + b.size ≤ s.top) (ha : FrameOk s a) :
    Malloced s' out := by
  obtain ⟨n, hle, hlive, -⟩ := h.out_live
  obtain ⟨hlen, -, -, hblock⟩ := h.payload_eq ha
  obtain ⟨hstr, hsrc⟩ := h.srcString_eq hin ha
  have hself : out ∈ owned s' out := h.mem_owned.2 (Or.inr (Or.inr rfl))
  have hq : (s'.frames out).src = q := by rw [h.output]
  have hd : (s'.frames out).data = d := by rw [h.output]
  refine ⟨⟨hself, out, hself, n, hlive, Nat.le_refl _, Nat.add_le_add_left hle out⟩, ?_, ?_, ?_,
    h.nodup ha⟩
  · intro l hl
    obtain ⟨hq0, k, hk, hlive⟩ := hsrc l (hstr.symm.trans hl)
    rw [hq]
    exact ⟨q, h.mem_owned.2 (Or.inr (Or.inl ⟨hq0, rfl⟩)), k, hlive, Nat.le_refl _,
      Nat.add_le_add_left hk q⟩
  · intro hn
    rw [hlen] at hn ⊢
    obtain ⟨hm, hd0, k, hlive, hw⟩ := hblock hn
    rw [hd]
    exact ⟨d - o, h.mem_owned.2 (Or.inl ⟨hm, hd0, rfl⟩), k, hlive, hw⟩
  · intro p hp
    obtain ⟨hqo, hdo⟩ := h.origins ha
    rcases h.mem_owned.1 hp with ⟨hm, hd0, rfl⟩ | ⟨hq0, rfl⟩ | rfl
    · rcases hdo hm hd0 with ⟨hmd, hn, hdeq, -⟩ | ⟨hlive, -⟩
      · obtain ⟨k, hlive⟩ := ha.owned_live _ (mem_owns.2 (Or.inl ⟨hmd, hn, hdeq⟩))
        exact ⟨k, h.grown'.live hlive⟩
      · exact hlive
    · rcases hqo hq0 with ⟨hms, hn, hqeq, -⟩ | ⟨⟨k, hlive⟩, -⟩
      · obtain ⟨k, hlive⟩ := ha.owned_live _ (mem_owns.2 (Or.inr (Or.inl ⟨hms, hn, hqeq⟩)))
        exact ⟨k, h.grown'.live hlive⟩
      · exact ⟨k, h.payload.toGrown.live hlive⟩
    · exact ⟨n, hlive⟩

/-- **No block is left without an owner, or with two.** -/
theorem owner (ha : FrameOk s a) {n : ℕ} (hp : ⟨p, n⟩ ∈ s'.heap) (hcharge : InCharge s a s' p) :
    OneOwner s' a out p := by
  obtain ⟨hsrc, hmallocd₁, hdata, -, hoffset, hmallocd₂⟩ := h.input
  have hnone : out = a ∨ owned s' a = [] := by
    rcases h.origin with ⟨hout, -⟩ | ⟨hne, hhdr, -⟩
    · exact Or.inl hout
    · have hmallocd := h.payload.frame_mallocd hne
      rw [hmallocd₂] at hmallocd
      refine Or.inr ?_
      rw [owned, TrisFrame.owns, hmallocd]
      simp [hhdr]
  -- what the call took
  have htaken : p ∈ (ps ++ qs) ++ rs → p ∈ owned s' out := by
    intro hmem
    rw [h.mem_owned]
    rcases List.mem_append.1 hmem with hmem | hmem
    · rcases List.mem_append.1 hmem with hmem | hmem
      · rcases h.origin with ⟨-, -, hps⟩ | ⟨-, -, hps⟩
        · rw [hps] at hmem
          exact absurd hmem List.not_mem_nil
        · rw [hps] at hmem
          exact Or.inr (Or.inr (List.mem_singleton.1 hmem))
      · by_cases hn : (s.frames a).src = 0
        · rw [(h.source.null (hsrc.trans hn)).2] at hmem
          exact absurd hmem List.not_mem_nil
        · obtain ⟨-, -, -, -, hq0, -⟩ := h.source_spec ha hn
          rcases h.source.origin (by rw [hsrc]; exact hn) with ⟨-, -, hqs⟩ | ⟨-, hqs⟩
          · rw [hqs] at hmem
            exact absurd hmem List.not_mem_nil
          · rw [hqs] at hmem
            exact Or.inr (Or.inl ⟨hq0, List.mem_singleton.1 hmem⟩)
    · have hne : rs ≠ [] := List.ne_nil_of_mem hmem
      obtain ⟨hm, hd0⟩ := h.payload.taken hne
      rcases h.payload.origin hm hd0 with ⟨-, -, -, hrs⟩ | ⟨hrs, -⟩
      · exact absurd hrs hne
      · rw [hrs] at hmem
        exact Or.inl ⟨hm, hd0, List.mem_singleton.1 hmem⟩
  have hmine : p ∈ owned s' out := by
    rcases hcharge with hold | hnew | ⟨hcache, hleft⟩
    · rw [h.mem_owned]
      rcases mem_owns.1 hold with ⟨hm, hn, rfl⟩ | ⟨hm, hn, rfl⟩ | ⟨hm, rfl⟩
      · obtain ⟨hmd, hd, ho⟩ := h.payload.kept (by rw [hmallocd₂]; exact hm)
          (by rw [hdata]; exact hn)
        rw [hdata] at hd
        rw [hoffset] at ho
        exact Or.inl ⟨hmd, hd ▸ hn, by rw [hd, ho]⟩
      · rcases h.source.origin (by rw [hsrc]; exact hn) with ⟨-, hq, -⟩ | ⟨hm', -⟩
        · rw [hsrc] at hq
          exact Or.inr (Or.inl ⟨hq ▸ hn, hq.symm⟩)
        · rw [hmallocd₁] at hm'
          exact Bool.noConfusion (hm'.symm.trans hm)
      · rcases h.origin with ⟨hout, -⟩ | ⟨-, hhdr, -⟩
        · exact Or.inr (Or.inr hout.symm)
        · exact Bool.noConfusion (hhdr.symm.trans hm)
    · rcases h.grown'.new _ hp with hheap | hmem
      · exact absurd hheap (hnew n)
      · exact htaken hmem
    · exact htaken ((h.grown'.left p hcache).resolve_left hleft)
  refine Or.inl ⟨hmine, hnone.imp_right fun hnil => ?_⟩
  rw [hnil]
  exact List.not_mem_nil

end Made

/-- **What the stages made is the input**, if the header is. -/
theorem Made.isolated (h : Made s a out ps s₁ qs q s₂ rs d o m s')
    (hin : ∀ b ∈ s.used, b.base + b.size ≤ s.top) (ha : FrameOk s a)
    (hhead : (s₁.frames out).frametype = (s.frames a).frametype ∧
      (s₁.frames out).subclass = (s.frames a).subclass ∧
      (s₁.frames out).samples = (s.frames a).samples ∧
      (s₁.frames out).flags.hasTimingInfo = (s.frames a).flags.hasTimingInfo)
    (htime : (s₁.frames out).delivery = (s.frames a).delivery ∧
      (s₁.frames out).ts = (s.frames a).ts ∧ (s₁.frames out).len = (s.frames a).len ∧
      (s₁.frames out).seqno = (s.frames a).seqno) : Isolated s a s' out where
  same := by
    obtain ⟨htype, hsub, hsamples, htiming⟩ := hhead
    obtain ⟨hdelivery, hts, hlen, hseqno⟩ := htime
    obtain ⟨hdatalen, hpayload, hinline, -⟩ := h.payload_eq ha
    have hout := h.output
    refine ⟨?_, ?_, ?_, ?_, ?_, ?_, ?_, ?_, (h.srcString_eq hin ha).1, hdatalen, hpayload,
      hinline⟩ <;> rw [hout] <;> assumption
  malloced := h.malloced hin ha
  owner _ _ hp hcharge := h.owner ha hp hcharge

end Frame

end Trismedia
