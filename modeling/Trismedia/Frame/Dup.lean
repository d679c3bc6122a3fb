import Trismedia.Frame.Isolate
/-!
# `tris_frdup`

The copy is in one block: the header, the room before the payload, the
payload and the source. It is marked as a header alone, so the block is
given back as one.
-/


namespace Trismedia

namespace Frame

open Memory (Block Allocator load store strFrom StrAt)

variable {A : Allocator} {s s₁ s' : State} {a out : Addr} {m : ℕ}

/-- **The copy so far**: the block at `out` is taken, and the input is as it was. -/
structure Copying (s : State) (a out m : ℕ) (s₁ : State) : Prop extends Took s out m s₁ where
  frame : s₁.frames a = s.frames a
  ne : a ≠ out

theorem Copying.setFrame (h : Copying s a out m s₁) (f : TrisFrame) :
    Copying s a out m (s₁.setFrame out f) where
  toTook := h.toTook.setFrame f
  frame := (setFrame_ne s₁ out f h.ne).trans h.frame
  ne := h.ne

theorem Copying.write (h : Copying s a out m s₁) {q : ℕ} {l : List CChar}
    (hw : Block.Within ⟨q, l.length⟩ ⟨out, m⟩) : Copying s a out m (s₁.write q l) where
  toTook := h.toTook.write hw
  frame := h.frame
  ne := h.ne

/-- Where the payload of the copy is. -/
def dupPtr (out : Addr) : Addr := out + sizeofFrame + friendlyOffset

theorem dupPayload_spec (h : Copying s a out m s₁) (ha : FrameOk s a)
    (hlen : (s₁.frames out).datalen = (s.frames a).datalen)
    (hm : sizeofFrame + friendlyOffset + (s.frames a).datalen ≤ m) :
    ∃ d, Copying s a out m (dupPayload s₁ a out) ∧
      (dupPayload s₁ a out).frames out = { s₁.frames out with data := d } ∧
      ((s.frames a).datalen = 0 → d % 4294967296 = (s.frames a).uint32) ∧
      ((s.frames a).datalen ≠ 0 → d = dupPtr out ∧
        load (dupPayload s₁ a out).bytes d (s.frames a).datalen =
          load s.bytes (s.frames a).data (s.frames a).datalen) := by
  unfold dupPayload
  by_cases hn : (s.frames a).datalen = 0
  · rw [if_neg (by rw [hlen]; exact fun h0 => h0 hn)]
    refine ⟨_, h.setFrame _, setFrame_self _ _ _, fun _ => ?_, fun h0 => absurd hn h0⟩
    rw [h.frame]
    exact setUint32_mod _ _
  · rw [if_pos (by rw [hlen]; exact hn)]
    dsimp only
    rw [h.frame, hlen]
    have hread : load s₁.bytes (s.frames a).data (s.frames a).datalen =
        load s.bytes (s.frames a).data (s.frames a).datalen := h.load _ _ (ha.payload hn).2
    have hw : Block.Within ⟨out + sizeofFrame + friendlyOffset,
        (load s₁.bytes (s.frames a).data (s.frames a).datalen).length⟩ ⟨out, m⟩ := by
      rw [Memory.load_length]
      exact ⟨by dsimp only; omega, by dsimp only; omega⟩
    refine ⟨dupPtr out, (h.setFrame _).write hw, setFrame_self _ _ _, fun h0 => absurd h0 hn,
      fun _ => ⟨rfl, ?_⟩⟩
    have hstored := Memory.load_store s₁.bytes (dupPtr out)
      (load s₁.bytes (s.frames a).data (s.frames a).datalen)
    rw [Memory.load_length] at hstored
    exact hstored.trans hread

theorem dupSource_spec (h : Copying s a out m s₁) (hin : ∀ b ∈ s.used, b.base + b.size ≤ s.top)
    (ha : FrameOk s a) (hm : dupLen s a ≤ m) :
    ∃ q, Copying s a out m (dupSource s₁ a out (dupSrclen s a)) ∧
      (dupSource s₁ a out (dupSrclen s a)).frames out = { s₁.frames out with src := q } ∧
      load (dupSource s₁ a out (dupSrclen s a)).bytes (dupPtr out) (s.frames a).datalen =
        load s₁.bytes (dupPtr out) (s.frames a).datalen ∧
      (dupSrclen s a = 0 → q = (s₁.frames out).src) ∧
      (dupSrclen s a ≠ 0 → q = dupPtr out + (s.frames a).datalen ∧ ∃ l,
        srcString s (s.frames a) = some l ∧ l.length = dupSrclen s a ∧
        StrAt (dupSource s₁ a out (dupSrclen s a)).bytes q l) := by
  unfold dupSource
  by_cases hn : dupSrclen s a = 0
  · rw [if_neg (by omega)]
    exact ⟨(s₁.frames out).src, h, rfl, rfl, fun _ => rfl, fun h0 => absurd hn h0⟩
  · rw [if_pos (by omega)]
    have hsrc : (s.frames a).src ≠ 0 := by
      intro h0
      exact hn (if_neg fun hx => hx h0)
    obtain ⟨l, hl, hu, -⟩ := ha.source hsrc
    have hlen : dupSrclen s a = l.length := by
      rw [dupSrclen, if_pos hsrc, strAt_eq hin hl hu]
    have hstr : s₁.strAt (s.frames a).src = l :=
      strAt_eq (h.inside hin) (h.strAt hu hl) (h.inUse hu)
    have hend : (l ++ [(0 : CChar)]).length = l.length + 1 := by
      rw [List.length_append, List.length_singleton]
    dsimp only
    rw [h.frame, hstr]
    rw [dupLen, if_pos (by omega), hlen] at hm
    have hw : Block.Within ⟨out + sizeofFrame + friendlyOffset + (s.frames a).datalen,
        (l ++ [(0 : CChar)]).length⟩ ⟨out, m⟩ := by
      rw [hend]
      exact ⟨by dsimp only; omega, by dsimp only; omega⟩
    refine ⟨dupPtr out + (s.frames a).datalen, (h.setFrame _).write hw, setFrame_self _ _ _, ?_,
      fun h0 => absurd h0 hn, fun _ => ⟨rfl, l, source_eq hin hsrc hl hu, hlen.symm, ?_, hl.2⟩⟩
    · exact Memory.load_store_apart (Or.inl (Nat.le_refl _))
    · have hstored := Memory.load_store s₁.bytes (dupPtr out + (s.frames a).datalen)
        (l ++ [(0 : CChar)])
      rw [hend] at hstored
      exact hstored

/-- **The copy of `tris_frdup`**: every field is the input's, and the payload
and the source are behind the header. -/
theorem trisFrdup_spec (hs : MemOk s) (ha : FrameOk s a)
    (h : trisFrdup A s a = (some out, s')) :
    ∃ m d q len, dupLen s a ≤ m ∧ Copying s a out m s' ∧
      s'.frames out = { s.frames a with
        data := d, src := q, mallocd := ⟨true, false, false⟩, offset := friendlyOffset
        mallocdHdrLen := len, flags := ⟨(s.frames a).flags.hasTimingInfo, false, false⟩ } ∧
      ((s.frames a).datalen = 0 → d % 4294967296 = (s.frames a).uint32) ∧
      ((s.frames a).datalen ≠ 0 → d = dupPtr out ∧
        load s'.bytes d (s.frames a).datalen =
          load s.bytes (s.frames a).data (s.frames a).datalen) ∧
      (dupSrclen s a = 0 → q = 0) ∧
      (dupSrclen s a ≠ 0 → q = dupPtr out + (s.frames a).datalen ∧ ∃ l,
        srcString s (s.frames a) = some l ∧ l.length = dupSrclen s a ∧ StrAt s'.bytes q l) := by
  have hin : ∀ b ∈ s.used, b.base + b.size ≤ s.top := fun b hb => (hs.inside b hb).2
  unfold trisFrdup at h
  rcases hbuf : dupBuf A s (dupLen s a) with _ | ⟨p, s₁⟩
  · rw [hbuf] at h
    exact absurd (Prod.ext_iff.1 h).1 (Option.some_ne_none out).symm
  · rw [hbuf] at h
    obtain ⟨hp, hs'⟩ := Prod.ext_iff.1 h
    have hpo : p = out := Option.some.inj hp
    rw [hpo] at hbuf hs'
    dsimp only at hs'
    obtain ⟨m, hm, htook, len, hzero⟩ := dupBuf_took hs hbuf
    have hpos : sizeofFrame + friendlyOffset + (s.frames a).datalen ≤ m := by
      rw [dupLen] at hm
      omega
    have hne : a ≠ out := htook.header_ne (by
      have hsize : 0 < sizeofFrame := by decide
      omega) ha.header
    have hcopy : Copying s a out m s₁ := ⟨htook, htook.frames a hne, hne⟩
    have hhead : Copying s a out m (dupHeader s₁ a out) := hcopy.setFrame _
    have hframe : (dupHeader s₁ a out).frames out = { zeroed with
        mallocdHdrLen := len
        frametype := (s.frames a).frametype
        subclass := (s.frames a).subclass
        datalen := (s.frames a).datalen
        samples := (s.frames a).samples
        delivery := (s.frames a).delivery
        mallocd := ⟨true, false, false⟩
        offset := friendlyOffset } := by
      rw [dupHeader, setFrame_self, hcopy.frame, hzero]
    obtain ⟨d, hpay, hpayf, hinline, hpayload⟩ :=
      dupPayload_spec hhead ha (by rw [hframe]) hpos
    obtain ⟨q, hsrc, hsrcf, hkept, hnull, hstring⟩ := dupSource_spec hpay hin ha hm
    have htime : Copying s a out m s' := by
      rw [← hs']
      exact hsrc.setFrame _
    have hbytes : s'.bytes =
        (dupSource (dupPayload (dupHeader s₁ a out) a out) a out (dupSrclen s a)).bytes := by
      rw [← hs']
      rfl
    refine ⟨m, d, q, len, hm, htime, ?_, hinline, fun hn => ?_, fun hn => ?_, fun hn => ?_⟩
    · rw [← hs', dupTiming, setFrame_self, hsrc.frame, hsrcf, hpayf, hframe]
      rfl
    · obtain ⟨hd, hload⟩ := hpayload hn
      refine ⟨hd, ?_⟩
      rw [hbytes, hd, hkept, ← hd]
      exact hload
    · rw [hnull hn, hpayf, hframe]
      rfl
    · rw [hbytes]
      exact hstring hn

/-- **`tris_frdup` copies the frame** unless its source has no characters. -/
theorem isolated_dup (hs : MemOk s) (ha : FrameOk s a)
    (hm : (s.frames a).mallocd = ⟨false, false, false⟩) (h : trisFrdup A s a = (some out, s')) :
    Isolated s a s' out ↔ srcString s (s.frames a) ≠ some [] := by
  have hin : ∀ b ∈ s.used, b.base + b.size ≤ s.top := fun b hb => (hs.inside b hb).2
  obtain ⟨m, d, q, len, hlen, hcopy, hout, hinline, hpayload, hnull, hstring⟩ :=
    trisFrdup_spec hs ha h
  have hq : (s'.frames out).src = q := by rw [hout]
  have hd : (s'.frames out).data = d := by rw [hout]
  have hdl : (s'.frames out).datalen = (s.frames a).datalen := by rw [hout]
  have hown : owned s' out = [out] := by
    rw [owned, TrisFrame.owns, hout]
    rfl
  have hself : out ∈ owned s' out := hown ▸ List.mem_singleton_self out
  have hnone : ∀ {t : State}, t.frames a = s.frames a → owned t a = [] := by
    intro t ht
    rw [owned, TrisFrame.owns, ht, hm]
    rfl
  have hroom : sizeofFrame + friendlyOffset + (s.frames a).datalen ≤ m := by
    rw [dupLen] at hlen
    omega
  constructor
  · intro hiso hempty
    obtain ⟨hn, hl, hu, -⟩ := ha.source_some hin hempty
    have hlen0 : dupSrclen s a = 0 := by
      rw [dupSrclen, if_pos hn, strAt_eq hin hl hu]
      rfl
    have hlost : srcString s' (s'.frames out) = none := if_pos (hq.trans (hnull hlen0))
    exact absurd (hempty.symm.trans (hiso.same.source.symm.trans hlost))
      (Option.some_ne_none _)
  · intro hne
    -- the source, with its room in the block
    have hsource : srcString s' (s'.frames out) = srcString s (s.frames a) ∧
        ∀ l, srcString s (s.frames a) = some l →
          Block.Within ⟨q, l.length + 1⟩ ⟨out, m⟩ := by
      by_cases hn : dupSrclen s a = 0
      · have hnull' : (s.frames a).src = 0 := by
          refine Decidable.byContradiction fun h0 => ?_
          obtain ⟨l, hl, hu, -⟩ := ha.source h0
          have hsome := source_eq hin h0 hl hu
          rw [dupSrclen, if_pos h0, strAt_eq hin hl hu] at hn
          exact hne (hsome.trans (congrArg some (List.length_eq_zero_iff.1 hn)))
        have hnone' : srcString s (s.frames a) = none := if_pos hnull'
        refine ⟨(if_pos (hq.trans (hnull hn))).trans hnone'.symm, fun l hl => ?_⟩
        exact absurd (hl.symm.trans hnone') (Option.some_ne_none l)
      · obtain ⟨hqeq, l, hl, hll, hstr⟩ := hstring hn
        have hw : Block.Within ⟨q, l.length + 1⟩ ⟨out, m⟩ := by
          rw [dupLen, if_pos (Nat.pos_of_ne_zero hn), ← hll] at hlen
          rw [hqeq, dupPtr]
          exact ⟨by dsimp only; omega, by dsimp only; omega⟩
        have hq0 : (s'.frames out).src ≠ 0 := by
          have hsize : 0 < sizeofFrame := by decide
          rw [hq, hqeq, dupPtr, Nat.add_assoc, Nat.add_assoc]
          exact fun h0 => absurd (Nat.add_eq_zero_iff.1 h0).2 (by omega)
        have hsome : srcString s' (s'.frames out) = some l :=
          source_eq (hcopy.inside hin) hq0 (by rw [hq]; exact hstr)
            (by rw [hq]; exact hcopy.block.inUse hw)
        refine ⟨hsome.trans hl.symm, fun k hk => ?_⟩
        rw [← Option.some.inj (hl.symm.trans hk)]
        exact hw
    refine ⟨?_, ?_, ?_⟩
    · refine ⟨?_, ?_, ?_, ?_, ?_, ?_, ?_, ?_, hsource.1, hdl, ?_, fun hn => ?_⟩
      any_goals rw [hout]
      · by_cases hn : (s.frames a).datalen = 0
        · rw [hn]
          rfl
        · exact (hpayload hn).2
      · exact hinline hn
    · have hle : sizeofFrame ≤ m := by omega
      refine ⟨⟨hself, out, hself, m, hcopy.block, Nat.le_refl _,
        Nat.add_le_add_left hle out⟩, ?_, ?_, ?_, ?_⟩
      · intro l hl
        rw [hq]
        exact ⟨out, hself, m, hcopy.block, hsource.2 l (hsource.1.symm.trans hl)⟩
      · intro hn
        rw [hdl] at hn ⊢
        rw [hd, (hpayload hn).1]
        exact ⟨out, hself, m, hcopy.block, by
          rw [dupPtr]
          exact ⟨by dsimp only; omega, by dsimp only; omega⟩⟩
      · intro p hp
        rw [hown] at hp
        exact ⟨m, List.mem_singleton.1 hp ▸ hcopy.block⟩
      · rw [hown]
        exact List.nodup_cons.2 ⟨List.not_mem_nil, List.nodup_nil⟩
    · intro p n hp hcharge
      have hmem : p = out := by
        rcases hcharge with hold | hnew | ⟨hcache, hleft⟩
        · rw [hnone rfl] at hold
          exact absurd hold List.not_mem_nil
        · rcases hcopy.new _ hp with hheap | hmem
          · exact absurd hheap (hnew n)
          · exact List.mem_singleton.1 hmem
        · exact List.mem_singleton.1 ((hcopy.left p hcache).resolve_left hleft)
      refine Or.inl ⟨hmem ▸ hself, Or.inr ?_⟩
      rw [hnone hcopy.frame]
      exact List.not_mem_nil

end Frame

end Trismedia
