import Trismedia.Frame.Model
/-!
# The blocks of a frame

What the steps of `tris_frisolate` do to memory. A step takes blocks from
`malloc` or from the cache and writes nowhere else, so what was in use
stands as it stood. `Grown` says this of any number of steps and lists the
blocks that were taken.
-/


namespace Trismedia

namespace Frame

open Memory (Block Allocator load store strFrom StrAt)

/-- The blocks that the frame at `a` owns. -/
def owned (s : State) (a : Addr) : List Addr := (s.frames a).owns a

theorem mem_owns {f : TrisFrame} {a p : Addr} :
    p ∈ f.owns a ↔
      (f.mallocd.data = true ∧ f.data ≠ 0 ∧ p = f.data - f.offset) ∨
      (f.mallocd.src = true ∧ f.src ≠ 0 ∧ p = f.src) ∨ (f.mallocd.hdr = true ∧ p = a) := by
  simp only [TrisFrame.owns, List.mem_append, List.mem_ite_nil_right, List.mem_singleton,
    and_assoc]

theorem nodup_ifs (P Q R : Prop) [Decidable P] [Decidable Q] [Decidable R] (x y z : Addr) :
    ((if P then [x] else []) ++ ((if Q then [y] else []) ++ if R then [z] else [])).Nodup ↔
      (P → Q → x ≠ y) ∧ (P → R → x ≠ z) ∧ (Q → R → y ≠ z) := by
  by_cases hP : P <;> by_cases hQ : Q <;> by_cases hR : R <;> simp [hP, hQ, hR, and_assoc]

/-- No block is owned twice. -/
theorem owns_nodup {f : TrisFrame} {a : Addr} : (f.owns a).Nodup ↔
    (f.mallocd.data = true → f.data ≠ 0 → f.mallocd.src = true → f.src ≠ 0 →
      f.data - f.offset ≠ f.src) ∧
    (f.mallocd.data = true → f.data ≠ 0 → f.mallocd.hdr = true → f.data - f.offset ≠ a) ∧
    (f.mallocd.src = true → f.src ≠ 0 → f.mallocd.hdr = true → f.src ≠ a) := by
  rw [TrisFrame.owns, nodup_ifs]
  simp only [and_imp]

section SetFrame

variable (s : State) (a : Addr) (f : TrisFrame)

@[simp] theorem setFrame_self : (s.setFrame a f).frames a = f := if_pos rfl

theorem setFrame_ne {b : Addr} (h : b ≠ a) : (s.setFrame a f).frames b = s.frames b := if_neg h

/-- A header that is written with the old field `φ` keeps it everywhere. -/
theorem setFrame_field {β : Type} (φ : TrisFrame → β) (h : φ f = φ (s.frames a)) (b : Addr) :
    φ ((s.setFrame a f).frames b) = φ (s.frames b) := by
  by_cases hb : b = a
  · rw [hb, setFrame_self, h]
  · rw [setFrame_ne s a f hb]

end SetFrame

/-- The block is in one that is in use, and not by the cache. -/
def InUse (s : State) (b : Block) : Prop := ∃ c ∈ s.used, c.base ∉ s.cache ∧ b.Within c

/-- `malloc` gave the block at `p`, of `n` bytes, and the cache has it not. -/
def Live (s : State) (p n : ℕ) : Prop := ⟨p, n⟩ ∈ s.heap ∧ p ∉ s.cache

theorem Live.inUse {s : State} {p n : ℕ} {b : Block} (h : Live s p n) (hb : b.Within ⟨p, n⟩) :
    InUse s b := ⟨⟨p, n⟩, List.mem_append_left _ h.1, h.2, hb⟩

/-- Blocks in use are apart and in memory, and the cache keeps headers that
have the room they are said to have. -/
structure MemOk (s : State) : Prop where
  apart : ∀ b ∈ s.used, ∀ c ∈ s.used, b = c ∨ b.Apart c
  inside : ∀ b ∈ s.used, b.base ≠ 0 ∧ b.base + b.size ≤ s.top
  nodup : s.cache.Nodup
  cached : ∀ c ∈ s.cache, ∃ n, ⟨c, n⟩ ∈ s.heap ∧
    sizeofFrame ≤ (s.frames c).mallocdHdrLen ∧ (s.frames c).mallocdHdrLen ≤ n

/-- **`s'` comes of `s` by taking the blocks `ps`**: what was in use stands
as it stood, and no other block is new or has left the cache. -/
structure Grown (s : State) (ps : List Addr) (s' : State) : Prop where
  heap : ∀ b ∈ s.heap, b ∈ s'.heap
  statics : s'.statics = s.statics
  top : s'.top = s.top
  cache : ∀ c ∈ s'.cache, c ∈ s.cache
  load : ∀ p n, InUse s ⟨p, n⟩ → load s'.bytes p n = load s.bytes p n
  new : ∀ b ∈ s'.heap, b ∈ s.heap ∨ b.base ∈ ps
  left : ∀ c ∈ s.cache, c ∈ s'.cache ∨ c ∈ ps
  fresh : ∀ b ∈ s.used, b.base ∉ s.cache → b.base ∉ ps
  inside : (∀ b ∈ s.used, b.base + b.size ≤ s.top) → ∀ b ∈ s'.used, b.base + b.size ≤ s'.top

variable {s s' s'' : State} {ps qs : List Addr}

theorem Grown.refl (s : State) : Grown s [] s where
  heap _ h := h
  statics := rfl
  top := rfl
  cache _ h := h
  load _ _ _ := rfl
  new _ h := Or.inl h
  left _ h := Or.inl h
  fresh _ _ _ := List.not_mem_nil
  inside h := h

theorem Grown.used (h : Grown s ps s') {b : Block} (hb : b ∈ s.used) : b ∈ s'.used := by
  rcases List.mem_append.1 hb with hb | hb
  · exact List.mem_append_left _ (h.heap b hb)
  · exact List.mem_append_right _ (h.statics ▸ hb)

theorem Grown.inUse (h : Grown s ps s') {b : Block} (hb : InUse s b) : InUse s' b := by
  obtain ⟨c, hc, hcache, hw⟩ := hb
  exact ⟨c, h.used hc, fun hmem => hcache (h.cache _ hmem), hw⟩

theorem Grown.live (h : Grown s ps s') {p n : ℕ} (hp : Live s p n) : Live s' p n :=
  ⟨h.heap _ hp.1, fun hmem => hp.2 (h.cache _ hmem)⟩

theorem Grown.trans (h : Grown s ps s') (h' : Grown s' qs s'') : Grown s (ps ++ qs) s'' where
  heap b hb := h'.heap b (h.heap b hb)
  statics := h'.statics.trans h.statics
  top := h'.top.trans h.top
  cache c hc := h.cache c (h'.cache c hc)
  load p n hp := (h'.load p n (h.inUse hp)).trans (h.load p n hp)
  new b hb := by
    rcases h'.new b hb with hb | hb
    · exact (h.new b hb).imp_right fun hp => List.mem_append_left _ hp
    · exact Or.inr (List.mem_append_right _ hb)
  left c hc := by
    rcases h.left c hc with hc | hc
    · exact (h'.left c hc).imp_right fun hp => List.mem_append_right _ hp
    · exact Or.inr (List.mem_append_left _ hc)
  fresh b hb hcache hmem := by
    rcases List.mem_append.1 hmem with hmem | hmem
    · exact h.fresh b hb hcache hmem
    · exact h'.fresh b (h.used hb) (fun hc => hcache (h.cache _ hc)) hmem
  inside hs := h'.inside (h.inside hs)

/-- Headers do not count. -/
theorem Grown.setFrame (h : Grown s ps s') (a : Addr) (f : TrisFrame) :
    Grown s ps (s'.setFrame a f) :=
  ⟨h.heap, h.statics, h.top, h.cache, h.load, h.new, h.left, h.fresh, h.inside⟩

theorem Grown.live_ne (h : Grown s ps s') {p n : ℕ} (hp : Live s p n) : p ∉ ps :=
  h.fresh ⟨p, n⟩ (List.mem_append_left _ hp.1) hp.2

theorem Grown.strAt (h : Grown s ps s') {p : Addr} {l : CString}
    (hu : InUse s ⟨p, l.length + 1⟩) (hl : StrAt s.bytes p l) : StrAt s'.bytes p l :=
  hl.congr (h.load p _ hu)

/-! ## One block -/

/-- **The block at `p`, of `m` bytes, is taken**, and no other memory is
written to. -/
structure Took (s : State) (p m : ℕ) (s' : State) : Prop extends Grown s [p] s' where
  block : Live s' p m
  ne_zero : p ≠ 0
  le_top : p + m ≤ s.top
  apart : ∀ b, InUse s b → Block.Apart ⟨p, m⟩ b
  frames : ∀ a, a ≠ p → s'.frames a = s.frames a

variable {p m : ℕ}

/-- What is written to the block is not in use before. -/
theorem Took.write (h : Took s p m s') {q : ℕ} {l : List CChar}
    (hw : Block.Within ⟨q, l.length⟩ ⟨p, m⟩) : Took s p m (s'.write q l) where
  heap := h.heap
  statics := h.statics
  top := h.top
  cache := h.cache
  load r n hr := by
    have hapart : Block.Apart ⟨r, n⟩ ⟨q, l.length⟩ :=
      (h.apart _ hr).symm.within (Block.Within.refl _) hw
    exact (Memory.load_store_apart hapart).trans (h.load r n hr)
  new := h.new
  left := h.left
  fresh := h.fresh
  inside := h.inside
  block := h.block
  ne_zero := h.ne_zero
  le_top := h.le_top
  apart := h.apart
  frames := h.frames

theorem Took.setFrame (h : Took s p m s') (f : TrisFrame) : Took s p m (s'.setFrame p f) where
  toGrown := h.toGrown.setFrame p f
  block := h.block
  ne_zero := h.ne_zero
  le_top := h.le_top
  apart := h.apart
  frames a ha := (if_neg ha).trans (h.frames a ha)

/-- A header in use is not at the block. -/
theorem Took.header_ne (h : Took s p m s') (hm : 0 < m) {a : Addr}
    (ha : InUse s ⟨a, sizeofFrame⟩) : a ≠ p := by
  have hne := (h.apart _ ha).base_ne hm (by show 0 < 112; omega)
  exact fun heq => hne heq.symm

/-- What the cache keeps is from `malloc`. -/
def CacheLive (s : State) : Prop := ∀ c ∈ s.cache, ∃ n, ⟨c, n⟩ ∈ s.heap

theorem MemOk.cacheLive (h : MemOk s) : CacheLive s := by
  intro c hc
  obtain ⟨n, hn, -⟩ := h.cached c hc
  exact ⟨n, hn⟩

theorem Grown.cacheLive (h : Grown s ps s') (hs : CacheLive s) : CacheLive s' := by
  intro c hc
  obtain ⟨n, hn⟩ := hs c (h.cache c hc)
  exact ⟨n, h.heap _ hn⟩

variable {A : Allocator} {n : ℕ}

theorem State.malloc_took (hs : CacheLive s) (h : s.malloc A n = some (p, s')) :
    Took s p n s' ∧ s'.frames = s.frames ∧ s'.bytes = s.bytes ∧ s'.cache = s.cache := by
  rw [State.malloc, Option.map_eq_some_iff] at h
  obtain ⟨q, hq, heq⟩ := h
  obtain ⟨hq, htop⟩ := Option.filter_eq_some_iff.1 hq
  obtain ⟨rfl, rfl⟩ := Prod.ext_iff.1 heq
  have hapart := A.apart _ _ _ hq
  have hcache : q ∉ s.cache := by
    intro hmem
    obtain ⟨k, hk⟩ := hs q hmem
    exact (hapart _ (List.mem_append_left _ hk)).2 rfl
  refine ⟨⟨⟨fun b hb => List.mem_cons_of_mem _ hb, rfl, rfl, fun _ hc => hc, fun _ _ _ => rfl,
    ?_, fun _ hc => Or.inl hc, ?_, ?_⟩, ⟨List.mem_cons_self, hcache⟩, A.ne_zero _ _ _ hq,
    of_decide_eq_true htop, ?_, fun _ _ => rfl⟩, rfl, rfl, rfl⟩
  · intro b hb
    rcases List.mem_cons.1 hb with rfl | hb
    · exact Or.inr List.mem_cons_self
    · exact Or.inl hb
  · intro b hb _ hmem
    exact (hapart b hb).2 (List.mem_singleton.1 hmem)
  · intro hin b hb
    rcases List.mem_cons.1 hb with rfl | hb
    · exact of_decide_eq_true htop
    · exact hin b hb
  · intro b hb
    obtain ⟨c, hc, -, hw⟩ := hb
    exact (hapart c hc).1.within (Block.Within.refl _) hw

/-- A header of the cache is taken, and its fields are set. -/
theorem took_cached (hs : MemOk s) {c : Addr} (hc : c ∈ s.cache) (cache : List Addr)
    (hcache : ∀ x, x ∈ cache ↔ x ∈ s.cache ∧ x ≠ c) (f : TrisFrame) :
    ∃ m, (s.frames c).mallocdHdrLen ≤ m ∧ sizeofFrame ≤ m ∧
      Took s c m { s.setFrame c f with cache := cache } := by
  obtain ⟨m, hm, hle, hlen⟩ := hs.cached c hc
  have hused : (⟨c, m⟩ : Block) ∈ s.used := List.mem_append_left _ hm
  refine ⟨m, hlen, by omega, ⟨⟨fun b hb => hb, rfl, rfl, fun x hx => ((hcache x).1 hx).1,
    fun _ _ _ => rfl, fun _ hb => Or.inl hb, ?_, ?_, fun hin => hin⟩, ⟨hm, fun hmem => ((hcache c).1 hmem).2 rfl⟩,
    (hs.inside _ hused).1, (hs.inside _ hused).2, ?_, fun a ha => if_neg ha⟩⟩
  · intro x hx
    by_cases hxc : x = c
    · exact Or.inr (hxc ▸ List.mem_cons_self)
    · exact Or.inl ((hcache x).2 ⟨hx, hxc⟩)
  · intro b _ hb hmem
    exact hb (List.mem_singleton.1 hmem ▸ hc)
  · intro b hb
    obtain ⟨d, hd, hdc, hw⟩ := hb
    rcases hs.apart _ hused d hd with heq | hapart
    · exact absurd (heq ▸ hdc : (⟨c, m⟩ : Block).base ∉ s.cache) (fun hnot => hnot hc)
    · exact hapart.within (Block.Within.refl _) hw

/-- A new header is taken. -/
theorem State.calloc_took (hs : CacheLive s) (h : s.calloc A n = some (p, s')) (f : TrisFrame) :
    Took s p n (s'.setFrame p f) ∧ s'.frames p = zeroed := by
  rw [State.calloc, Option.map_eq_some_iff] at h
  obtain ⟨⟨q, s₁⟩, hq, heq⟩ := h
  obtain ⟨rfl, rfl⟩ := Prod.ext_iff.1 heq
  have htook := (State.malloc_took hs hq).1
  have hw : Block.Within ⟨q, (List.replicate n (0 : CChar)).length⟩ ⟨q, n⟩ := by
    rw [List.length_replicate]
    exact Block.Within.refl _
  exact ⟨((htook.write hw).setFrame _).setFrame f, if_pos rfl⟩

/-- **A header from `tris_frame_header_new`** is zero but for its room and
its mark. -/
theorem trisFrameHeaderNew_took (hs : MemOk s) (h : trisFrameHeaderNew A s = some (p, s')) :
    ∃ m, sizeofFrame ≤ m ∧ Took s p m s' ∧
      ∃ len mallocd, s'.frames p = { zeroed with mallocdHdrLen := len, mallocd := mallocd } := by
  unfold trisFrameHeaderNew at h
  split at h
  · rename_i c cache hcache
    obtain ⟨rfl, rfl⟩ := Prod.ext_iff.1 (Option.some.inj h)
    have hnodup := hs.nodup
    rw [hcache, List.nodup_cons] at hnodup
    have hrest : ∀ x, x ∈ cache ↔ x ∈ s.cache ∧ x ≠ c := by
      intro x
      rw [hcache, List.mem_cons]
      constructor
      · exact fun hx => ⟨Or.inr hx, fun heq => hnodup.1 (heq ▸ hx)⟩
      · exact fun hx => hx.1.resolve_left hx.2
    obtain ⟨m, -, hm, htook⟩ := took_cached hs (hcache ▸ List.mem_cons_self) cache hrest _
    exact ⟨m, hm, htook, _, _, if_pos rfl⟩
  · obtain ⟨⟨q, s₁⟩, hq, heq⟩ := Option.map_eq_some_iff.1 h
    obtain ⟨rfl, rfl⟩ := Prod.ext_iff.1 heq
    obtain ⟨htook, hzero⟩ := State.calloc_took hs.cacheLive hq _
    exact ⟨_, Nat.le_refl _, htook, sizeofFrame, ⟨false, false, false⟩,
      (if_pos rfl).trans (congrArg (fun f : TrisFrame => { f with mallocdHdrLen := sizeofFrame })
        hzero)⟩

/-- **A block of `tris_frdup`** has the room that was asked for. -/
theorem dupBuf_took (hs : MemOk s) (h : dupBuf A s n = some (p, s')) :
    ∃ m, n ≤ m ∧ Took s p m s' ∧
      ∃ len, s'.frames p = { zeroed with mallocdHdrLen := len } := by
  unfold dupBuf at h
  split at h
  · rename_i c hfind
    obtain ⟨rfl, rfl⟩ := Prod.ext_iff.1 (Option.some.inj h)
    have hlen : n ≤ (s.frames c).mallocdHdrLen := by
      have hsome := List.find?_some hfind
      exact of_decide_eq_true hsome
    have hrest : ∀ x, x ∈ s.cache.erase c ↔ x ∈ s.cache ∧ x ≠ c := by
      intro x
      rw [hs.nodup.mem_erase_iff]
      exact and_comm
    obtain ⟨m, hm, -, htook⟩ := took_cached hs (List.mem_of_find?_eq_some hfind) _ hrest _
    exact ⟨m, by omega, htook, _, if_pos rfl⟩
  · obtain ⟨⟨q, s₁⟩, hq, heq⟩ := Option.map_eq_some_iff.1 h
    obtain ⟨rfl, rfl⟩ := Prod.ext_iff.1 heq
    obtain ⟨htook, hzero⟩ := State.calloc_took hs.cacheLive hq _
    exact ⟨_, Nat.le_refl _, htook, n,
      (if_pos rfl).trans (congrArg (fun f : TrisFrame => { f with mallocdHdrLen := n }) hzero)⟩

end Frame

end Trismedia
