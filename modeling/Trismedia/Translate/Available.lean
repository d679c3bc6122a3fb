import Trismedia.Translate.Model
/-!
# The formats a source can be translated to

`tris_translate_available_formats` of `main/translate.c` takes from the
destination mask what the source format does not reach, or what does not
reach it. One cursor goes through the audio formats and then through the
video formats. The audio loop does not begin where the index of the source
format is 0, which is the index of G.723.1 and what stands for no audio at
all; the cursor then stays at the first bit, and the video loop does not
begin either.
-/


namespace Trismedia

namespace Translate

/-- The kinds of formats that are looked through. -/
inductive MediaKind
  | audio | video
  deriving DecidableEq

/-- `TRIS_FORMAT_AUDIO_MASK` and `TRIS_FORMAT_VIDEO_MASK` -/
def MediaKind.mask : MediaKind → BitVec 32
  | .audio => (1#32 <<< 16) - 1
  | .video => ((1#32 <<< 24) - 1) &&& ~~~((1#32 <<< 16) - 1)

/-- The index in `src_audio` or `src_video`, which is 0 without a format. -/
def srcIndex (src : BitVec 32) (k : MediaKind) : Format := (powerof (src &&& k.mask)).getD 0

/-- The body of either loop, at the format `x`. -/
def checkFormat (m : Matrix) (dest src : BitVec 32) (s : Format) (x res : BitVec 32) : BitVec 32 :=
  if dest &&& x = 0 then res
  else if src &&& x ≠ 0 then res
  else
    match powerof x with
    | none => res
    | some z =>
      if (m s z).step.isNone then res &&& ~~~x
      else if (m z s).step.isNone then res &&& ~~~x
      else res

/-- Either loop, with the cursor `x`; it is shifted out in 32 rounds. -/
def availableLoop (m : Matrix) (dest src mask : BitVec 32) (s : Format) :
    ℕ → BitVec 32 → BitVec 32 → BitVec 32 × BitVec 32
  | 0, x, res => (x, res)
  | fuel + 1, x, res =>
    if s ≠ 0 ∧ x &&& mask ≠ 0 then
      availableLoop m dest src mask s fuel (x <<< 1) (checkFormat m dest src s x res)
    else (x, res)

/-- `tris_translate_available_formats` -/
def trisTranslateAvailableFormats (m : Matrix) (dest src : BitVec 32) : BitVec 32 :=
  if src = 0 then dest
  else
    let r := availableLoop m dest src MediaKind.audio.mask (srcIndex src .audio) 32 1 dest
    (availableLoop m dest src MediaKind.video.mask (srcIndex src .video) 32 r.1 r.2).2

/-! ## One format -/

variable {m : Matrix} {dest src x res : BitVec 32} {s : Format}

/-- The source supplies the format, or there are paths to it and back. -/
def Reaches (m : Matrix) (src : BitVec 32) (s z : Format) : Prop :=
  src.getLsbD z = true ∨ ((m s z).step.isSome = true ∧ (m z s).step.isSome = true)

instance (m : Matrix) (src : BitVec 32) (s z : Format) : Decidable (Reaches m src s z) :=
  inferInstanceAs (Decidable (_ ∨ _))

theorem powerof_twoPow (i : Format) : powerof (BitVec.twoPow 32 i) = some i := by
  revert i
  decide

theorem and_twoPow_eq_zero {i : ℕ} (hi : i < 32) :
    x &&& BitVec.twoPow 32 i = 0 ↔ x.getLsbD i = false := by
  rw [BitVec.and_twoPow]
  cases hx : x.getLsbD i with
  | false => simp
  | true =>
    rw [if_pos rfl]
    constructor
    · intro h0
      have hbit : (BitVec.twoPow 32 i).getLsbD i = true := by
        rw [BitVec.getLsbD_twoPow]
        simp [hi]
      rw [h0] at hbit
      simp at hbit
    · exact fun h => Bool.noConfusion h

theorem twoPow_shift {i : ℕ} : BitVec.twoPow 32 i <<< 1 = BitVec.twoPow 32 (i + 1) := by
  rw [BitVec.twoPow_eq, BitVec.twoPow_eq, BitVec.shiftLeft_add]

/-- A format that is not asked for, or is reached, is left in the result. -/
theorem checkFormat_kept (i : Format) (h : dest.getLsbD i = true → Reaches m src s i) :
    checkFormat m dest src s (BitVec.twoPow 32 i) res = res := by
  unfold checkFormat
  rw [powerof_twoPow]
  by_cases hd : dest.getLsbD i = true
  · rw [if_neg (by rw [and_twoPow_eq_zero i.isLt, hd]; exact Bool.noConfusion)]
    by_cases hs : src.getLsbD i = true
    · rw [if_pos (by rw [ne_eq, and_twoPow_eq_zero i.isLt, hs]; exact Bool.noConfusion)]
    · obtain ⟨h₁, h₂⟩ := (h hd).resolve_left hs
      rw [Option.isSome_iff_ne_none] at h₁ h₂
      rw [if_neg (by rw [ne_eq, and_twoPow_eq_zero i.isLt]; exact fun h => h (Bool.eq_false_iff.2 hs))]
      dsimp only
      rw [if_neg (by simpa using h₁), if_neg (by simpa using h₂)]
  · rw [if_pos ((and_twoPow_eq_zero i.isLt).2 (Bool.eq_false_iff.2 hd))]

/-- One that is asked for and is not reached is taken out. -/
theorem checkFormat_removed (i : Format) (hd : dest.getLsbD i = true) (h : ¬Reaches m src s i) :
    checkFormat m dest src s (BitVec.twoPow 32 i) res = res &&& ~~~BitVec.twoPow 32 i := by
  have hs : src.getLsbD i = false := Bool.eq_false_iff.2 fun hs => h (Or.inl hs)
  unfold checkFormat
  rw [powerof_twoPow, if_neg (by rw [and_twoPow_eq_zero i.isLt, hd]; exact Bool.noConfusion),
    if_neg (by rw [ne_eq, and_twoPow_eq_zero i.isLt, hs]; exact fun h => h rfl)]
  dsimp only
  by_cases h₁ : (m s i).step.isNone = true
  · rw [if_pos h₁]
  · have h₂ : (m i s).step.isNone = true := by
      refine Decidable.byContradiction fun h₂ => h (Or.inr ⟨?_, ?_⟩)
      · rw [Option.isSome_iff_ne_none]
        exact fun h0 => h₁ (by rw [h0]; rfl)
      · rw [Option.isSome_iff_ne_none]
        exact fun h0 => h₂ (by rw [h0]; rfl)
    rw [if_neg h₁, if_pos h₂]

theorem getLsbD_clear (i : Format) (j : ℕ) :
    (res &&& ~~~BitVec.twoPow 32 i).getLsbD j = true ↔ res.getLsbD j = true ∧ j ≠ i := by
  rw [BitVec.getLsbD_and, BitVec.getLsbD_not, BitVec.getLsbD_twoPow]
  by_cases hj : j < 32
  · have hi := i.isLt
    by_cases hji : j = i
    · simp [hji]
    · have hij : (i : ℕ) ≠ j := fun h => hji h.symm
      simp [hj, hji, hij]
  · rw [BitVec.getLsbD_of_ge res j (by omega)]
    simp

/-- **The body of a round** decides on its own format and on no other. -/
theorem checkFormat_bit (i : Format) (j : ℕ) :
    (checkFormat m dest src s (BitVec.twoPow 32 i) res).getLsbD j = true ↔
      res.getLsbD j = true ∧ (j = i → dest.getLsbD i = true → Reaches m src s i) := by
  by_cases h : dest.getLsbD i = true → Reaches m src s i
  · rw [checkFormat_kept i h]
    exact ⟨fun hj => ⟨hj, fun _ => h⟩, fun hj => hj.1⟩
  · have hd : dest.getLsbD i = true := Decidable.byContradiction fun hd => h fun hx => absurd hx hd
    have hr : ¬Reaches m src s i := fun hr => h fun _ => hr
    rw [checkFormat_removed i hd hr, getLsbD_clear]
    exact and_congr_right fun _ => ⟨fun hne heq => absurd heq hne, fun hx heq => hr (hx heq hd)⟩

/-! ## The loops -/

/-- **Either loop**, from format `i` over the `n` formats that its mask has
there, decides on those and on no others. -/
theorem availableLoop_spec {mask : BitVec 32} (hs : s ≠ 0) {n i fuel : ℕ} (hfuel : n < fuel)
    (hle : i + n ≤ 32) (hmask : ∀ k, i ≤ k → k < i + n → mask.getLsbD k = true)
    (hend : mask.getLsbD (i + n) = false) :
    ∃ res', availableLoop m dest src mask s fuel (BitVec.twoPow 32 i) res =
        (BitVec.twoPow 32 (i + n), res') ∧
      ∀ j : Format, res'.getLsbD j = true ↔ res.getLsbD j = true ∧
        (i ≤ j → j < i + n → dest.getLsbD j = true → Reaches m src s j) := by
  obtain ⟨k, rfl⟩ : ∃ k, fuel = k + 1 := ⟨fuel - 1, by omega⟩
  induction n generalizing i res k with
  | zero =>
    rw [Nat.add_zero] at hend ⊢
    have hzero : BitVec.twoPow 32 i &&& mask = 0 := by
      rw [BitVec.twoPow_and, if_neg (by rw [hend]; exact Bool.noConfusion)]
      rfl
    refine ⟨res, ?_, fun j => ⟨fun hj => ⟨hj, fun h₁ h₂ => by omega⟩, fun hj => hj.1⟩⟩
    rw [availableLoop, if_neg (fun h => h.2 hzero), Nat.add_zero]
  | succ n ih =>
    have hi : i < 32 := by omega
    have hbit : mask.getLsbD i = true := hmask i (Nat.le_refl i) (by omega)
    have hpos : BitVec.twoPow 32 i &&& mask ≠ 0 := by
      rw [BitVec.and_comm, ne_eq, and_twoPow_eq_zero hi, hbit]
      exact Bool.noConfusion
    have hend' : mask.getLsbD (i + 1 + n) = false := by
      rw [Nat.add_right_comm]
      exact hend
    obtain ⟨l, rfl⟩ : ∃ l, k = l + 1 := ⟨k - 1, by omega⟩
    obtain ⟨res', hloop, hres⟩ :=
      @ih (checkFormat m dest src s (BitVec.twoPow 32 i) res) (i + 1) (by omega)
        (fun k h₁ h₂ => hmask k (by omega) (by omega)) hend' l (by omega)
    refine ⟨res', ?_, fun j => ?_⟩
    · rw [availableLoop, if_pos ⟨hs, hpos⟩, twoPow_shift, hloop, Nat.add_right_comm]
      rfl
    · rw [hres, checkFormat_bit ⟨i, hi⟩ j]
      constructor
      · rintro ⟨⟨hj, hfirst⟩, hrest⟩
        refine ⟨hj, fun h₁ h₂ hd => ?_⟩
        by_cases hij : (j : ℕ) = i
        · have hjeq : j = ⟨i, hi⟩ := Fin.ext hij
          rw [hjeq] at hd ⊢
          exact hfirst hij hd
        · exact hrest (by omega) (by omega) hd
      · rintro ⟨hj, hall⟩
        refine ⟨⟨hj, fun hij hd => ?_⟩, fun h₁ h₂ hd => hall (by omega) (by omega) hd⟩
        have hjeq : j = ⟨i, hi⟩ := Fin.ext hij
        have hji : (j : ℕ) = i := hij
        rw [← hjeq] at hd ⊢
        exact hall (by omega) (by omega) hd

/-- A loop that does not begin. -/
theorem availableLoop_off {mask : BitVec 32} {fuel : ℕ} (h : s = 0 ∨ x &&& mask = 0) :
    availableLoop m dest src mask s fuel x res = (x, res) := by
  cases fuel with
  | zero => rfl
  | succ fuel =>
    rw [availableLoop, if_neg]
    rintro ⟨h₁, h₂⟩
    rcases h with h | h
    · exact h₁ h
    · exact h₂ h

/-- **Which formats are left**: of the audio formats those that are reached,
if the audio source is not format 0, and then of the video formats those that
are reached, if there is a video source. -/
theorem available_bit (hsrc : src ≠ 0) (j : Format) :
    (trisTranslateAvailableFormats m dest src).getLsbD j = true ↔
      dest.getLsbD j = true ∧
        (srcIndex src .audio ≠ 0 → (j : ℕ) < 16 → Reaches m src (srcIndex src .audio) j) ∧
        (srcIndex src .audio ≠ 0 → srcIndex src .video ≠ 0 → 16 ≤ (j : ℕ) → (j : ℕ) < 24 →
          Reaches m src (srcIndex src .video) j) := by
  rw [trisTranslateAvailableFormats, if_neg hsrc]
  dsimp only
  have hone : (1 : BitVec 32) = BitVec.twoPow 32 0 := by decide
  by_cases ha : srcIndex src .audio = 0
  · rw [availableLoop_off (Or.inl ha)]
    dsimp only
    rw [availableLoop_off (Or.inr (by decide))]
    exact ⟨fun hj => ⟨hj, fun h => absurd ha h, fun h => absurd ha h⟩, fun hj => hj.1⟩
  · have haudio : ∀ k, k < 0 + 16 → MediaKind.audio.mask.getLsbD k = true := by decide
    obtain ⟨res₁, hloop₁, hres₁⟩ :=
      @availableLoop_spec m dest src dest _ MediaKind.audio.mask ha 16 0 32 (by omega) (by omega)
        (fun k _ h => haudio k h) (by decide)
    rw [hone, hloop₁]
    dsimp only
    have hvideo : ∀ k, k < 24 → 16 ≤ k → MediaKind.video.mask.getLsbD k = true := by decide
    by_cases hv : srcIndex src .video = 0
    · rw [availableLoop_off (Or.inl hv)]
      dsimp only
      rw [hres₁]
      refine and_congr_right fun hd => ⟨fun h => ⟨fun _ h₁ => h (by omega) (by omega) hd,
        fun _ h => absurd hv h⟩, fun h _ h₁ _ => h.1 ha (by omega)⟩
    · obtain ⟨res₂, hloop₂, hres₂⟩ :=
        @availableLoop_spec m dest src res₁ _ MediaKind.video.mask hv 8 16 32 (by omega) (by omega)
          (fun k h₁ h₂ => hvideo k h₂ h₁) (by decide)
      rw [hloop₂]
      dsimp only
      rw [hres₂, hres₁, and_assoc]
      refine and_congr_right fun hd => ⟨?_, ?_⟩
      · rintro ⟨h₁, h₂⟩
        exact ⟨fun _ h => h₁ (by omega) (by omega) hd, fun _ _ h h' => h₂ (by omega) (by omega) hd⟩
      · rintro ⟨h₁, h₂⟩
        exact ⟨fun _ h _ => h₁ ha (by omega), fun h h' _ => h₂ ha hv (by omega) (by omega)⟩

/-! ## The law -/

/-- **What is to be left of a kind of formats**: those that are asked for and
that the source supplies or has paths to and from. -/
def KeepsReached (m : Matrix) (dest src : BitVec 32) (k : MediaKind) (s : Format) : Prop :=
  ∀ j : Format, k.mask.getLsbD j = true → dest.getLsbD j = true →
    ((trisTranslateAvailableFormats m dest src).getLsbD j = true ↔ Reaches m src s j)

theorem mask_bit (k : MediaKind) (j : Format) : k.mask.getLsbD j = true ↔
    (k = .audio ∧ (j : ℕ) < 16) ∨ (k = .video ∧ 16 ≤ (j : ℕ) ∧ (j : ℕ) < 24) := by
  cases k with
  | audio =>
    revert j
    decide
  | video =>
    revert j
    decide

theorem srcIndex_of_one {k : MediaKind} {s : Format} (h : src &&& k.mask = BitVec.twoPow 32 s) :
    srcIndex src k = s := by
  rw [srcIndex, h, powerof_twoPow, Option.getD_some]

/-- **The law holds** where the source has an audio format whose index is not
0, or where nothing is to be taken out. -/
theorem keepsReached_iff (m : Matrix) (dest src : BitVec 32) (k : MediaKind) (s : Format)
    (h : src &&& k.mask = BitVec.twoPow 32 s) :
    KeepsReached m dest src k s ↔ srcIndex src .audio ≠ 0 ∨
      ∀ j : Format, k.mask.getLsbD j = true → dest.getLsbD j = true → Reaches m src s j := by
  have hindex : srcIndex src k = s := srcIndex_of_one h
  have hsrc : src ≠ 0 := by
    rintro rfl
    have hbit : (BitVec.twoPow 32 s).getLsbD s = true := by
      rw [BitVec.getLsbD_twoPow]
      simp
    rw [← h] at hbit
    simp at hbit
  have hin : k.mask.getLsbD s = true := by
    have hbit : (BitVec.twoPow 32 s).getLsbD s = true := by
      rw [BitVec.getLsbD_twoPow]
      simp
    rw [← h, BitVec.getLsbD_and, Bool.and_eq_true] at hbit
    exact hbit.2
  by_cases ha : srcIndex src .audio = 0
  · have hall : ∀ j : Format, dest.getLsbD j = true →
        (trisTranslateAvailableFormats m dest src).getLsbD j = true := fun j hd =>
      (available_bit hsrc j).2 ⟨hd, fun hx => absurd ha hx, fun hx => absurd ha hx⟩
    constructor
    · exact fun hkeeps => Or.inr fun j hk hd => (hkeeps j hk hd).1 (hall j hd)
    · rintro (hx | hreach) j hk hd
      · exact absurd ha hx
      · exact ⟨fun _ => hreach j hk hd, fun _ => hall j hd⟩
  · refine ⟨fun _ => Or.inl ha, fun _ j hk hd => ?_⟩
    rw [available_bit hsrc]
    rcases (mask_bit k j).1 hk with ⟨rfl, hj⟩ | ⟨rfl, hj, hj'⟩
    · rw [hindex] at ha ⊢
      constructor
      · exact fun hx => hx.2.1 ha hj
      · exact fun hx => ⟨hd, fun _ _ => hx, fun _ _ h => absurd hj (by omega)⟩
    · have hv : s ≠ 0 := by
        rintro rfl
        exact absurd hin (by decide)
      rw [hindex]
      constructor
      · exact fun hx => hx.2.2 ha hv hj hj'
      · exact fun hx => ⟨hd, fun _ h => absurd hj (by omega), fun _ _ _ _ => hx⟩

/-- From u-law, with no translator, u-law alone is left. -/
theorem keepsReached_iff_ulaw : KeepsReached emptyMatrix 6 4 .audio 2 :=
  (keepsReached_iff emptyMatrix 6 4 .audio 2 (by decide)).2 (Or.inl (by decide))

/-- **From G.723.1, with no translator, every format is left.** -/
theorem not_keepsReached :
    ¬∀ (m : Matrix) (dest src : BitVec 32) (k : MediaKind) (s : Format),
      src &&& k.mask = BitVec.twoPow 32 s → KeepsReached m dest src k s := by
  intro h
  have hkeeps := h emptyMatrix 6 1 .audio 0 (by decide) 2 (by decide) (by decide)
  have hleft : (trisTranslateAvailableFormats emptyMatrix 6 1).getLsbD (2 : Format) = true := by
    decide
  exact absurd (hkeeps.1 hleft) (by decide)

end Translate

end Trismedia
