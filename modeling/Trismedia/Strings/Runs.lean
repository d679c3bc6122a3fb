import Mathlib.Data.List.DropRight
import Trismedia.Strings.Format
/-!
# Dynamic strings — sequences of calls

The nine calls, what each is to leave, and when it does. `goes_iff_meets` carries
this to every sequence of calls on every kind of storage, whatever blocks there
are for `realloc`. What goes wrong is the count of the string: a text of just
`LEN` bytes is counted as such, a call that sets a string by copying adds to the
old count, the end is written over a character that stays counted, and a string
that cannot be made longer keeps the old count with a new text.
-/


namespace Trismedia

namespace Strings

open CString

variable {alloc : ℕ → Bool} {buf buf' : TrisStr}

/-! ## Trailing blanks -/

/-- `(unsigned char) c < 33`, as `tris_trim_blanks` has it. -/
def isBlank (c : CChar) : Bool := c.toNat < 33

/-- `c < 33`, of a signed character. -/
def isTrimmed (c : CChar) : Bool := c.toInt < 33

theorem isTrimmed_iff (c : CChar) : isTrimmed c ↔ isBlank c ∨ 128 ≤ c.toNat := by
  have hc := c.isLt
  unfold isTrimmed isBlank
  rw [decide_eq_true_iff, decide_eq_true_iff, BitVec.toInt_eq_toNat_cond]
  split <;> omega

/-- **`tris_str_trim_blanks`** leaves what stands before the trimmed characters. -/
theorem trimLoop_spec {n : ℕ} (hsound : buf.Sound) (hused : buf.used = n) :
    ∃ buf', trimLoop n buf = some buf' ∧ buf'.Sound ∧
      buf'.content = buf.content.rdropWhile isTrimmed := by
  induction n generalizing buf with
  | zero =>
    refine ⟨buf, rfl, hsound, ?_⟩
    have hnil : buf.content = [] := List.length_eq_zero_iff.1 (by rw [buf.content_length, hused])
    rw [hnil, List.rdropWhile_nil]
  | succ n ih =>
    have hfits := hsound.fits
    have hcontent : buf.content = slice buf.str 0 n ++ [buf.str n] := by
      rw [TrisStr.content, hused, slice_succ, Nat.zero_add]
    by_cases hblank : (buf.str n).toInt < 33
    · have hpoke : ({ buf with used := n } : TrisStr).poke n 0 =
          some { buf with used := n, str := Function.update buf.str n 0 } :=
        poke_of_lt (by show n < buf.len; omega)
      have hslice : slice (Function.update buf.str n 0) 0 n = slice buf.str 0 n := by
        have hreads : Reads (Function.update buf.str n 0) 0 (slice buf.str 0 n) :=
          (reads_slice _ _ _).update (by rw [slice_length, Nat.zero_add])
        have heq := hreads.slice_eq
        rwa [slice_length] at heq
      have hsound' : ({ buf with used := n, str := Function.update buf.str n 0 } : TrisStr).Sound := by
        refine ⟨by show n < buf.len; omega, Function.update_self _ _ _, ?_⟩
        show 0 ∉ slice (Function.update buf.str n 0) 0 n
        rw [hslice]
        intro hmem
        refine hsound.nonzero ?_
        rw [hcontent]
        exact List.mem_append_left _ hmem
      obtain ⟨buf', htrim, hs, hc⟩ := ih hsound' rfl
      refine ⟨buf', ?_, hs, ?_⟩
      · rw [trimLoop, if_pos hblank, hpoke]
        exact htrim
      · rw [hc, hcontent, List.rdropWhile_concat_pos _ _ _ (by simpa [isTrimmed] using hblank)]
        show (slice (Function.update buf.str n 0) 0 n).rdropWhile _ = _
        rw [hslice]
    · refine ⟨buf, ?_, hsound, ?_⟩
      · rw [trimLoop, if_neg hblank]
      · rw [hcontent, List.rdropWhile_concat_neg _ _ _ (by simpa [isTrimmed] using hblank)]

/-- What is left without the blanks ends in a character that is not trimmed. -/
def TrimOk (buf : TrisStr) : Prop :=
  ∀ c ∈ (buf.content.rdropWhile isBlank).getLast?, c.toNat < 128

theorem rdropWhile_trimmed_iff (s : CString) :
    s.rdropWhile isTrimmed = s.rdropWhile isBlank ↔
      ∀ c ∈ (s.rdropWhile isBlank).getLast?, c.toNat < 128 := by
  induction s using List.reverseRecOn with
  | nil => simp
  | append_singleton s c ih =>
    by_cases hblank : isBlank c = true
    · have htrimmed := (isTrimmed_iff c).2 (Or.inl hblank)
      rw [List.rdropWhile_concat_pos _ _ _ hblank, List.rdropWhile_concat_pos _ _ _ htrimmed]
      exact ih
    · rw [List.rdropWhile_concat_neg _ _ _ hblank, List.getLast?_concat]
      by_cases hhigh : 128 ≤ c.toNat
      · have htrimmed := (isTrimmed_iff c).2 (Or.inr hhigh)
        rw [List.rdropWhile_concat_pos _ _ _ htrimmed]
        constructor
        · intro heq
          have hle := (List.rdropWhile_prefix isTrimmed s).length_le
          rw [heq, List.length_append, List.length_singleton] at hle
          omega
        · intro hlow
          have hc := hlow c rfl
          omega
      · have htrimmed : ¬ isTrimmed c = true := by
          rw [isTrimmed_iff, not_or]
          exact ⟨hblank, hhigh⟩
        rw [List.rdropWhile_concat_neg _ _ _ htrimmed]
        constructor
        · rintro - d hd
          obtain rfl := Option.some.inj hd
          omega
        · exact fun _ => rfl

/-! ## The calls -/

/-- A text: it ends at its NUL. -/
abbrev Text := { s : CString // 0 ∉ s }

inductive Call
  | set (maxLen : ℤ) (text : Text)
  | append (maxLen : ℤ) (text : Text)
  | setSubstr (maxLen : ℤ) (src : Text) (maxsrc : ℕ)
  | appendSubstr (maxLen : ℤ) (src : Text) (maxsrc : ℕ)
  | setEscapecommas (maxLen : ℤ) (src : Text) (maxsrc : ℕ)
  | appendEscapecommas (maxLen : ℤ) (src : Text) (maxsrc : ℕ)
  | reset
  | trimBlanks
  | makeSpace (newLen : ℕ)

/-- What a call does; `none` where it writes outside the buffer. -/
def Call.run (alloc : ℕ → Bool) (buf : TrisStr) : Call → Option TrisStr
  | .set maxLen text => trisStrSet alloc buf maxLen text
  | .append maxLen text => trisStrAppend alloc buf maxLen text
  | .setSubstr maxLen src maxsrc => trisStrSetSubstr alloc buf maxLen src maxsrc
  | .appendSubstr maxLen src maxsrc => trisStrAppendSubstr alloc buf maxLen src maxsrc
  | .setEscapecommas maxLen src maxsrc => trisStrSetEscapecommas alloc buf maxLen src maxsrc
  | .appendEscapecommas maxLen src maxsrc => trisStrAppendEscapecommas alloc buf maxLen src maxsrc
  | .reset => trisStrReset buf
  | .trimBlanks => trisStrTrimBlanks buf
  | .makeSpace newLen => some ((trisStrMakeSpace alloc buf newLen).getD buf)

/-- A sound string with just this content. -/
def Holds (wanted : CString) (result : Option TrisStr) : Prop :=
  ∃ buf, result = some buf ∧ buf.Sound ∧ buf.content = wanted

/-- **What a call is to do.** -/
def Call.Good (alloc : ℕ → Bool) (buf : TrisStr) (call : Call) : Prop :=
  match call with
  | .set maxLen text =>
    Leaves alloc maxLen (fun _ => growTo maxLen (text.1.length + 1)) text (call.run alloc buf)
  | .append maxLen text =>
    Leaves alloc maxLen (fun _ => growTo maxLen (text.1.length + buf.used + 1))
      (buf.content ++ text) (call.run alloc buf)
  | .setSubstr maxLen src maxsrc =>
    Leaves alloc maxLen (fun buf => buf.len * 2) (src.1.take maxsrc) (call.run alloc buf)
  | .appendSubstr maxLen src maxsrc =>
    Leaves alloc maxLen (fun buf => buf.len * 2) (buf.content ++ src.1.take maxsrc)
      (call.run alloc buf)
  | .setEscapecommas maxLen src maxsrc =>
    Leaves alloc maxLen (fun buf => buf.len * 2) (escape true (src.1.take maxsrc))
      (call.run alloc buf)
  | .appendEscapecommas maxLen src maxsrc =>
    Leaves alloc maxLen (fun buf => buf.len * 2) (buf.content ++ escape true (src.1.take maxsrc))
      (call.run alloc buf)
  | .reset => Holds [] (call.run alloc buf)
  | .trimBlanks => Holds (buf.content.rdropWhile isBlank) (call.run alloc buf)
  | .makeSpace _ => Holds buf.content (call.run alloc buf)

/-- **When a call does it.** -/
def Call.Meets (alloc : ℕ → Bool) (buf : TrisStr) : Call → Prop
  | .set maxLen text => FormatOk alloc buf maxLen (text.1.length + 1)
  | .append maxLen text => FormatOk alloc buf maxLen (text.1.length + buf.used + 1)
  | .setSubstr maxLen src maxsrc => buf.used = 0 ∧
    CopyOk alloc maxLen buf.ts false (maxLen = 0) (src.1.take maxsrc) buf.len 0
      (countFor maxLen buf.len)
  | .appendSubstr maxLen src maxsrc =>
    CopyOk alloc maxLen buf.ts false (maxLen = 0) (src.1.take maxsrc) buf.len buf.used
      (countFor maxLen buf.len)
  | .setEscapecommas maxLen src maxsrc => buf.used = 0 ∧
    CopyOk alloc maxLen buf.ts true (maxLen = 0) (src.1.take maxsrc) buf.len 0
      (countFor maxLen buf.len)
  | .appendEscapecommas maxLen src maxsrc =>
    CopyOk alloc maxLen buf.ts true (maxLen = 0) (src.1.take maxsrc) buf.len buf.used
      (countFor maxLen buf.len)
  | .reset => True
  | .trimBlanks => TrimOk buf
  | .makeSpace _ => True

/-- **A call does what it is to do exactly where it meets its condition.** -/
theorem Call.good_iff_meets (hsound : buf.Sound) (call : Call) :
    call.Good alloc buf ↔ call.Meets alloc buf := by
  have hset : buf.before false = [] := rfl
  have happend : buf.before true = buf.content := rfl
  have hlen := buf.content_length
  cases call with
  | set maxLen text =>
    have hcall := @strHelper_iff alloc buf text maxLen hsound text.2 false
    rw [hset, List.length_nil, Nat.add_zero, List.nil_append] at hcall
    exact hcall
  | append maxLen text =>
    have hcall := @strHelper_iff alloc buf text maxLen hsound text.2 true
    rw [happend, hlen] at hcall
    exact hcall
  | setSubstr maxLen src maxsrc =>
    have hcall := @strHelper2_iff alloc buf src maxLen false maxsrc hsound src.2 false
    rw [hset, List.length_nil, List.nil_append, escape_false] at hcall
    exact hcall.trans (and_congr_left fun _ => by simp)
  | appendSubstr maxLen src maxsrc =>
    have hcall := @strHelper2_iff alloc buf src maxLen false maxsrc hsound src.2 true
    rw [happend, hlen, escape_false] at hcall
    exact hcall.trans (and_iff_right (Or.inl rfl))
  | setEscapecommas maxLen src maxsrc =>
    have hcall := @strHelper2_iff alloc buf src maxLen true maxsrc hsound src.2 false
    rw [hset, List.length_nil, List.nil_append] at hcall
    exact hcall.trans (and_congr_left fun _ => by simp)
  | appendEscapecommas maxLen src maxsrc =>
    have hcall := @strHelper2_iff alloc buf src maxLen true maxsrc hsound src.2 true
    rw [happend, hlen] at hcall
    exact hcall.trans (and_iff_right (Or.inl rfl))
  | reset =>
    have hfits := hsound.fits
    have hrun : trisStrReset buf =
        some { buf with used := 0, str := Function.update buf.str 0 0 } := by
      rw [trisStrReset, if_pos (by omega), poke_of_lt (by show 0 < buf.len; omega)]
    refine iff_of_true ⟨_, hrun, ⟨?_, Function.update_self 0 0 buf.str, List.not_mem_nil⟩, rfl⟩
      trivial
    show 0 < buf.len
    omega
  | trimBlanks =>
    obtain ⟨buf', hrun, hsound', hcontent⟩ := trimLoop_spec hsound rfl
    refine Iff.trans ?_ (rdropWhile_trimmed_iff buf.content)
    rw [← hcontent]
    constructor
    · rintro ⟨_, hsome, -, hwanted⟩
      obtain rfl := Option.some.inj (hrun.symm.trans hsome)
      exact hwanted
    · intro hwanted
      exact ⟨buf', hrun, hsound', hwanted⟩
  | makeSpace newLen =>
    refine iff_of_true ⟨_, rfl, ?_⟩ trivial
    by_cases hlonger : buf.len < newLen
    · rw [makeSpace_eq hlonger]
      by_cases hcan : buf.ts.CanGrow alloc newLen
      · rw [if_pos hcan]
        exact ⟨⟨Nat.lt_trans hsound.fits hlonger, hsound.ends, hsound.nonzero⟩, rfl⟩
      · rw [if_neg hcan]
        exact ⟨hsound, rfl⟩
    · have hrun : trisStrMakeSpace alloc buf newLen = some buf := if_pos (by omega)
      rw [hrun]
      exact ⟨hsound, rfl⟩

theorem Call.Good.sound {call : Call} (h : call.Good alloc buf)
    (hrun : call.run alloc buf = some buf') : buf'.Sound := by
  have hsome : ∃ found, call.run alloc buf = some found ∧ found.Sound := by
    cases call with
    | _ =>
      obtain ⟨found, hfound, hs, -⟩ := h
      exact ⟨found, hfound, hs⟩
  obtain ⟨found, hfound, hs⟩ := hsome
  obtain rfl := Option.some.inj (hfound.symm.trans hrun)
  exact hs

theorem Call.Good.runs {call : Call} (h : call.Good alloc buf) :
    ∃ buf', call.run alloc buf = some buf' := by
  cases call with
  | _ =>
    obtain ⟨found, hfound, -⟩ := h
    exact ⟨found, hfound⟩

/-! ## Sequences of calls -/

/-- **Every call of the sequence does what it is to do**, and writes nowhere but in the
buffer; each has its own `realloc`. -/
def Goes : List ((ℕ → Bool) × Call) → TrisStr → Prop
  | [], _ => True
  | (alloc, call) :: calls, buf =>
    call.Good alloc buf ∧ ∃ buf', call.run alloc buf = some buf' ∧ buf'.Sound ∧ Goes calls buf'

/-- Every call of the sequence meets its condition, in the string it is made on. -/
def MeetsAll : List ((ℕ → Bool) × Call) → TrisStr → Prop
  | [], _ => True
  | (alloc, call) :: calls, buf =>
    call.Meets alloc buf ∧ ∀ buf', call.run alloc buf = some buf' → MeetsAll calls buf'

/-- **Dynamic strings.** A sequence of calls on a sound string does what it is to do
exactly where each call meets its condition. -/
theorem goes_iff_meets (hsound : buf.Sound) (calls : List ((ℕ → Bool) × Call)) :
    Goes calls buf ↔ MeetsAll calls buf := by
  induction calls generalizing buf with
  | nil => exact Iff.rfl
  | cons event calls ih =>
    obtain ⟨alloc, call⟩ := event
    constructor
    · rintro ⟨hgood, buf', hrun, hsound', hrest⟩
      refine ⟨(call.good_iff_meets hsound).1 hgood, fun found hfound => ?_⟩
      obtain rfl := Option.some.inj (hrun.symm.trans hfound)
      exact (ih hsound').1 hrest
    · rintro ⟨hmeets, hrest⟩
      have hgood := (call.good_iff_meets hsound).2 hmeets
      obtain ⟨buf', hrun⟩ := hgood.runs
      have hsound' := hgood.sound hrun
      exact ⟨hgood, buf', hrun, hsound', (ih hsound').2 (hrest buf' hrun)⟩

/-- A string that was just made: an empty one, of `len` bytes. -/
def created (ts : Storage) (len : ℕ) (str : ℕ → CChar) : TrisStr :=
  ⟨len, 0, ts, Function.update str 0 0⟩

theorem created_sound (ts : Storage) {len : ℕ} (str : ℕ → CChar) (h : 0 < len) :
    (created ts len str).Sound :=
  ⟨h, Function.update_self 0 0 str, List.not_mem_nil⟩

/-- A text is added to an empty string, which is then emptied. -/
theorem goes_iff_meets_hello :
    Goes [(fun _ => true, .append 0 ⟨str "hello", by decide⟩), (fun _ => true, .reset)]
      (created .malloc 4 fun _ => 1) := by
  refine (goes_iff_meets (created_sound _ _ (by decide)) _).2
    ⟨⟨by decide, ?_⟩, fun _ _ => ⟨trivial, fun _ _ => trivial⟩⟩
  rw [if_pos (by decide)]
  refine ⟨by decide, ?_⟩
  rw [if_pos (by decide)]
  decide

/-- A string that is set by copying, and then set again. -/
def setTwice : List ((ℕ → Bool) × Call) :=
  [(fun _ => true, .setSubstr 0 ⟨str "ab", by decide⟩ 10),
    (fun _ => true, .setSubstr 0 ⟨str "c", by decide⟩ 10)]

theorem not_goes : ¬ ∀ (ts : Storage) (len : ℕ) (str : ℕ → CChar)
    (calls : List ((ℕ → Bool) × Call)), 0 < len → Goes calls (created ts len str) := by
  intro hall
  obtain ⟨-, buf, hfirst, -, ⟨buf', hsecond, hsound, -⟩, -⟩ :=
    hall .malloc 16 (fun _ => 0) setTwice (by decide)
  have hend : (((Call.setSubstr 0 ⟨str "ab", by decide⟩ 10).run (fun _ => true)
      (created .malloc 16 fun _ => 0)).bind fun buf =>
        (Call.setSubstr 0 ⟨str "c", by decide⟩ 10).run (fun _ => true) buf).map
          (fun buf => (buf.used, buf.str 1)) = some (3, 0) := by decide +kernel
  rw [hfirst, Option.bind_some, hsecond] at hend
  have hpair : (buf'.used, buf'.str 1) = (3, 0) := Option.some.inj hend
  have hused : buf'.used = 3 := congrArg Prod.fst hpair
  have hzero : buf'.str 1 = 0 := congrArg Prod.snd hpair
  have hmem : buf'.str (0 + 1) ∈ buf'.content := mem_slice (by omega)
  rw [Nat.zero_add, hzero] at hmem
  exact hsound.nonzero hmem

end Strings

end Trismedia
