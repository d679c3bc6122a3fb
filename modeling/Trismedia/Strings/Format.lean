import Trismedia.Common.Reads
import Trismedia.Strings.Model
/-!
# Dynamic strings — formatted calls

What a sound string is, what a write does to it, and when `tris_str_set` and
`tris_str_append` leave it sound. `formatted_iff` is the exact condition: the text
must not be one byte too long for a buffer that is not made longer, and a buffer
that cannot be made longer must already be full.
-/


namespace Trismedia

namespace Strings

open CString

variable {alloc : ℕ → Bool} {buf buf' : TrisStr} {base text t : CString} {maxLen : ℤ}

/-! ## Sound strings -/

/-- The content, by its count. -/
def TrisStr.content (buf : TrisStr) : CString := slice buf.str 0 buf.used

/-- **A sound string** ends where its count says, within its buffer. -/
structure TrisStr.Sound (buf : TrisStr) : Prop where
  fits : buf.used < buf.len
  ends : buf.str buf.used = 0
  nonzero : 0 ∉ buf.content

theorem TrisStr.content_length (buf : TrisStr) : buf.content.length = buf.used := slice_length _ _ _

theorem TrisStr.Sound.reads (h : buf.Sound) : Reads buf.str 0 (buf.content ++ [0]) := by
  rw [reads_concat, TrisStr.content_length, Nat.zero_add]
  exact ⟨reads_slice _ _ _, h.ends⟩

theorem content_of_used (h : Reads buf.str 0 (t ++ [0])) (hused : buf.used = t.length) :
    buf.content = t := by
  rw [TrisStr.content, hused]
  exact (reads_append.1 h).1.slice_eq

/-- **Where a text stands with its end**, the string is sound exactly when its count is
the length of the text. -/
theorem sound_iff_used (h : Reads buf.str 0 (t ++ [0])) (hzero : 0 ∉ t)
    (hlen : t.length < buf.len) : buf.Sound ↔ buf.used = t.length := by
  constructor
  · intro hsound
    have heq : buf.content = t := hsound.reads.unique h hsound.nonzero hzero
    rw [← buf.content_length, heq]
  · intro hused
    have hcontent := content_of_used h hused
    refine ⟨by omega, ?_, by rwa [hcontent]⟩
    have hend := (reads_concat.1 h).2
    rwa [Nat.zero_add, ← hused] at hend

/-- The storage of `len` bytes may not or cannot grow to `asked` bytes. -/
def Storage.Stuck (alloc : ℕ → Bool) (maxLen : ℤ) (len asked : ℕ) (ts : Storage) : Prop :=
  maxLen < 0 ∨ 0 < maxLen ∧ maxLen ≤ len ∨ ts = .alloca ∨ alloc asked = false

/-- **What a call is to leave**: a sound string with the content that is wanted, cut
only where the storage may not or cannot grow. -/
def Leaves (alloc : ℕ → Bool) (maxLen : ℤ) (asked : TrisStr → ℕ) (wanted : CString)
    (result : Option TrisStr) : Prop :=
  ∃ buf, result = some buf ∧ buf.Sound ∧ (buf.content = wanted ∨
    buf.content <+: wanted ∧ buf.ts.Stuck alloc maxLen buf.len (asked buf))

/-! ## Writing -/

theorem poke_of_lt {i : ℕ} {c : CChar} (h : i < buf.len) :
    buf.poke i c = some { buf with str := Function.update buf.str i c } := if_pos h

theorem poke_of_ge {i : ℕ} {c : CChar} (h : buf.len ≤ i) : buf.poke i c = none :=
  if_neg (by omega)

/-- Bytes are written behind what stands there. -/
theorem put_spec (h : base.length + text.length ≤ buf.len) (hbase : Reads buf.str 0 base) :
    ∃ buf', buf.put base.length text = some buf' ∧ Reads buf'.str 0 (base ++ text) ∧
      buf' = { buf with str := buf'.str } := by
  induction text generalizing buf base with
  | nil => exact ⟨buf, rfl, by rwa [List.append_nil], rfl⟩
  | cons c text ih =>
    rw [List.length_cons] at h
    have hpoke : buf.poke base.length c =
        some { buf with str := Function.update buf.str base.length c } := poke_of_lt (by omega)
    have hread : Reads (Function.update buf.str base.length c) 0 (base ++ [c]) := by
      have hsnoc := hbase.snoc (c := c)
      rwa [Nat.zero_add] at hsnoc
    have hlen : (base ++ [c]).length = base.length + 1 := by simp
    obtain ⟨buf', hput, hreads, hsame⟩ :=
      @ih { buf with str := Function.update buf.str base.length c } (base ++ [c])
        (by show _ ≤ buf.len; omega) hread
    rw [hlen] at hput
    refine ⟨buf', ?_, by simpa using hreads, hsame⟩
    rw [TrisStr.put, hpoke]
    exact hput

/-- `full` has been printed to the buffer, as far as it has room. -/
structure Printed (full : CString) (buf buf' : TrisStr) : Prop where
  reads : Reads buf'.str 0 (full.take (buf'.len - 1) ++ [0])
  same : buf' = { buf with str := buf'.str }

/-- **`vsnprintf` behind what stands there.** -/
theorem vsnprintf_spec (hbase : Reads buf.str 0 base) (hlen : base.length < buf.len)
    (text : CString) :
    ∃ buf', vsnprintf buf base.length (roomFrom buf base.length) text = some buf' ∧
      Printed (base ++ text) buf buf' := by
  have hroom : roomFrom buf base.length = buf.len - base.length := if_pos (by omega)
  have htake : (base ++ text).take (buf.len - 1) =
      base ++ text.take (buf.len - base.length - 1) := by
    have hcount : buf.len - 1 - base.length = buf.len - base.length - 1 := by omega
    rw [List.take_append, List.take_of_length_le (by omega), hcount]
  have hfit : base.length + (text.take (buf.len - base.length - 1) ++ [0]).length ≤ buf.len := by
    rw [List.length_append, List.length_take, List.length_singleton]
    omega
  obtain ⟨buf', hput, hreads, hsame⟩ := put_spec hfit hbase
  refine ⟨buf', ?_, ?_, hsame⟩
  · rw [vsnprintf, hroom, if_neg (by omega), hput]
  · have hlen' : buf'.len = buf.len := by rw [hsame]
    rw [hlen', htake, List.append_assoc]
    exact hreads
/-! ## What a formatted call does -/

/-- The storage can grow, and there is a block of `n` bytes for it. -/
def Storage.CanGrow (alloc : ℕ → Bool) (n : ℕ) (ts : Storage) : Prop :=
  ts ≠ .alloca ∧ alloc n = true

instance (n : ℕ) (ts : Storage) : Decidable (ts.CanGrow alloc n) :=
  inferInstanceAs (Decidable (ts ≠ .alloca ∧ alloc n = true))

/-- Storage that cannot grow holds a text that is cut. -/
theorem Storage.Stuck.of_not_canGrow {asked len : ℕ} {ts : Storage}
    (h : ¬ ts.CanGrow alloc asked) : ts.Stuck alloc maxLen len asked := by
  by_cases hts : ts = .alloca
  · exact Or.inr (Or.inr (Or.inl hts))
  · by_cases halloc : alloc asked = true
    · exact absurd ⟨hts, halloc⟩ h
    · exact Or.inr (Or.inr (Or.inr ((Bool.not_eq_true _).mp halloc)))

theorem makeSpace_eq {n : ℕ} (h : buf.len < n) :
    trisStrMakeSpace alloc buf n =
      if buf.ts.CanGrow alloc n then some { buf with len := n } else none := by
  rw [trisStrMakeSpace, if_neg (by omega)]
  by_cases hts : buf.ts = .alloca
  · rw [if_pos hts, if_neg fun hgrow => hgrow.1 hts]
  · rw [if_neg hts]
    by_cases halloc : alloc n = true
    · rw [if_pos halloc, if_pos ⟨hts, halloc⟩]
    · rw [if_neg halloc, if_neg fun hgrow => halloc hgrow.2]

/-- A call that needs this many bytes has the buffer made longer. -/
def Lengthens (maxLen : ℤ) (len need : ℕ) : Prop :=
  len < need ∧ (maxLen = 0 ∨ (len : ℤ) < maxLen)

instance (len need : ℕ) : Decidable (Lengthens maxLen len need) :=
  inferInstanceAs (Decidable (len < need ∧ (maxLen = 0 ∨ (len : ℤ) < maxLen)))

theorem lengthens_clamp {len need : ℕ} (hlen : 0 < len) :
    (len < need ∧ ((if maxLen < 0 then (len : ℤ) else maxLen) = 0 ∨
      (len : ℤ) < if maxLen < 0 then (len : ℤ) else maxLen)) ↔ Lengthens maxLen len need := by
  unfold Lengthens
  split
  · constructor
    · intro h
      omega
    · intro h
      omega
  · exact Iff.rfl

theorem growTo_gt {len need : ℕ} (hmore : Lengthens maxLen len need) :
    len < growTo maxLen need := by
  obtain ⟨hlen, hmax⟩ := hmore
  unfold growTo
  split
  · omega
  · split
    · omega
    · exact hlen

section Loop

variable {fuel : ℕ}

theorem strHelperLoop_over (hbase : Reads buf.str 0 base) (hlen : base.length < buf.len)
    (hint : intMax < text.length + base.length + 1) :
    strHelperLoop alloc base.length text (fuel + 1) maxLen buf = none := by
  obtain ⟨buf', hprint, -⟩ := vsnprintf_spec hbase hlen text
  rw [strHelperLoop, hprint]
  dsimp only
  rw [if_pos hint]

/-- The last round. -/
theorem strHelperLoop_stay (hbase : Reads buf.str 0 base) (hlen : base.length < buf.len)
    (hint : text.length + base.length + 1 ≤ intMax)
    (hstay : ¬ Lengthens maxLen buf.len (text.length + base.length + 1)) :
    ∃ buf', strHelperLoop alloc base.length text (fuel + 1) maxLen buf = some ({ buf' with
        used := if buf.len < text.length + base.length then buf.len - 1
          else text.length + base.length }, (text.length : ℤ)) ∧ Printed (base ++ text) buf buf' := by
  obtain ⟨buf', hprint, hprinted⟩ := vsnprintf_spec hbase hlen text
  have hlen' : buf'.len = buf.len := by rw [hprinted.same]
  refine ⟨buf', ?_, hprinted⟩
  rw [strHelperLoop, hprint]
  dsimp only
  rw [hlen', if_neg (by omega), if_neg fun h => hstay ((lengthens_clamp (by omega)).1 h)]

/-- A round that finds the buffer too short, up to where it is made longer. -/
theorem strHelperLoop_lengthen (alloc : ℕ → Bool) (fuel : ℕ)
    (hbase : Reads buf.str 0 base) (hlen : base.length < buf.len)
    (hint : text.length + base.length + 1 ≤ intMax)
    (hmore : Lengthens maxLen buf.len (text.length + base.length + 1)) :
    ∃ buf', Printed (base ++ text) buf buf' ∧
      (intMax < growTo maxLen (text.length + base.length + 1) →
        strHelperLoop alloc base.length text (fuel + 1) maxLen buf = none) ∧
      (growTo maxLen (text.length + base.length + 1) ≤ intMax →
        ¬ buf.ts.CanGrow alloc (growTo maxLen (text.length + base.length + 1)) →
        strHelperLoop alloc base.length text (fuel + 1) maxLen buf = some (buf', -1)) ∧
      (growTo maxLen (text.length + base.length + 1) ≤ intMax →
        buf.ts.CanGrow alloc (growTo maxLen (text.length + base.length + 1)) →
        strHelperLoop alloc base.length text (fuel + 1) maxLen buf =
          strHelperLoop alloc base.length text fuel maxLen { buf' with
            len := growTo maxLen (text.length + base.length + 1)
            str := Function.update buf'.str base.length 0 }) := by
  obtain ⟨buf', hprint, hprinted⟩ := vsnprintf_spec hbase hlen text
  have hlen' : buf'.len = buf.len := by rw [hprinted.same]
  have hts : buf'.ts = buf.ts := by rw [hprinted.same]
  have hgt := growTo_gt hmore
  have hmax : (if maxLen < 0 then (buf.len : ℤ) else maxLen) = maxLen := by
    rw [if_neg]
    have hmore' := hmore.2
    omega
  have hround : strHelperLoop alloc base.length text (fuel + 1) maxLen buf =
      if intMax < growTo maxLen (text.length + base.length + 1) then none
      else if buf.ts.CanGrow alloc (growTo maxLen (text.length + base.length + 1)) then
        strHelperLoop alloc base.length text fuel maxLen { buf' with
          len := growTo maxLen (text.length + base.length + 1)
          str := Function.update buf'.str base.length 0 }
      else some (buf', -1) := by
    rw [strHelperLoop, hprint]
    dsimp only
    rw [hlen', if_neg (by omega), if_pos ((lengthens_clamp (by omega)).2 hmore), hmax,
      makeSpace_eq (by omega)]
    rw [hts]
    by_cases hcan : buf.ts.CanGrow alloc (growTo maxLen (text.length + base.length + 1))
    · rw [if_pos hcan, if_pos hcan]
      dsimp only
      rw [poke_of_lt (by show base.length < growTo _ _; omega)]
      rfl
    · rw [if_neg hcan, if_neg hcan]
  refine ⟨buf', hprinted, fun hover => ?_, fun hin hcannot => ?_, fun hin hcan => ?_⟩
  · rw [hround, if_pos hover]
  · rw [hround, if_neg (by omega), if_neg hcannot]
  · rw [hround, if_neg (by omega), if_pos hcan]

/-- In the buffer that was made longer, no more is asked for. -/
theorem not_lengthens_growTo {need : ℕ} : ¬ Lengthens maxLen (growTo maxLen need) need := by
  unfold Lengthens growTo
  split
  · omega
  · split <;> omega

end Loop

/-- **When a formatted call that needs `need` bytes leaves the string sound.** -/
def FormatOk (alloc : ℕ → Bool) (buf : TrisStr) (maxLen : ℤ) (need : ℕ) : Prop :=
  need ≤ intMax ∧
    if Lengthens maxLen buf.len need then
      growTo maxLen need ≤ intMax ∧
        if buf.ts.CanGrow alloc (growTo maxLen need) then need ≠ growTo maxLen need + 1
        else buf.used + 1 = buf.len
    else need ≠ buf.len + 1
/-- A text that has been printed as far as there is room is what the call is to leave
exactly when it is counted right. -/
theorem leaves_printed {asked : TrisStr → ℕ} {used : ℕ}
    (hreads : Reads buf.str 0 (text.take (buf.len - 1) ++ [0])) (hzero : 0 ∉ text)
    (hlen : 0 < buf.len)
    (hcut : buf.len ≤ text.length → buf.ts.Stuck alloc maxLen buf.len (asked { buf with used })) :
    Leaves alloc maxLen asked text (some { buf with used }) ↔
      used = min (buf.len - 1) text.length := by
  have hzero' : 0 ∉ text.take (buf.len - 1) := fun hmem => hzero (List.mem_of_mem_take hmem)
  have hfit : (text.take (buf.len - 1)).length < buf.len := by
    rw [List.length_take]
    omega
  have hsound : ({ buf with used } : TrisStr).Sound ↔ used = (text.take (buf.len - 1)).length :=
    sound_iff_used hreads hzero' hfit
  rw [List.length_take] at hsound
  constructor
  · rintro ⟨_, hsome, hs, -⟩
    obtain rfl := Option.some.inj hsome
    exact hsound.1 hs
  · intro hused
    have hcontent : ({ buf with used } : TrisStr).content = text.take (buf.len - 1) :=
      content_of_used hreads (by rw [List.length_take]; exact hused)
    refine ⟨{ buf with used }, rfl, hsound.2 hused, ?_⟩
    rw [hcontent]
    rcases Nat.lt_or_ge text.length buf.len with hwhole | hpart
    · exact Or.inl (List.take_of_length_le (by omega))
    · exact Or.inr ⟨List.take_prefix _ _, hcut hpart⟩

theorem leaves_none {asked : TrisStr → ℕ} : ¬ Leaves alloc maxLen asked text none := by
  rintro ⟨_, hnone, -⟩
  cases hnone

/-- **The loop of a formatted call**, from what stands before its text. -/
theorem strHelperLoop_iff {fuel : ℕ} (hbase : Reads buf.str 0 base) (hlen : base.length < buf.len)
    (hzero : 0 ∉ base ++ text) :
    Leaves alloc maxLen (fun _ => growTo maxLen (text.length + base.length + 1)) (base ++ text)
        ((strHelperLoop alloc base.length text (fuel + 2) maxLen buf).map Prod.fst) ↔
      FormatOk alloc buf maxLen (text.length + base.length + 1) := by
  have hfull : (base ++ text).length = text.length + base.length := by
    rw [List.length_append, Nat.add_comm]
  unfold FormatOk
  by_cases hint : text.length + base.length + 1 ≤ intMax
  · by_cases hmore : Lengthens maxLen buf.len (text.length + base.length + 1)
    · obtain ⟨buf', hprinted, hover, hrefused, hgrown⟩ :=
        strHelperLoop_lengthen alloc (fuel + 1) hbase hlen hint hmore
      have hlen' : buf'.len = buf.len := by rw [hprinted.same]
      have hused' : buf'.used = buf.used := by rw [hprinted.same]
      have hts' : buf'.ts = buf.ts := by rw [hprinted.same]
      have hgt := growTo_gt hmore
      have hneed := hmore.1
      rw [if_pos hmore]
      by_cases hin : growTo maxLen (text.length + base.length + 1) ≤ intMax
      · by_cases hcan : buf.ts.CanGrow alloc (growTo maxLen (text.length + base.length + 1))
        · -- the next round has room, or as much of it as it is allowed
          have htake : (base ++ text).take (buf'.len - 1) =
              base ++ text.take (buf'.len - 1 - base.length) := by
            rw [List.take_append, List.take_of_length_le (by omega)]
          have hprefix := (reads_append.1 hprinted.reads).1
          rw [htake] at hprefix
          have hstand : Reads (Function.update buf'.str base.length 0) 0 base :=
            (reads_append.1 hprefix).1.update (by omega)
          obtain ⟨buf'', hloop, hprinted'⟩ := @strHelperLoop_stay alloc { buf' with
            len := growTo maxLen (text.length + base.length + 1)
            str := Function.update buf'.str base.length 0 } base text maxLen fuel hstand
            (by show _ < growTo _ _; omega) hint not_lengthens_growTo
          have hlen'' : buf''.len = growTo maxLen (text.length + base.length + 1) := by
            rw [hprinted'.same]
          rw [hgrown hin hcan, if_pos hcan, hloop]
          refine (leaves_printed hprinted'.reads hzero (by omega) fun hpart => ?_).trans ?_
          · have hcapped : growTo maxLen (text.length + base.length + 1) <
                text.length + base.length + 1 := by omega
            have hmax : 0 < maxLen ∧ maxLen ≤ growTo maxLen (text.length + base.length + 1) := by
              have hmore' := hmore.2
              unfold growTo at hcapped ⊢
              split at hcapped
              · rename_i hlimit
                rw [if_pos hlimit]
                omega
              · split at hcapped <;> omega
            rw [← hlen''] at hmax
            exact Or.inr (Or.inl hmax)
          · rw [hfull, hlen'']
            dsimp only
            split <;> omega
        · rw [hrefused hin hcan, if_neg hcan]
          refine (leaves_printed hprinted.reads hzero (by omega) fun _ => ?_).trans ?_
          · rw [← hts'] at hcan
            exact Storage.Stuck.of_not_canGrow hcan
          · rw [hfull, hlen', hused']
            omega
      · rw [hover (by omega)]
        exact ⟨fun h => absurd h leaves_none, fun h => absurd h.2.1 hin⟩
    · obtain ⟨buf', hloop, hprinted⟩ := strHelperLoop_stay hbase hlen hint hmore
      have hlen' : buf'.len = buf.len := by rw [hprinted.same]
      rw [hloop, if_neg hmore]
      refine (leaves_printed hprinted.reads hzero (by omega) fun hpart => ?_).trans ?_
      · unfold Lengthens at hmore
        unfold Storage.Stuck
        omega
      · rw [hfull, hlen']
        split <;> omega
  · rw [strHelperLoop_over hbase hlen (by omega)]
    exact ⟨fun h => absurd h leaves_none, fun h => absurd h.1 hint⟩
/-- What stands before what a call adds. -/
def TrisStr.before (append : Bool) (buf : TrisStr) : CString := if append then buf.content else []

theorem TrisStr.Sound.before_length_lt (h : buf.Sound) (append : Bool) :
    (buf.before append).length < buf.len := by
  have hfits := h.fits
  unfold TrisStr.before
  split
  · rwa [buf.content_length]
  · rw [List.length_nil]
    omega

theorem TrisStr.Sound.before_reads (h : buf.Sound) (append : Bool) :
    Reads buf.str 0 (buf.before append) := by
  unfold TrisStr.before
  split
  · exact (reads_append.1 h.reads).1
  · trivial

theorem TrisStr.Sound.before_nonzero (h : buf.Sound) (append : Bool) :
    0 ∉ buf.before append := by
  unfold TrisStr.before
  split
  · exact h.nonzero
  · exact List.not_mem_nil

/-- **When a formatted call leaves the string sound**, with its text, cut only where the
storage may not or cannot grow. -/
theorem strHelper_iff (hsound : buf.Sound) (hzero : 0 ∉ text) (append : Bool) :
    Leaves alloc maxLen
        (fun _ => growTo maxLen (text.length + (buf.before append).length + 1))
        (buf.before append ++ text) ((strHelper alloc buf maxLen append text).map Prod.fst) ↔
      FormatOk alloc buf maxLen (text.length + (buf.before append).length + 1) := by
  have hfits := hsound.fits
  have hoffset : (if append ∧ buf.len ≠ 0 then buf.used else 0) = (buf.before append).length := by
    unfold TrisStr.before
    cases append with
    | true =>
      rw [if_pos ⟨rfl, by omega⟩, if_pos rfl, buf.content_length]
    | false => simp
  unfold strHelper
  dsimp only
  rw [hoffset]
  refine strHelperLoop_iff (hsound.before_reads append) (hsound.before_length_lt append) ?_
  rw [List.mem_append, not_or]
  exact ⟨hsound.before_nonzero append, hzero⟩

end Strings

/-!
## Dynamic strings — calls that copy characters

What the loop of `__tris_str_helper2` leaves in the buffer, and when it ends
well. `CopyOk` follows the room and the count of characters alone: each
character must fit when it is written, and the count must not be used up where
the copying ends, for the end of the string is then written over the last
character, which stays counted.
-/

namespace Strings

open CString

variable {alloc : ℕ → Bool} {buf buf' : TrisStr} {base src : CString} {maxLen : ℤ}
variable {escapecommas dynamic : Bool} {ptr maxlen maxsrc len : ℕ} {ts : Storage}

/-! ## What is copied -/

/-- What is written for one character. -/
def escapeChar (escapecommas : Bool) (c : CChar) : CString :=
  if isEscaped escapecommas c then [chr '\\', c] else [c]

/-- What is written for a text. -/
def escape (escapecommas : Bool) (src : CString) : CString := src.flatMap (escapeChar escapecommas)

theorem escape_false (src : CString) : escape false src = src := by
  induction src with
  | nil => rfl
  | cons c src ih =>
    rw [escape] at ih ⊢
    rw [List.flatMap_cons, ih]
    rfl

theorem escape_nonzero (h : 0 ∉ src) : 0 ∉ escape escapecommas src := by
  intro hmem
  obtain ⟨c, hc, hzero⟩ := List.mem_flatMap.1 hmem
  have hne : (0 : CChar) ≠ c := by
    rintro rfl
    exact h hc
  unfold escapeChar at hzero
  split at hzero
  · rcases List.mem_cons.1 hzero with hslash | hzero
    · exact absurd hslash (by decide)
    · exact hne (List.mem_singleton.1 hzero)
  · exact hne (List.mem_singleton.1 hzero)

theorem escape_eq_nil : escape escapecommas src = [] ↔ src = [] := by
  constructor
  · intro hnil
    cases src with
    | nil => rfl
    | cons c src =>
      have hhead : escapeChar escapecommas c = [] := (List.append_eq_nil_iff.1 hnil).1
      unfold escapeChar at hhead
      split at hhead <;> cases hhead
  · rintro rfl
    rfl

theorem escapeChar_length (escapecommas : Bool) (c : CChar) :
    (escapeChar escapecommas c).length = if isEscaped escapecommas c then 2 else 1 := by
  unfold escapeChar
  split <;> rfl

/-- One character is written, with the backslash before it. -/
def TrisStr.copyEscaped (escapecommas : Bool) (buf : TrisStr) (ptr : ℕ) (c : CChar) :
    Option TrisStr :=
  (if isEscaped escapecommas c then buf.copyChar ptr (chr '\\') else some buf).bind
    (TrisStr.copyChar · (if isEscaped escapecommas c then ptr + 1 else ptr) c)

/-- What one more character changes. -/
structure CopiedOne (escapecommas : Bool) (base : CString) (c : CChar) (buf buf' : TrisStr) :
    Prop where
  reads : Reads buf'.str 0 (base ++ escapeChar escapecommas c)
  used : buf'.used = buf.used + (escapeChar escapecommas c).length
  len : buf'.len = buf.len
  ts : buf'.ts = buf.ts

theorem copyChar_of_lt {c : CChar} (h : ptr < buf.len) : buf.copyChar ptr c =
    some { buf with str := Function.update buf.str ptr c, used := buf.used + 1 } := by
  rw [TrisStr.copyChar, poke_of_lt h]
  rfl

theorem copyChar_of_ge {c : CChar} (h : buf.len ≤ ptr) : buf.copyChar ptr c = none := by
  rw [TrisStr.copyChar, poke_of_ge h]
  rfl

/-- **One character is copied** exactly where there is room for what is written. -/
theorem copyEscaped_spec (escapecommas : Bool) (hbase : Reads buf.str 0 base) (c : CChar) :
    (base.length + (escapeChar escapecommas c).length ≤ buf.len →
      ∃ buf', buf.copyEscaped escapecommas base.length c = some buf' ∧
        CopiedOne escapecommas base c buf buf') ∧
    (buf.len < base.length + (escapeChar escapecommas c).length →
      buf.copyEscaped escapecommas base.length c = none) := by
  have hsnoc : ∀ (mem : ℕ → CChar) (text : CString) (d : CChar), Reads mem 0 text →
      Reads (Function.update mem text.length d) 0 (text ++ [d]) := by
    intro mem text d htext
    have hread := htext.snoc (c := d)
    rwa [Nat.zero_add] at hread
  unfold TrisStr.copyEscaped escapeChar
  by_cases hesc : isEscaped escapecommas c = true
  · rw [if_pos hesc, if_pos hesc, if_pos hesc]
    constructor
    · intro hroom
      simp only [List.length_cons, List.length_nil] at hroom
      rw [copyChar_of_lt (by omega), Option.bind_some, copyChar_of_lt (by show _ < buf.len; omega)]
      have hslash := hsnoc buf.str base (chr '\\') hbase
      have hboth := hsnoc _ _ c hslash
      have hlen : (base ++ [chr '\\']).length = base.length + 1 := by simp
      rw [hlen, List.append_assoc] at hboth
      refine ⟨_, rfl, ?_, ?_, rfl, rfl⟩
      all_goals
        unfold escapeChar
        rw [if_pos hesc]
      · exact hboth
      · rfl
    · intro hfull
      simp only [List.length_cons, List.length_nil] at hfull
      rcases Nat.lt_or_ge base.length buf.len with hlt | hge
      · rw [copyChar_of_lt hlt, Option.bind_some, copyChar_of_ge (by show buf.len ≤ _; omega)]
      · rw [copyChar_of_ge hge]
        rfl
  · rw [if_neg hesc, if_neg hesc, if_neg hesc, Option.bind_some]
    constructor
    · intro hroom
      simp only [List.length_cons, List.length_nil] at hroom
      rw [copyChar_of_lt (by omega)]
      refine ⟨_, rfl, ?_, ?_, rfl, rfl⟩
      all_goals
        unfold escapeChar
        rw [if_neg hesc]
      · exact hsnoc buf.str base c hbase
      · rfl
    · intro hfull
      simp only [List.length_cons, List.length_nil] at hfull
      rw [copyChar_of_ge (by omega)]
/-! ## The loop -/

/-- The buffer is to be made longer, from here on. -/
def IsNear (escapecommas dynamic : Bool) (len ptr maxlen : ℕ) : Prop :=
  len ≤ ptr + 3 ∨ dynamic ∧ isSpent escapecommas maxlen

instance : Decidable (IsNear escapecommas dynamic len ptr maxlen) :=
  inferInstanceAs (Decidable (len ≤ ptr + 3 ∨ dynamic ∧ isSpent escapecommas maxlen))

/-- **Copying `src` ends well** from `ptr`, in a buffer of `len` bytes and with a count
of `maxlen` left: the end of the string stands in the buffer, something is left of the
count, and a text that is cut is in storage that may not or cannot grow. -/
def CopyOk (alloc : ℕ → Bool) (maxLen : ℤ) (ts : Storage) (escapecommas dynamic : Bool) :
    CString → ℕ → ℕ → ℕ → Prop
  | [], len, ptr, maxlen => ptr < len ∧ maxlen ≠ 0
  | c :: src, len, ptr, maxlen =>
    if isSpent escapecommas maxlen then
      ptr < len ∧ maxlen ≠ 0 ∧ ts.Stuck alloc maxLen len (len * 2)
    else
      let width := (escapeChar escapecommas c).length
      ptr + width ≤ len ∧
        if IsNear escapecommas dynamic len (ptr + width) (maxlen - width) then
          if ts.CanGrow alloc (len * 2) then
            CopyOk alloc maxLen ts escapecommas dynamic src (len * 2) (ptr + width) len
          else ptr + width < len ∧ maxlen - width ≠ 0
        else CopyOk alloc maxLen ts escapecommas dynamic src len (ptr + width) (maxlen - width)

/-- Where the copying ended, the string can be ended. -/
def Copied.EndsWell (alloc : ℕ → Bool) (maxLen : ℤ) (copied : Copied) : Prop :=
  copied.ptr < copied.buf.len ∧ copied.maxlen ≠ 0 ∧ (copied.src.take copied.maxsrc = [] ∨
    copied.buf.ts.Stuck alloc maxLen copied.buf.len (copied.buf.len * 2))

/-- What the copying of `src` has put behind `base`. -/
structure CopiedTo (escapecommas : Bool) (base src : CString) (buf : TrisStr) (maxlen : ℕ)
    (copied : Copied) (taken : CString) : Prop where
  split : src = taken ++ copied.src.take copied.maxsrc
  reads : Reads copied.buf.str 0 (base ++ escape escapecommas taken)
  ptr : copied.ptr = (base ++ escape escapecommas taken).length
  used : copied.buf.used = buf.used + (escape escapecommas taken).length
  ts : copied.buf.ts = buf.ts
  idle : taken = [] → copied.maxlen = maxlen

/-- One character, and the rest of the loop. -/
theorem copyLoop_cons (alloc : ℕ → Bool) (dynamic : Bool) (src : CString) (c : CChar) (ptr : ℕ)
    (hmore : ¬ (maxsrc = 0 ∨ isSpent escapecommas maxlen)) (hlen : 0 < buf.len) :
    (buf.copyEscaped escapecommas ptr c = none →
      copyLoop alloc escapecommas dynamic (c :: src) buf ptr maxlen maxsrc = none) ∧
    ∀ buf', buf.copyEscaped escapecommas ptr c = some buf' → buf'.len = buf.len →
      copyLoop alloc escapecommas dynamic (c :: src) buf ptr maxlen maxsrc =
        if IsNear escapecommas dynamic buf.len (ptr + (escapeChar escapecommas c).length)
            (maxlen - (escapeChar escapecommas c).length) then
          if buf'.ts.CanGrow alloc (buf.len * 2) then
            copyLoop alloc escapecommas dynamic src { buf' with len := buf.len * 2 }
              (ptr + (escapeChar escapecommas c).length) buf.len (maxsrc - 1)
          else some ⟨buf', ptr + (escapeChar escapecommas c).length,
            maxlen - (escapeChar escapecommas c).length, src, maxsrc - 1⟩
        else copyLoop alloc escapecommas dynamic src buf'
          (ptr + (escapeChar escapecommas c).length)
          (maxlen - (escapeChar escapecommas c).length) (maxsrc - 1) := by
  have hptr : (if isEscaped escapecommas c then ptr + 1 else ptr) + 1 =
      ptr + (escapeChar escapecommas c).length := by
    rw [escapeChar_length]
    split <;> omega
  have hcount : (if isEscaped escapecommas c then maxlen - 1 else maxlen) - 1 =
      maxlen - (escapeChar escapecommas c).length := by
    rw [escapeChar_length]
    split <;> omega
  rw [copyLoop, if_neg hmore]
  dsimp only
  constructor
  · intro hnone
    unfold TrisStr.copyEscaped at hnone
    rw [hnone]
  · intro buf' hsome hlen'
    unfold TrisStr.copyEscaped at hsome
    rw [hsome]
    dsimp only
    rw [hptr, hcount, hlen']
    by_cases hnear : IsNear escapecommas dynamic buf.len (ptr + (escapeChar escapecommas c).length)
        (maxlen - (escapeChar escapecommas c).length)
    · rw [if_pos hnear]
      refine (if_pos hnear).trans ?_
      rw [makeSpace_eq (by omega)]
      by_cases hcan : buf'.ts.CanGrow alloc (buf.len * 2)
      · rw [if_pos hcan, if_pos hcan]
      · rw [if_neg hcan, if_neg hcan]
    · rw [if_neg hnear]
      exact if_neg hnear

/-- What is copied behind the first character is copied behind `base`. -/
theorem CopiedTo.cons {c : CChar} {copied : Copied} {taken : CString} {mid : TrisStr} {count : ℕ}
    (h : CopiedTo escapecommas (base ++ escapeChar escapecommas c) src mid count copied taken)
    (hused : mid.used = buf.used + (escapeChar escapecommas c).length) (hts : mid.ts = buf.ts) :
    CopiedTo escapecommas base (c :: src) buf maxlen copied (c :: taken) := by
  have hescape : escape escapecommas (c :: taken) =
      escapeChar escapecommas c ++ escape escapecommas taken := rfl
  refine ⟨congrArg (c :: ·) h.split, ?_, ?_, ?_, h.ts.trans hts, fun hnil => by cases hnil⟩
  · rw [hescape, ← List.append_assoc]
    exact h.reads
  · rw [hescape, ← List.append_assoc]
    exact h.ptr
  · rw [hescape, List.length_append, h.used, hused, Nat.add_assoc]

/-- Nothing more is copied. -/
theorem CopiedTo.stop (hbase : Reads buf.str 0 base) :
    CopiedTo escapecommas base (src.take maxsrc) buf maxlen
      ⟨buf, base.length, maxlen, src, maxsrc⟩ [] :=
  ⟨rfl, by rwa [escape, List.flatMap_nil, List.append_nil],
    by rw [escape, List.flatMap_nil, List.append_nil], rfl, rfl, fun _ => rfl⟩

/-- **The loop**: it writes outside the buffer, and does not end well; or it has copied
as much as it did, and ends well exactly where `CopyOk` says so. -/
theorem copyLoop_spec (hbase : Reads buf.str 0 base) (hlen : 0 < buf.len) :
    (copyLoop alloc escapecommas dynamic src buf base.length maxlen maxsrc = none ∧
      ¬ CopyOk alloc maxLen buf.ts escapecommas dynamic (src.take maxsrc) buf.len base.length
        maxlen) ∨
    ∃ copied taken,
      copyLoop alloc escapecommas dynamic src buf base.length maxlen maxsrc = some copied ∧
      CopiedTo escapecommas base (src.take maxsrc) buf maxlen copied taken ∧
      (copied.EndsWell alloc maxLen ↔ CopyOk alloc maxLen buf.ts escapecommas dynamic
        (src.take maxsrc) buf.len base.length maxlen) := by
  induction src generalizing buf base maxlen maxsrc with
  | nil =>
    refine Or.inr ⟨_, [], rfl, CopiedTo.stop hbase, ?_⟩
    simp [Copied.EndsWell, CopyOk]
  | cons c src ih =>
    rcases Nat.eq_zero_or_pos maxsrc with rfl | hmaxsrc
    · refine Or.inr ⟨⟨buf, base.length, maxlen, c :: src, 0⟩, [], ?_, CopiedTo.stop hbase, ?_⟩
      · rw [copyLoop, if_pos (Or.inl rfl)]
      · simp [Copied.EndsWell, CopyOk]
    · have htake : (c :: src).take maxsrc = c :: src.take (maxsrc - 1) := by
        obtain ⟨n, rfl⟩ : ∃ n, maxsrc = n + 1 := ⟨maxsrc - 1, by omega⟩
        rfl
      by_cases hspent : isSpent escapecommas maxlen = true
      · refine Or.inr ⟨⟨buf, base.length, maxlen, c :: src, maxsrc⟩, [], ?_,
          CopiedTo.stop hbase, ?_⟩
        · rw [copyLoop, if_pos (Or.inr hspent)]
        · rw [htake, CopyOk, if_pos hspent]
          simp [Copied.EndsWell, htake]
      · obtain ⟨hoverrun, hnext⟩ := copyLoop_cons alloc dynamic src c base.length
          (not_or.2 ⟨(by omega : ¬ maxsrc = 0), hspent⟩) hlen
        obtain ⟨hroom, hfull⟩ := copyEscaped_spec escapecommas hbase c
        have hbehind : base.length + (escapeChar escapecommas c).length =
            (base ++ escapeChar escapecommas c).length := (List.length_append).symm
        rw [htake, CopyOk, if_neg hspent]
        dsimp only
        rcases Nat.lt_or_ge buf.len (base.length + (escapeChar escapecommas c).length) with
          hover | hfit
        · -- the character, or its backslash, goes outside
          exact Or.inl ⟨hoverrun (hfull hover), fun hok => absurd hok.1 (by omega)⟩
        · obtain ⟨buf', hcopy, hone⟩ := hroom hfit
          rw [hnext buf' hcopy hone.len, hone.ts, and_iff_right hfit]
          rw [hbehind] at hfit ⊢
          have hrest : ∀ mid : TrisStr, mid.str = buf'.str → mid.used = buf'.used →
              mid.ts = buf.ts → 0 < mid.len → ∀ count : ℕ,
              (copyLoop alloc escapecommas dynamic src mid
                  (base ++ escapeChar escapecommas c).length count (maxsrc - 1) = none ∧
                ¬ CopyOk alloc maxLen buf.ts escapecommas dynamic (src.take (maxsrc - 1)) mid.len
                  (base ++ escapeChar escapecommas c).length count) ∨
              ∃ copied taken, copyLoop alloc escapecommas dynamic src mid
                  (base ++ escapeChar escapecommas c).length count (maxsrc - 1) = some copied ∧
                CopiedTo escapecommas base (c :: src.take (maxsrc - 1)) buf maxlen copied taken ∧
                (copied.EndsWell alloc maxLen ↔
                  CopyOk alloc maxLen buf.ts escapecommas dynamic (src.take (maxsrc - 1)) mid.len
                    (base ++ escapeChar escapecommas c).length count) := by
            intro mid hstr hused hts hpos count
            have hreads : Reads mid.str 0 (base ++ escapeChar escapecommas c) := by
              rw [hstr]
              exact hone.reads
            rw [← hts]
            rcases ih hreads hpos with ⟨hnone, hbad⟩ | ⟨copied, taken, hrun, hto, hends⟩
            · exact Or.inl ⟨hnone, hbad⟩
            · exact Or.inr ⟨copied, c :: taken, hrun, hto.cons (hused.trans hone.used) hts, hends⟩
          by_cases hnear : IsNear escapecommas dynamic buf.len
              (base ++ escapeChar escapecommas c).length
              (maxlen - (escapeChar escapecommas c).length)
          · rw [if_pos hnear, if_pos hnear]
            by_cases hcan : buf.ts.CanGrow alloc (buf.len * 2)
            · rw [if_pos hcan, if_pos hcan]
              exact hrest { buf' with len := buf.len * 2, ts := buf.ts } rfl rfl rfl
                (by show 0 < buf.len * 2; omega) buf.len
            · rw [if_neg hcan, if_neg hcan]
              refine Or.inr ⟨_, [c], rfl, (CopiedTo.stop hone.reads).cons hone.used hone.ts, ?_⟩
              rw [← hone.ts] at hcan
              rw [← hone.len] at hcan ⊢
              exact ⟨fun h => ⟨h.1, h.2.1⟩,
                fun h => ⟨h.1, h.2, Or.inr (Storage.Stuck.of_not_canGrow hcan)⟩⟩
          · rw [if_neg hnear, if_neg hnear, ← hone.len]
            exact hrest buf' rfl rfl hone.ts (by rw [hone.len]; exact hlen) _

/-! ## The call -/

theorem escape_append (a b : CString) :
    escape escapecommas (a ++ b) = escape escapecommas a ++ escape escapecommas b :=
  List.flatMap_append

/-- What the call leaves where the copying ended. -/
theorem leaves_copied {copied : Copied} {taken wanted : CString} {append : Bool}
    (hsound : buf.Sound) (hzero : 0 ∉ wanted) (hcount : maxlen ≠ 0)
    (hto : CopiedTo escapecommas (buf.before append) wanted buf maxlen copied taken) :
    Leaves alloc maxLen (fun buf => buf.len * 2)
        (buf.before append ++ escape escapecommas wanted)
        (copied.buf.poke (if copied.maxlen = 0 then copied.ptr - 1 else copied.ptr) 0) ↔
      (append ∨ buf.used = 0) ∧ copied.EndsWell alloc maxLen := by
  have hbefore : (buf.before append).length ≤ buf.used ∧
      ((buf.before append).length = buf.used ↔ append ∨ buf.used = 0) := by
    unfold TrisStr.before
    cases append with
    | true => simp [buf.content_length]
    | false => simp [eq_comm]
  have hstood := hsound.before_nonzero append
  have hsplit := hto.split
  have hreads := hto.reads
  have hptr := hto.ptr
  have hused := hto.used
  generalize buf.before append = base at *
  have hall : 0 ∉ base ++ escape escapecommas taken := by
    rw [List.mem_append, not_or]
    refine ⟨hstood, escape_nonzero fun hmem => hzero ?_⟩
    rw [hsplit]
    exact List.mem_append_left _ hmem
  rw [List.length_append] at hptr
  by_cases hspent : copied.maxlen = 0
  · -- the end goes over the last character, which stays counted
    rw [if_pos hspent]
    constructor
    · rintro ⟨buf', hpoke, hsound', -⟩
      have htaken : escape escapecommas taken ≠ [] := by
        rw [Ne, escape_eq_nil]
        intro hnil
        exact hcount ((hto.idle hnil).symm.trans hspent)
      have hpos := List.length_pos_iff.2 htaken
      rcases Nat.lt_or_ge (copied.ptr - 1) copied.buf.len with hlt | hge
      · rw [poke_of_lt hlt] at hpoke
        obtain rfl := Option.some.inj hpoke
        have hmem : Function.update copied.buf.str (copied.ptr - 1) 0 (0 + (copied.ptr - 1)) ∈
            slice (Function.update copied.buf.str (copied.ptr - 1) 0) 0 copied.buf.used :=
          mem_slice (by omega)
        rw [Nat.zero_add, Function.update_self] at hmem
        exact absurd hmem hsound'.nonzero
      · rw [poke_of_ge hge] at hpoke
        cases hpoke
    · rintro ⟨-, hends⟩
      exact absurd hspent hends.2.1
  · rw [if_neg hspent]
    rcases Nat.lt_or_ge copied.ptr copied.buf.len with hlt | hge
    · have hended := hreads.snoc (c := 0)
      rw [Nat.zero_add, List.length_append, ← hptr] at hended
      have hlen : (base ++ escape escapecommas taken).length < copied.buf.len := by
        rw [List.length_append]
        omega
      have hcounted : ({ copied.buf with
          str := Function.update copied.buf.str copied.ptr 0 } : TrisStr).Sound ↔
          copied.buf.used = (base ++ escape escapecommas taken).length :=
        sound_iff_used hended hall hlen
      have happend : copied.buf.used = (base ++ escape escapecommas taken).length ↔
          append ∨ buf.used = 0 := by
        rw [← hbefore.2, List.length_append]
        omega
      have hcontent : copied.buf.used = (base ++ escape escapecommas taken).length →
          ({ copied.buf with
            str := Function.update copied.buf.str copied.ptr 0 } : TrisStr).content =
            base ++ escape escapecommas taken := fun hc => content_of_used hended hc
      have hescape : escape escapecommas wanted = escape escapecommas taken ++
          escape escapecommas (copied.src.take copied.maxsrc) := by
        rw [← escape_append, ← hsplit]
      rw [poke_of_lt hlt]
      constructor
      · rintro ⟨buf', hsome, hs, hwhole⟩
        obtain rfl := Option.some.inj hsome
        have hc := hcounted.1 hs
        refine ⟨happend.1 hc, hlt, hspent, ?_⟩
        rcases hwhole with hwhole | ⟨-, hstuck⟩
        · rw [hcontent hc, hescape, ← List.append_assoc, List.self_eq_append_right,
            escape_eq_nil] at hwhole
          exact Or.inl hwhole
        · exact Or.inr hstuck
      · rintro ⟨hplace, -, -, hrest⟩
        have hc := happend.2 hplace
        refine ⟨_, rfl, hcounted.2 hc, ?_⟩
        rw [hcontent hc, hescape, ← List.append_assoc]
        rcases hrest with hnil | hstuck
        · left
          rw [hnil]
          exact (List.append_nil _).symm
        · exact Or.inr ⟨List.prefix_append _ _, hstuck⟩
    · rw [poke_of_ge hge]
      exact ⟨fun h => absurd h leaves_none, fun h => absurd h.2.1 (by omega)⟩

/-- How many characters a call may copy, to begin with. -/
def countFor (maxLen : ℤ) (len : ℕ) : ℕ := if maxLen < 1 then len else maxLen.toNat

/-- **When a call that copies characters leaves the string sound**, with what is
wanted, cut only where the storage may not or cannot grow. -/
theorem strHelper2_iff (hsound : buf.Sound) (hzero : 0 ∉ src) (append : Bool) :
    Leaves alloc maxLen (fun buf => buf.len * 2)
        (buf.before append ++ escape escapecommas (src.take maxsrc))
        (strHelper2 alloc buf maxLen src maxsrc append escapecommas) ↔
      (append ∨ buf.used = 0) ∧
        CopyOk alloc maxLen buf.ts escapecommas (maxLen = 0) (src.take maxsrc) buf.len
          (buf.before append).length (countFor maxLen buf.len) := by
  have hfits := hsound.fits
  have hptr : (if append then buf.used else 0) = (buf.before append).length := by
    unfold TrisStr.before
    cases append with
    | true => exact buf.content_length.symm
    | false => rfl
  have hcount : countFor maxLen buf.len ≠ 0 := by
    unfold countFor
    split <;> omega
  have hzero' : 0 ∉ src.take maxsrc := fun hmem => hzero (List.mem_of_mem_take hmem)
  unfold strHelper2
  dsimp only
  rw [hptr]
  have hspec := @copyLoop_spec alloc buf (buf.before append) src maxLen escapecommas
    (decide (maxLen = 0)) (countFor maxLen buf.len) maxsrc (hsound.before_reads append) (by omega)
  rcases hspec with ⟨hnone, hbad⟩ | ⟨copied, taken, hrun, hto, hends⟩
  · have hrun : copyLoop alloc escapecommas (decide (maxLen = 0)) src buf
        (buf.before append).length (if maxLen < 1 then buf.len else maxLen.toNat) maxsrc = none :=
      hnone
    rw [hrun]
    exact ⟨fun h => absurd h leaves_none, fun h => absurd h.2 hbad⟩
  · have hrun' : copyLoop alloc escapecommas (decide (maxLen = 0)) src buf
        (buf.before append).length (if maxLen < 1 then buf.len else maxLen.toNat) maxsrc =
          some copied := hrun
    rw [hrun', ← hends]
    exact leaves_copied hsound hzero' hcount hto

end Strings

end Trismedia
