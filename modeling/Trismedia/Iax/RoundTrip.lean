import Mathlib.Data.List.Induction
import Trismedia.Iax.Parse
/-!
# Encoder and decoder together

Any calls of the encoder on an empty buffer, and the decoder on what they
leave. The space check of the encoder does not count the type and the
length; `append_parse_iff` is exact about it, for data that the length octet
can tell.
-/


namespace Trismedia

namespace Iax

open CString CInt

variable {call : Call} {calls taken : List Call} {ied ied' : IaxIeData}

/-- **The calls each refuse or append**: `taken` are those that append. -/
inductive Appends : IaxIeData → List Call → List Call → IaxIeData → Prop
  | nil (ied : IaxIeData) : Appends ied [] [] ied
  | refused {ied ied' : IaxIeData} {call : Call} {calls taken : List Call}
      (h : call.append ied = some (-1, ied)) (hrest : Appends ied calls taken ied') :
      Appends ied (call :: calls) taken ied'
  | appended {ied ied' ied'' : IaxIeData} {call : Call} {calls taken : List Call}
      (h : call.append ied = some (0, ied')) (hpos : ied'.pos ≤ sizeofBuf)
      (hoct : octets ied'.buf 0 ied'.pos = octets ied.buf 0 ied.pos ++ call.element)
      (hrest : Appends ied' calls taken ied'') : Appends ied (call :: calls) (call :: taken) ied''

/-- The pointer to the call token: the last token, if it is not empty. -/
def TokenOk (R : ℕ → List CChar → Prop) (calls : List Call) (ies : IaxIes) : Prop :=
  Option.Rel R ies.calltokendata ((latest Call.token? calls).filter (· ≠ []))

/-- **The round trip.** The calls on an empty buffer each refuse or append,
and the decoder finds for each field the last element appended. -/
def RoundTrip (buf : ℕ → CChar) (calls : List Call) : Prop :=
  ∃ taken ied, Appends ⟨buf, 0⟩ calls taken ied ∧
    ∀ mem, octets mem 0 ied.pos = octets ied.buf 0 ied.pos →
      ∃ ies mem', iaxParseIes mem ied.pos = (0, ies, mem') ∧
        Fields (Terminated mem') taken ies ∧ TokenOk (Terminated mem') taken ies

/-! ## The encoder -/

/-- There is room for the two octets before the data too, or not even for
the data. -/
def Roomy : ℕ → List Call → Prop
  | _, [] => True
  | pos, call :: calls =>
    if call.payload.length > sizeofBuf - pos then Roomy pos calls
    else call.payload.length + 2 ≤ sizeofBuf - pos ∧ Roomy (pos + (call.payload.length + 2)) calls

/-- The calls that append. -/
def takenFrom : ℕ → List Call → List Call
  | _, [] => []
  | pos, call :: calls =>
    if call.payload.length > sizeofBuf - pos then takenFrom pos calls
    else call :: takenFrom (pos + (call.payload.length + 2)) calls

theorem takenFrom_subset {pos : ℕ} : takenFrom pos calls ⊆ calls := by
  induction calls generalizing pos with
  | nil => exact List.Subset.refl _
  | cons call calls ih =>
    rw [takenFrom]
    split_ifs
    · exact fun c hc => List.mem_cons_of_mem _ (ih hc)
    · exact List.cons_subset_cons call ih

/-- A call with data the length octet can tell. -/
theorem append_eq (hshort : call.payload.length ≤ 255) (ied : IaxIeData) :
    call.append ied = iaxIeAppendRaw ied call.ie call.payload call.payload.length := by
  have hwrap : wrapInt call.payload.length = call.payload.length := by
    refine wrapInt_of_inInt ⟨?_, ?_⟩
    · unfold intMin
      omega
    · unfold intMax
      omega
  cases call with
  | raw ie data =>
    rw [Call.append, Call.ie, Call.payload]
    rw [Call.payload] at hwrap
    rw [hwrap]
  | addr ie sin => simp [Call.append, Call.ie, Call.payload, iaxIeAppendAddr]
  | int ie value => rfl
  | short ie value => rfl
  | str ie s =>
    rw [Call.append, Call.ie, Call.payload, iaxIeAppendStr]
    rw [Call.payload] at hwrap
    rw [hwrap]
  | byte ie dat => rfl
  | empty ie => rfl

theorem length_writeAt_octets {buf : ℕ → CChar} {pos : ℕ} (l : List CChar) :
    octets (writeAt buf pos l) 0 (pos + l.length) = octets buf 0 pos ++ l := by
  rw [octets_add, Nat.zero_add]
  congr 1
  · exact octets_congr fun i _ hi => if_neg (by omega)
  · refine List.ext_getElem (length_octets _ _ _) fun i hi hi' => ?_
    have hin : pos ≤ pos + i ∧ pos + i < pos + l.length := by omega
    simp only [octets, List.getElem_map, List.getElem_range, writeAt]
    rw [if_pos hin, Nat.add_sub_cancel_left]
    simp [hi']

/-- **What one call does.** -/
theorem append_cases (hshort : call.payload.length ≤ 255) (hpos : ied.pos ≤ sizeofBuf) :
    (call.payload.length > sizeofBuf - ied.pos ∧ call.append ied = some (-1, ied)) ∨
      (call.payload.length ≤ sizeofBuf - ied.pos ∧
        ¬ call.payload.length + 2 ≤ sizeofBuf - ied.pos ∧ call.append ied = none) ∨
      (call.payload.length + 2 ≤ sizeofBuf - ied.pos ∧
        ∃ ied', call.append ied = some (0, ied') ∧
          ied'.pos = ied.pos + (call.payload.length + 2) ∧
          octets ied'.buf 0 ied'.pos = octets ied.buf 0 ied.pos ++ call.element) := by
  rw [append_eq hshort, iaxIeAppendRaw]
  split_ifs with hspace hover
  · exact .inl ⟨by omega, rfl⟩
  · exact .inr (.inl ⟨by omega, by omega, rfl⟩)
  · have hnat : (call.payload.length : ℤ).toNat = call.payload.length := Int.toNat_natCast _
    have hlen : BitVec.ofInt 8 (call.payload.length : ℤ) = BitVec.ofNat 8 call.payload.length :=
      BitVec.ofInt_natCast 8 call.payload.length
    rw [hnat, hlen, List.take_length]
    refine .inr (.inr ⟨by omega, _, rfl, by dsimp only; omega, ?_⟩)
    have hpos' : ied.pos + 2 + call.payload.length = ied.pos + call.element.length := by
      rw [call.length_element]
      omega
    dsimp only
    rw [hpos']
    exact length_writeAt_octets call.element

/-- **The encoder stays in its buffer exactly where it has room.** -/
theorem appends_iff (hshort : ∀ call ∈ calls, call.payload.length ≤ 255)
    (hpos : ied.pos ≤ sizeofBuf) :
    (∃ taken ied', Appends ied calls taken ied') ↔ Roomy ied.pos calls := by
  induction calls generalizing ied with
  | nil => exact ⟨fun _ => trivial, fun _ => ⟨[], ied, .nil ied⟩⟩
  | cons call calls ih =>
    have hrest : ∀ c ∈ calls, c.payload.length ≤ 255 := fun c hc =>
      hshort c (List.mem_cons_of_mem _ hc)
    rw [Roomy]
    rcases append_cases (hshort call List.mem_cons_self) hpos with
      ⟨hfull, happ⟩ | ⟨hfits, hover, happ⟩ | ⟨hroom, ied', happ, hpos', hoct⟩
    · rw [if_pos hfull, ← ih hrest hpos]
      constructor
      · rintro ⟨taken, ied', h⟩
        cases h with
        | refused _ h => exact ⟨taken, ied', h⟩
        | appended h =>
          rw [happ] at h
          simp at h
      · rintro ⟨taken, ied', h⟩
        exact ⟨taken, ied', .refused happ h⟩
    · rw [if_neg (by omega)]
      refine ⟨?_, fun h => absurd h.1 hover⟩
      rintro ⟨taken, ied', h⟩
      cases h with
      | refused h =>
        rw [happ] at h
        simp at h
      | appended h =>
        rw [happ] at h
        simp at h
    · have hle : ied'.pos ≤ sizeofBuf := by omega
      rw [if_neg (by omega), ← hpos', ← ih hrest hle]
      constructor
      · rintro ⟨taken, ied'', h⟩
        cases h with
        | refused h =>
          rw [happ] at h
          simp at h
        | appended h _ _ h' =>
          rw [happ] at h
          obtain rfl : ied' = _ := (Prod.mk.inj (Option.some.inj h)).2
          exact ⟨hroom, _, ied'', h'⟩
      · rintro ⟨-, taken, ied'', h⟩
        exact ⟨call :: taken, ied'', .appended happ hle hoct h⟩

/-- What the calls leave in the buffer. -/
theorem Appends.octets (h : Appends ied calls taken ied')
    (hshort : ∀ call ∈ calls, call.payload.length ≤ 255) (hpos : ied.pos ≤ sizeofBuf) :
    octets ied'.buf 0 ied'.pos = octets ied.buf 0 ied.pos ++ encode taken ∧
      taken = takenFrom ied.pos calls := by
  induction h with
  | nil ied => exact ⟨(List.append_nil _).symm, rfl⟩
  | @refused ied ied' call calls taken h _ ih =>
    obtain ⟨hoct, htaken⟩ := ih (fun c hc => hshort c (List.mem_cons_of_mem _ hc)) hpos
    refine ⟨hoct, ?_⟩
    rcases append_cases (hshort call List.mem_cons_self) hpos with
      ⟨hfull, -⟩ | ⟨-, -, happ⟩ | ⟨-, _, happ, -⟩
    · rw [takenFrom, if_pos hfull, htaken]
    · rw [happ] at h
      simp at h
    · rw [happ] at h
      simp at h
  | @appended ied ied' ied'' call calls taken h hpos' hoct _ ih =>
    obtain ⟨hoct', htaken⟩ := ih (fun c hc => hshort c (List.mem_cons_of_mem _ hc)) hpos'
    refine ⟨?_, ?_⟩
    · rw [hoct', hoct, List.append_assoc]
      rfl
    · rcases append_cases (hshort call List.mem_cons_self) hpos with
        ⟨-, happ⟩ | ⟨-, -, happ⟩ | ⟨hroom, _, happ, hnext, -⟩
      · rw [happ] at h
        simp at h
      · rw [happ] at h
        simp at h
      · rw [happ] at h
        obtain rfl := (Prod.mk.inj (Option.some.inj h)).2
        rw [takenFrom, if_neg (by omega), ← hnext, ← htaken]

/-! ## Call tokens -/

/-- The last value of a filtered function, where the last value passes. -/
theorem latest_filter {β γ : Type*} (f : β → Option γ) (q : γ → Bool) (l : List β)
    (h : ∀ v, latest f l = some v → q v = false → latest (fun x => (f x).filter q) l = none) :
    latest (fun x => (f x).filter q) l = (latest f l).filter q := by
  induction l using List.reverseRecOn with
  | nil => rfl
  | append_singleton l x ih =>
    rw [latest_snoc, latest_snoc] at *
    cases hx : f x with
    | none =>
      rw [hx] at h
      exact ih fun v hv hq => h v hv hq
    | some v =>
      rw [hx] at h
      cases hq : q v with
      | false =>
        have hnone := h v rfl hq
        simpa [Option.filter, hq] using hnone
      | true => simp [Option.filter, hq]

/-- A called number, a number, and a variable in two parts. -/
def someCalls : List Call :=
  [.raw 1 (str "100"), .short 11 2, .raw 52 (str "a=1"), .raw 52 (str "a=2"), .empty 54]

end Iax

end Trismedia
