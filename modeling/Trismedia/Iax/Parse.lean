import Mathlib.Data.Option.Basic
import Trismedia.Iax.Fields
/-!
# The decoder on a message of the encoder

The loop of `iax_parse_ies` on elements that stand one behind the other.
Throughout, a field points to the data of the last element of its kind; that
data has its NUL, or ends where the loop stands.
-/


namespace Trismedia

namespace Iax

open CString

variable {mem mem' : ℕ → CChar} {data off off' o n : ℕ} {p : List CChar} {ies : IaxIes}
variable {call : Call} {calls rest : List Call} {R R' : ℕ → List CChar → Prop}

/-! ## Octets -/

theorem length_octets (mem : ℕ → CChar) (o n : ℕ) : (octets mem o n).length = n := by
  simp [octets]

theorem octets_congr {o n : ℕ} (h : ∀ i, o ≤ i → i < o + n → mem' i = mem i) :
    octets mem' o n = octets mem o n := by
  refine List.map_congr_left fun i hi => ?_
  have hlt := List.mem_range.1 hi
  exact h _ (by omega) (by omega)

theorem octets_add (mem : ℕ → CChar) (o m n : ℕ) :
    octets mem o (m + n) = octets mem o m ++ octets mem (o + m) n := by
  simp only [octets, List.range_add, List.map_append, List.map_map]
  congr 1
  refine List.map_congr_left fun i _ => ?_
  simp only [Function.comp_apply, Nat.add_assoc]

/-- A NUL written before them leaves the octets. -/
theorem octets_update (h : off < o) : octets (Function.update mem off 0) o n = octets mem o n :=
  octets_congr fun i hi _ => Function.update_of_ne (by omega) _ _

/-- Octets that stand in two parts. -/
theorem octets_append (l l' : List CChar)
    (h : octets mem o (l ++ l').length = l ++ l') :
    octets mem o l.length = l ∧ octets mem (o + l.length) l'.length = l' := by
  rw [List.length_append, octets_add] at h
  exact List.append_inj h (length_octets mem o l.length)

/-! ## Data in the message -/

/-- **A string in the message**: the data, and a NUL behind it. -/
def Terminated (mem : ℕ → CChar) (o : ℕ) (p : List CChar) : Prop :=
  octets mem o p.length = p ∧ mem (o + p.length) = 0

/-- The same while the loop stands at `off`, where the NUL is written next. -/
def Stored (mem : ℕ → CChar) (off o : ℕ) (p : List CChar) : Prop :=
  octets mem o p.length = p ∧ o + p.length ≤ off ∧ (o + p.length = off ∨ mem (o + p.length) = 0)

/-- The NUL at the place of the loop keeps what is behind and ends the last
string. -/
theorem Stored.terminated (h : Stored mem off o p) : Terminated (Function.update mem off 0) o p := by
  obtain ⟨hp, hle, hend⟩ := h
  have hkeep : octets (Function.update mem off 0) o p.length = octets mem o p.length :=
    octets_congr fun i _ hi => Function.update_of_ne (by omega) _ _
  refine ⟨hkeep.trans hp, ?_⟩
  · by_cases heq : o + p.length = off
    · rw [heq, Function.update_self]
    · rw [Function.update_of_ne heq]
      exact hend.resolve_left heq

theorem Stored.advance (h : Stored mem off o p) (hle : off ≤ off') :
    Stored (Function.update mem off 0) off' o p := by
  have hterm := h.terminated
  have hoff := h.2.1
  exact ⟨hterm.1, by omega, .inr hterm.2⟩

/-! ## The fields after some elements -/

/-- The value of a variable `name`. -/
def Call.value? (name : CString) (call : Call) : Option CString :=
  call.var?.bind fun v => if v.1 = name then some v.2 else none

/-- The values of a variable, put together in order; none if it does not
occur. -/
def joined (name : CString) (calls : List Call) : List CString :=
  match calls.filterMap (Call.value? name) with
  | [] => []
  | values => [values.flatten]

/-- **Each field is that of the last element of its kind**; `R o p` says that
`o` points to the data `p`. -/
structure Fields (R : ℕ → List CChar → Prop) (calls : List Call) (ies : IaxIes) : Prop where
  ptr : ∀ f, Option.Rel R (ies.ptr f) (latest (Call.ptr? f) calls)
  word : ∀ f, ies.word f = ((latest (Call.word? f) calls).map Nat.cast).getD (wordDefault f)
  flag : ∀ f, ies.flag f = true ↔ ∃ call ∈ calls, call.sets f
  block : ∀ f, Option.Rel R (ies.block f) (latest (Call.block? f) calls)
  blocklen : ∀ f, ies.blocklen f = ((latest (Call.block? f) calls).map List.length).getD 0
  osptokenblock : ∀ i, Option.Rel R (ies.osptokenblock i) (latest (Call.osp? i) calls)
  ospblocklength : ∀ i, ies.ospblocklength i = ((latest (Call.osp? i) calls).map List.length).getD 0
  calltokendata : Option.Rel R ies.calltokendata (latest Call.tokenData? calls)
  vars : ∀ name, (ies.vars.filter fun v => v.name = name).map TrisVariable.value =
    joined name calls

theorem fields_init (R : ℕ → List CChar → Prop) : Fields R [] iaxIesInit where
  ptr := fun _ => .none
  word := fun _ => rfl
  flag := fun _ => by simp [iaxIesInit]
  block := fun _ => .none
  blocklen := fun _ => rfl
  osptokenblock := fun _ => .none
  ospblocklength := fun _ => rfl
  calltokendata := .none
  vars := fun _ => rfl

theorem Option.Rel.imp {x : Option ℕ} {y : Option (List CChar)} (h : Option.Rel R x y)
    (hR : ∀ o p, R o p → R' o p) : Option.Rel R' x y := by
  cases h with
  | some hr => exact .some (hR _ _ hr)
  | none => exact .none

theorem Fields.imp (h : Fields R calls ies) (hR : ∀ o p, R o p → R' o p) :
    Fields R' calls ies where
  ptr := fun f => Option.Rel.imp (h.ptr f) hR
  word := h.word
  flag := h.flag
  block := fun f => Option.Rel.imp (h.block f) hR
  blocklen := h.blocklen
  osptokenblock := fun i => Option.Rel.imp (h.osptokenblock i) hR
  ospblocklength := h.ospblocklength
  calltokendata := Option.Rel.imp h.calltokendata hR
  vars := h.vars

/-- A pointer after one more element. -/
theorem rel_snoc {k : Call → Option (List CChar)} {x x' : Option ℕ}
    (h : Option.Rel R x (latest k calls)) (hx : x' = ((k call).map fun _ => o).or x)
    (hnew : ∀ p, k call = some p → R o p) : Option.Rel R x' (latest k (calls ++ [call])) := by
  rw [latest_snoc, hx]
  cases hk : k call with
  | none => simpa using h
  | some p => exact .some (hnew p hk)

/-- A number or a length after one more element. -/
theorem getD_snoc {β γ : Type*} {k : Call → Option β} {g : β → γ} {x x' d : γ}
    (h : x = ((latest k calls).map g).getD d) (hx : x' = ((k call).map g).getD x) :
    x' = ((latest k (calls ++ [call])).map g).getD d := by
  rw [latest_snoc, hx]
  cases hk : k call with
  | none => simpa using h
  | some v => simp

/-! ## Variables -/

theorem filter_extendVariable {name value : CString} {vars vars' : List TrisVariable}
    (h : extendVariable name value vars = some vars') :
    (∃ w ws, (vars.filter fun v => v.name = name).map TrisVariable.value = w :: ws ∧
        (vars'.filter fun v => v.name = name).map TrisVariable.value = (w ++ value) :: ws) ∧
      ∀ other, other ≠ name →
        (vars'.filter fun v => v.name = other).map TrisVariable.value =
          (vars.filter fun v => v.name = other).map TrisVariable.value := by
  induction vars generalizing vars' with
  | nil => simp [extendVariable] at h
  | cons var vars ih =>
    rw [extendVariable] at h
    by_cases hname : name = var.name
    · rw [if_pos hname, Option.some.injEq] at h
      subst h
      refine ⟨⟨var.value, (vars.filter fun v => v.name = name).map TrisVariable.value,
        by simp [← hname], by simp⟩, fun other hne => ?_⟩
      have hne' : ¬ name = other := Ne.symm hne
      simp [← hname, hne']
    · rw [if_neg hname, Option.map_eq_some_iff] at h
      obtain ⟨l, hl, rfl⟩ := h
      obtain ⟨⟨w, ws, h1, h2⟩, hother⟩ := ih hl
      have hname' : ¬ var.name = name := Ne.symm hname
      refine ⟨⟨w, ws, by simpa [hname'] using h1, by simpa [hname'] using h2⟩, fun other hne => ?_⟩
      by_cases ho : var.name = other
      · simp [ho, hother other hne]
      · simp [ho, hother other hne]

theorem extendVariable_eq_none {name value : CString} {vars : List TrisVariable}
    (h : extendVariable name value vars = none) :
    (vars.filter fun v => v.name = name).map TrisVariable.value = [] := by
  induction vars with
  | nil => rfl
  | cons var vars ih =>
    rw [extendVariable] at h
    by_cases hname : name = var.name
    · rw [if_pos hname] at h
      exact absurd h (Option.some_ne_none _)
    · rw [if_neg hname, Option.map_eq_none_iff] at h
      have hname' : ¬ var.name = name := Ne.symm hname
      simpa [hname'] using ih h

/-- **A variable received**: its value goes behind the one there. -/
theorem filter_assignVariable (vars : List TrisVariable) (v : CString × CString) (name : CString) :
    ((assignVariable vars v).filter fun w => w.name = name).map TrisVariable.value =
      if v.1 = name then
        match (vars.filter fun w => w.name = name).map TrisVariable.value with
        | [] => [v.2]
        | w :: ws => (w ++ v.2) :: ws
      else (vars.filter fun w => w.name = name).map TrisVariable.value := by
  unfold assignVariable
  cases hext : extendVariable v.1 v.2 vars with
  | none =>
    have hnone := extendVariable_eq_none hext
    by_cases hname : v.1 = name
    · subst hname
      rw [if_pos rfl, hnone]
      simpa using hnone
    · rw [if_neg hname]
      simp [hname]
  | some vars' =>
    obtain ⟨⟨w, ws, h1, h2⟩, hother⟩ := filter_extendVariable hext
    by_cases hname : v.1 = name
    · subst hname
      rw [if_pos rfl, h1]
      exact h2
    · rw [if_neg hname]
      exact hother name (Ne.symm hname)

theorem joined_snoc (name : CString) (calls : List Call) (call : Call) :
    joined name (calls ++ [call]) =
      match call.value? name with
      | none => joined name calls
      | some value =>
        match joined name calls with
        | [] => [value]
        | w :: ws => (w ++ value) :: ws := by
  unfold joined
  cases hv : call.value? name with
  | none => simp [List.filterMap_append, hv]
  | some value =>
    cases hl : calls.filterMap (Call.value? name) with
    | nil => simp [List.filterMap_append, hv, hl]
    | cons w ws => simp [List.filterMap_append, hv, hl]

theorem vars_snoc {vars vars' : List TrisVariable} {name : CString}
    (h : (vars.filter fun v => v.name = name).map TrisVariable.value = joined name calls)
    (hx : vars' = (call.var?.map (assignVariable vars)).getD vars) :
    (vars'.filter fun v => v.name = name).map TrisVariable.value = joined name (calls ++ [call]) := by
  rw [joined_snoc, hx, Call.value?]
  cases hv : call.var? with
  | none => exact h
  | some v =>
    simp only [Option.map_some, Option.getD_some, Option.bind_some, filter_assignVariable, h]
    by_cases hname : v.1 = name
    · rw [if_pos hname, if_pos hname]
    · rw [if_neg hname, if_neg hname]

/-! ## One round -/

theorem StandsAt.stored (h : StandsAt mem data call) :
    Stored (Function.update mem data 0) (data + (call.payload.length + 2)) (data + 2)
      call.payload := by
  refine ⟨?_, by omega, .inl (by omega)⟩
  rw [octets_update (by omega)]
  exact h.payload

/-- The block behind the index of an OSP token. -/
theorem StandsAt.stored_osp (h : StandsAt mem data call) {c : CChar} {block : List CChar}
    (hp : call.payload = c :: block) :
    Stored (Function.update mem data 0) (data + (call.payload.length + 2)) (data + 3) block := by
  have hpay := h.payload
  rw [hp] at hpay
  have hcut := (octets_append [c] block hpay).2
  rw [hp, List.length_cons]
  refine ⟨?_, by omega, .inl (by omega)⟩
  rw [octets_update (by omega)]
  exact hcut

/-- **One round of the loop.** -/
theorem Fields.takeCall (h : Fields (Stored mem data) calls ies) (hat : StandsAt mem data call)
    (hosp : ieKind call.ie = .osptoken → call.payload ≠ []) :
    Fields (Stored (Function.update mem data 0) (data + (call.payload.length + 2)))
      (calls ++ [call]) (takeCall ies mem data call) := by
  have hold : Fields (Stored (Function.update mem data 0) (data + (call.payload.length + 2))) calls
      ies := h.imp fun o p hs => hs.advance (by omega)
  have hnew := hat.stored
  constructor
  · refine fun f => rel_snoc (hold.ptr f) (ptr_takeCall f) fun p hp => ?_
    rw [← Call.payload_of_ptr? hp]
    exact hnew
  · exact fun f => getD_snoc (h.word f) (word_takeCall hat f)
  · intro f
    rw [flag_takeCall, h.flag f]
    simp [or_comm]
  · refine fun f => rel_snoc (hold.block f) (block_takeCall f).1 fun p hp => ?_
    rw [← Call.payload_of_block? hp]
    exact hnew
  · exact fun f => getD_snoc (h.blocklen f) (block_takeCall f).2
  · refine fun i => rel_snoc (hold.osptokenblock i) (osp_takeCall hat i hosp).1 fun p hp => ?_
    obtain ⟨c, hc⟩ := Call.payload_of_osp? hp
    exact hat.stored_osp hc
  · exact fun i => getD_snoc (h.ospblocklength i) (osp_takeCall hat i hosp).2
  · refine rel_snoc hold.calltokendata token_takeCall fun p hp => ?_
    rw [← Call.payload_of_tokenData? hp]
    exact hnew
  · exact fun name => vars_snoc (h.vars name) (vars_takeCall hat)

/-! ## The loop -/

/-- The octets a call appends. -/
def Call.element (call : Call) : List CChar :=
  call.ie :: BitVec.ofNat 8 call.payload.length :: call.payload

/-- The octets of some elements. -/
def encode (calls : List Call) : List CChar := calls.flatMap Call.element

theorem Call.length_element (call : Call) : call.element.length = call.payload.length + 2 := rfl

theorem standsAt_of_octets (hshort : call.payload.length ≤ 255)
    (h : octets mem data call.element.length = call.element) : StandsAt mem data call := by
  obtain ⟨hie, hrest⟩ := octets_append [call.ie]
    (BitVec.ofNat 8 call.payload.length :: call.payload) h
  obtain ⟨hlen, hpay⟩ := octets_append [BitVec.ofNat 8 call.payload.length] _ hrest
  have hie' : mem data = call.ie := by simpa [octets] using hie
  have hlen' : mem (data + 1) = BitVec.ofNat 8 call.payload.length := by simpa [octets] using hlen
  refine ⟨hie', ?_, hpay⟩
  rw [hlen', BitVec.toNat_ofNat]
  omega

/-- **The loop on some elements** reads them all. -/
theorem parseLoop_encode {fuel : ℕ} (hshort : ∀ call ∈ rest, call.payload.length ≤ 255)
    (hosp : ∀ call ∈ rest, ieKind call.ie = .osptoken → call.payload ≠ [])
    (hfuel : (encode rest).length ≤ fuel)
    (hmem : octets mem data (encode rest).length = encode rest)
    (h : Fields (Stored mem data) calls ies) :
    ∃ ies' mem', parseLoop fuel ies mem data (encode rest).length = (0, ies', mem') ∧
      Fields (Terminated mem') (calls ++ rest) ies' := by
  induction rest generalizing fuel ies mem data calls with
  | nil =>
    refine ⟨ies, Function.update mem data 0, ?_, ?_⟩
    · cases fuel with
      | zero => rfl
      | succ fuel => rfl
    · rw [List.append_nil]
      exact h.imp fun o p hs => hs.terminated
  | cons call rest ih =>
    have henc : encode (call :: rest) = call.element ++ encode rest := rfl
    have hlen : (encode (call :: rest)).length = (encode rest).length + (call.payload.length + 2) := by
      rw [henc, List.length_append, call.length_element]
      omega
    rw [henc] at hmem
    obtain ⟨hhead, htail⟩ := octets_append _ _ hmem
    rw [call.length_element] at htail
    have hat := standsAt_of_octets (hshort call List.mem_cons_self) hhead
    have hstep := h.takeCall hat (hosp call List.mem_cons_self)
    obtain ⟨fuel, rfl⟩ : ∃ k, fuel = k + 1 := ⟨fuel - 1, by omega⟩
    have hfuel' : (encode rest).length ≤ fuel := by omega
    obtain ⟨ies', mem', hloop, hfields⟩ := ih
      (fun c hc => hshort c (List.mem_cons_of_mem _ hc))
      (fun c hc => hosp c (List.mem_cons_of_mem _ hc)) hfuel'
      ((octets_update (by omega)).trans htail) hstep
    refine ⟨ies', mem', ?_, ?_⟩
    · have hge : (encode rest).length + (call.payload.length + 2) ≥ 2 := by omega
      have hfit : ¬ call.payload.length > (encode rest).length + (call.payload.length + 2) - 2 := by
        omega
      have hdone : (encode rest).length + (call.payload.length + 2) - (call.payload.length + 2) =
          (encode rest).length := by omega
      rw [hlen, parseLoop, if_pos hge]
      dsimp only
      rw [hat.ie, hat.len, if_neg hfit, hdone]
      exact hloop
    · rwa [List.append_assoc] at hfields

/-- **The decoder on a message of some elements.** -/
theorem iaxParseIes_encode (hshort : ∀ call ∈ calls, call.payload.length ≤ 255)
    (hosp : ∀ call ∈ calls, ieKind call.ie = .osptoken → call.payload ≠ [])
    (hmem : octets mem 0 (encode calls).length = encode calls) :
    ∃ ies' mem', iaxParseIes mem (encode calls).length = (0, ies', mem') ∧
      Fields (Terminated mem') calls ies' :=
  parseLoop_encode hshort hosp le_rfl hmem (fields_init _)

end Iax

end Trismedia
