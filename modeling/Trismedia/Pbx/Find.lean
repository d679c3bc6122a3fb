import Trismedia.Pbx.Dialplan
import Trismedia.Pbx.Match
/-!
# Finding an extension

`pbx_find_extension` with the old pattern matcher
(`extenpatternmatchnew` 0) and no `bypass` or `overrideswitch`: the
extensions of the context are scanned, then its switches, then its valid
includes, in order and each with everything it includes. `q->incstack`
holds the contexts that were searched; it is never popped, so it guards
the recursion as well.

A switch is code of some module, so whether it has the extension is the
argument `switchHas`. The depth of the recursion is bounded by `fuel`;
`pbxFindExtension_returns` shows that 129 levels are enough.
-/


namespace Trismedia

namespace Pbx

open CString

def statusNoContext : ℕ := 1

def statusNoExtension : ℕ := 2

def statusNoPriority : ℕ := 3

def statusNoLabel : ℕ := 4

def statusSuccess : ℕ := 5

/-- `TRIS_PBX_MAX_STACK` -/
def trisPbxMaxStack : ℕ := 128

/-- `struct pbx_find_info`; the length of `incstack` is `stacklen`.
`searched` is no part of the program: it lists the contexts whose
extensions were scanned. -/
structure PbxFindInfo where
  incstack : List CString
  status : ℕ
  swo : Option Sw
  foundcontext : Option CString
  searched : List CString

/-- What a search is for. -/
structure Query where
  exten : CString
  priority : ℤ
  label : Option CString
  callerid : Option CString
  action : ExtMatch

/-- How the scan of a context's extensions ends. -/
inductive Scan
  | found (e : Exten)
  /-- An early match is final for `E_MATCHMORE`. -/
  | final
  | notFound

/-- The extension and its caller id match: not 0 is a match. -/
def extenMatch (query : Query) (eroot : Exten) : ℕ :=
  if eroot.matchcid ∧ matchcid eroot.cidmatch query.callerid = false then 0
  else extensionMatchCore eroot.exten query.exten query.action

/-- The scan over the context's extensions, with `q->status`. -/
def scanExtensions (query : Query) : List Extension → ℕ → ℕ × Scan
  | [], status => (status, .notFound)
  | eroot :: rest, status =>
    let res := extenMatch query eroot.first
    if res = 0 then scanExtensions query rest status
    else if res = 2 ∧ query.action = .eMatchmore then (status, .final)
    else
      -- found entry, now look for the right priority
      let status := max status statusNoPriority
      match query.action, query.label with
      | .eFindlabel, some label =>
        match eroot.peerLabelTable label with
        | some e => (statusSuccess, .found e)
        | none => scanExtensions query rest (max status statusNoLabel)
      | _, _ =>
        match eroot.peerTable query.priority with
        | some e => (statusSuccess, .found e)
        | none => scanExtensions query rest status

variable (contexts : List Context) (localtime : Option CString → Tm)
  (switchHas : Sw → CString → Query → Bool) (query : Query)

/-- The loop over the includes of a context; `find` searches one. -/
def includeLoop (find : PbxFindInfo → CString → Option (PbxFindInfo × Option Exten)) :
    List Include → PbxFindInfo → Option (PbxFindInfo × Option Exten)
  | [], q => some (q, none)
  | i :: rest, q =>
    if includeValid localtime i then do
      let (q, e) ← find q i.rname
      if e.isSome ∨ q.swo.isSome then some (q, e) else includeLoop find rest q
    else includeLoop find rest q

/-- `pbx_find_extension` -/
def pbxFindExtension : ℕ → PbxFindInfo → CString → Option (PbxFindInfo × Option Exten)
  | 0, _, _ => none
  | fuel + 1, q, context =>
    let q := if q.incstack = [] then
      { q with status := statusNoContext, swo := none, foundcontext := none } else q
    if trisPbxMaxStack ≤ q.incstack.length then some (q, none)
    else if q.incstack.any fun s => strcaseEq s context then some (q, none)
    else match findContext contexts (trisCopyString context 256) with
      | none => some (q, none)
      | some tmp =>
        let q := { q with searched := q.searched ++ [tmp.name] }
        match scanExtensions query tmp.root (max q.status statusNoExtension) with
        | (status, .found e) =>
          some ({ q with status := status, foundcontext := some context }, some e)
        | (status, .final) => some ({ q with status := status }, none)
        | (status, .notFound) =>
          match tmp.alts.find? fun sw => switchHas sw context query with
          | some sw =>
            some ({ q with status := status, swo := some sw, foundcontext := some context }, none)
          | none =>
            let q := { q with status := status, incstack := q.incstack ++ [tmp.name] }
            includeLoop localtime (pbxFindExtension fuel) tmp.includes q

/-- `struct pbx_find_info q = { .stacklen = 0 }` -/
def PbxFindInfo.start : PbxFindInfo := ⟨[], 0, none, none, []⟩

/-! ## The search returns -/

/-- A call returns, on a stack that only grew. -/
def Returns (fuel : ℕ) (find : PbxFindInfo → CString → Option (PbxFindInfo × Option Exten)) :
    Prop :=
  ∀ q name, q.incstack.length ≤ trisPbxMaxStack →
    trisPbxMaxStack < fuel + q.incstack.length →
    ∃ q' e, find q name = some (q', e) ∧ q.incstack.length ≤ q'.incstack.length ∧
      q'.incstack.length ≤ trisPbxMaxStack

variable {contexts localtime switchHas query}
  {find find' : PbxFindInfo → CString → Option (PbxFindInfo × Option Exten)}

variable (localtime) in
theorem includeLoop_returns {fuel : ℕ} (hfind : Returns fuel find) (is : List Include) {q : PbxFindInfo}
    (hq : q.incstack.length ≤ trisPbxMaxStack)
    (hfuel : trisPbxMaxStack < fuel + q.incstack.length) :
    ∃ q' e, includeLoop localtime find is q = some (q', e) ∧
      q.incstack.length ≤ q'.incstack.length ∧ q'.incstack.length ≤ trisPbxMaxStack := by
  induction is generalizing q with
  | nil => exact ⟨q, none, rfl, Nat.le_refl _, hq⟩
  | cons i is ih =>
    rw [includeLoop]
    by_cases hvalid : includeValid localtime i
    swap
    · rw [if_neg hvalid]
      exact ih hq hfuel
    obtain ⟨q₁, e₁, heq, hle, hle'⟩ := hfind q i.rname hq hfuel
    simp only [if_pos hvalid, heq, Option.bind_eq_bind, Option.bind_some]
    split
    · exact ⟨q₁, e₁, rfl, hle, hle'⟩
    · obtain ⟨q₂, e₂, heq₂, h₂, h₂'⟩ := ih hle' (by omega)
      exact ⟨q₂, e₂, heq₂, by omega, h₂'⟩

/-- **The search returns**, on every dialplan: the stack stops it. -/
theorem pbxFindExtension_returns (fuel : ℕ) :
    Returns fuel (pbxFindExtension contexts localtime switchHas query fuel) := by
  induction fuel with
  | zero =>
    intro q name hq hfuel
    omega
  | succ fuel ih =>
    intro q name hq hfuel
    have hstack : (if q.incstack = [] then
        { q with status := statusNoContext, swo := none, foundcontext := none } else q).incstack =
        q.incstack := by
      split <;> rfl
    rw [pbxFindExtension]
    simp only
    generalize (if q.incstack = [] then
      { q with status := statusNoContext, swo := none, foundcontext := none } else q) = q₀ at *
    rw [← hstack] at hq hfuel ⊢
    by_cases hlimit : trisPbxMaxStack ≤ q₀.incstack.length
    · rw [if_pos hlimit]
      exact ⟨q₀, none, rfl, Nat.le_refl _, hq⟩
    rw [if_neg hlimit]
    by_cases hany : (q₀.incstack.any fun s => strcaseEq s name) = true
    · rw [if_pos hany]
      exact ⟨q₀, none, rfl, Nat.le_refl _, hq⟩
    rw [if_neg hany]
    cases findContext contexts (trisCopyString name 256) with
    | none => exact ⟨q₀, none, rfl, Nat.le_refl _, hq⟩
    | some tmp =>
      simp only
      rcases scanExtensions query tmp.root (max q₀.status statusNoExtension) with
        ⟨status, e | _ | _⟩
      · exact ⟨_, _, rfl, Nat.le_refl _, hq⟩
      · exact ⟨_, _, rfl, Nat.le_refl _, hq⟩
      · simp only
        cases tmp.alts.find? fun sw => switchHas sw name query with
        | some sw => exact ⟨_, _, rfl, Nat.le_refl _, hq⟩
        | none =>
          have hlen : (q₀.incstack ++ [tmp.name]).length = q₀.incstack.length + 1 := by simp
          obtain ⟨q', e, heq, h1, h2⟩ := includeLoop_returns localtime ih tmp.includes (q := { q₀ with
              searched := q₀.searched ++ [tmp.name]
              status := status
              incstack := q₀.incstack ++ [tmp.name] }) (by rw [hlen]; omega) (by rw [hlen]; omega)
          rw [hlen] at h1
          exact ⟨q', e, heq, by omega, h2⟩

theorem includeLoop_mono (hfind : ∀ q name r, find q name = some r → find' q name = some r)
    (is : List Include) {q : PbxFindInfo} {r : PbxFindInfo × Option Exten}
    (h : includeLoop localtime find is q = some r) : includeLoop localtime find' is q = some r := by
  induction is generalizing q with
  | nil => exact h
  | cons i is ih =>
    rw [includeLoop] at h ⊢
    split_ifs at h ⊢
    · obtain ⟨⟨q₁, e₁⟩, h₁, hrest⟩ := Option.bind_eq_some_iff.1 h
      rw [hfind _ _ _ h₁, Option.bind_eq_bind, Option.bind_some]
      dsimp only at hrest ⊢
      split_ifs at hrest ⊢
      · exact hrest
      · exact ih hrest
    · exact ih h

/-- More levels change nothing. -/
theorem pbxFindExtension_mono {fuel : ℕ} {q : PbxFindInfo} {name : CString}
    {r : PbxFindInfo × Option Exten}
    (h : pbxFindExtension contexts localtime switchHas query fuel q name = some r) :
    pbxFindExtension contexts localtime switchHas query (fuel + 1) q name = some r := by
  induction fuel generalizing q name r with
  | zero => exact absurd h (Option.some_ne_none _).symm
  | succ fuel ih =>
    revert h
    rw [pbxFindExtension, pbxFindExtension]
    dsimp only
    generalize (if q.incstack = [] then
      { q with status := statusNoContext, swo := none, foundcontext := none } else q) = q₀
    split_ifs
    · exact id
    · exact id
    · cases findContext contexts (trisCopyString name 256) with
      | none => exact id
      | some tmp =>
        dsimp only
        rcases scanExtensions query tmp.root (max q₀.status statusNoExtension) with
          ⟨status, e | _ | _⟩
        · exact id
        · exact id
        · dsimp only
          cases tmp.alts.find? fun sw => switchHas sw name query with
          | some sw => exact id
          | none => exact includeLoop_mono (fun _ _ _ => ih) tmp.includes

end Pbx

end Trismedia
