import Trismedia.Ao2.Runs
import Trismedia.Common.Scan
/-!
# The calls a search makes

`logged` is a callback that notes what it is asked and what it answers.
The search of a stretch of buckets asks the objects linked there in order,
until an answer ends it: it is the `scan` of that list. What the loop does
when a stretch is done is said once, in `bucketLoop_logged`.
-/


namespace Trismedia

namespace Ao2

open CInt Scan

variable {α κ γ : Type}

/-- The callback, with a note of each call: the object and the answer. -/
def logged (cb : Callback α κ γ) : Callback α κ (γ × List (α × BitVec 32)) := fun g a k =>
  ((cb g.1 a k).1, (cb g.1 a k).2, g.2 ++ [(a, (cb g.1 a k).1)])

/-- **The answer ends the search**: a stop, or the only match we need. -/
def Ends (flags : SearchFlags) (res : BitVec 32) : Prop :=
  res &&& cmpStop ≠ 0 ∨ (IsMatch res ∧ flags.objMultiple = false)

instance (flags : SearchFlags) : DecidablePred (Ends flags) := fun res =>
  inferInstanceAs (Decidable (res &&& cmpStop ≠ 0 ∨ (res &&& cmpMatch ≠ 0 ∧ _)))

instance : DecidablePred IsMatch := fun res => inferInstanceAs (Decidable (res &&& cmpMatch ≠ 0))

/-- The search as a question: what ends it, and what is unlinked. -/
def question (flags : SearchFlags) (cb : Callback α κ γ) (data : α → κ) :
    Question γ α (BitVec 32) where
  ask g a := cb g a (data a)
  ends := Ends flags
  drops res := flags.objUnlink = true ∧ IsMatch res

/-- Among the answers is one that returns its object. -/
def Gives (flags : SearchFlags) (asked : List (α × BitVec 32)) : Prop :=
  flags.objNodata = false ∧ ∃ x ∈ asked, IsMatch x.2

/-- What the objects in memory hold. -/
def Known (data : α → κ) (mem : Memory α κ) : Prop :=
  ∀ a obj, mem a = some obj → obj.userData = data a

/-- The objects of the `n` buckets from `i` on, in the order of the
search. -/
def linked (buckets : ℕ → List (BucketList α)) (i n : ℕ) : List α :=
  (List.range' i n).flatMap fun j => (buckets j).map BucketList.astobj

variable {flags : SearchFlags} {cb : Callback α κ γ} {data : α → κ} {res m : BitVec 32}
variable {asked asked' : List (α × BitVec 32)} {buckets buckets' : ℕ → List (BucketList α)}
variable {i n size : ℕ}

/-! ## The answers -/

theorem mask_stop (res : BitVec 32) :
    ((cmpMatch ||| cmpStop) &&& res) &&& cmpStop = res &&& cmpStop := by
  rw [BitVec.and_comm (cmpMatch ||| cmpStop), BitVec.and_assoc]
  rfl

variable (flags) in
/-- An answer that is masked to nothing. -/
theorem goes_of_zero (h : (cmpMatch ||| cmpStop) &&& res = 0) :
    ¬ Ends flags res ∧ ¬ IsMatch res := by
  have hmatch : ¬ IsMatch res := fun hm => ((isMatch_iff res).1 hm).1 h
  refine ⟨?_, hmatch⟩
  rintro (hstop | ⟨hm, -⟩)
  · rw [← mask_stop, h] at hstop
    exact hstop (by decide)
  · exact hmatch hm

variable (flags) in
theorem ends_of_stop (h : (cmpMatch ||| cmpStop) &&& res = cmpStop) :
    Ends flags res ∧ ¬ IsMatch res := by
  refine ⟨.inl ?_, fun hm => ((isMatch_iff res).1 hm).2 h⟩
  rw [← mask_stop, h]
  decide

theorem ends_iff_of_match (hm : IsMatch res) :
    Ends flags res ↔ ((cmpMatch ||| cmpStop) &&& res) &&& cmpStop ≠ 0 ∨
      flags.objMultiple = false := by
  rw [mask_stop]
  unfold Ends
  tauto

theorem Gives.append : Gives flags (asked ++ asked') ↔ Gives flags asked ∨ Gives flags asked' := by
  unfold Gives
  simp only [List.mem_append]
  constructor
  · rintro ⟨hn, x, hx | hx, hm⟩
    · exact .inl ⟨hn, x, hx, hm⟩
    · exact .inr ⟨hn, x, hx, hm⟩
  · rintro (⟨hn, x, hx, hm⟩ | ⟨hn, x, hx, hm⟩)
    · exact ⟨hn, x, .inl hx, hm⟩
    · exact ⟨hn, x, .inr hx, hm⟩

/-- Where nothing ended the search, nothing is returned. -/
theorem not_gives_of_goes (hm : flags.objNodata = false → flags.objMultiple = false)
    (h : ∀ x ∈ asked, ¬ Ends flags x.2) : ¬ Gives flags asked := by
  rintro ⟨hn, x, hx, hmatch⟩
  exact h x hx (.inr ⟨hmatch, hm hn⟩)

/-! ## The lists of objects -/

theorem linked_zero : linked buckets i 0 = [] := rfl

theorem linked_succ : linked buckets i (n + 1) =
    (buckets i).map BucketList.astobj ++ linked buckets (i + 1) n := rfl

theorem linked_congr (h : ∀ j, i ≤ j → j < i + n → buckets j = buckets' j) :
    linked buckets i n = linked buckets' i n := by
  induction n generalizing i with
  | zero => rfl
  | succ n ih =>
    rw [linked_succ, linked_succ, h i le_rfl (by omega)]
    rw [ih fun j hj hlt => h j (by omega) (by omega)]

theorem linked_add (m : ℕ) : linked buckets i (n + m) =
    linked buckets i n ++ linked buckets (i + n) m := by
  induction n generalizing i with
  | zero =>
    rw [linked_zero, Nat.zero_add, List.nil_append, Nat.add_zero]
  | succ n ih =>
    rw [show n + 1 + m = (n + m) + 1 by omega, linked_succ, linked_succ, ih, List.append_assoc,
      show i + 1 + n = i + (n + 1) by omega]

/-- The whole array. -/
theorem total_eq_linked : total size buckets = (linked buckets 0 size : Multiset α) := by
  induction size with
  | zero => rfl
  | succ size ih =>
    have hlast : linked buckets (0 + size) 1 = (buckets size).map BucketList.astobj := by
      rw [linked_succ, linked_zero, List.append_nil, Nat.zero_add]
    rw [linked_add, hlast, ← Multiset.coe_add, ← ih]
    exact Finset.sum_range_succ _ size

/-! ## One bucket -/

variable [DecidableEq α]

theorem ao2Ref_known {mem mem' : Memory α κ} {a : α} {delta ret : ℤ} (hk : Known data mem)
    (h : ao2Ref mem a delta = some (mem', ret)) : Known data mem' := by
  unfold ao2Ref at h
  obtain ⟨obj, hobj, h⟩ := Option.bind_eq_some_iff.1 h
  have hupd : ∀ o : Option (Astobj2 κ), (∀ x, o = some x → x.userData = data a) →
      Known data (Function.update mem a o) := by
    intro o ho b x hb
    by_cases hba : b = a
    · rw [hba, Function.update_self] at hb
      rw [hba]
      exact ho x hb
    · rw [Function.update_of_ne hba] at hb
      exact hk b x hb
  split at h
  · cases h
    exact hk
  · dsimp only at h
    split at h
    · cases h
      exact hupd none (by simp)
    · cases h
      refine hupd _ fun x hx => ?_
      cases hx
      exact hk a obj hobj

/-- What a match leaves of the log, and whether it returns the object. -/
theorem matchRecord_known {s s' : Search α κ γ} {cur : BucketList α} (hk : Known data s.mem)
    (h : matchRecord flags s cur = some s') :
    s'.arg = s.arg ∧ Known data s'.mem ∧
      s'.ret = if flags.objNodata then s.ret else some cur.astobj := by
  unfold matchRecord at h
  obtain ⟨s₁, h₁, h₂⟩ := Option.bind_eq_some_iff.1 h
  have hfst : s₁.arg = s.arg ∧ Known data s₁.mem ∧
      s₁.ret = if flags.objNodata then s.ret else some cur.astobj := by
    unfold returnObject at h₁
    split at h₁
    · rename_i hn
      cases h₁
      rw [if_pos hn]
      exact ⟨rfl, hk, rfl⟩
    · rename_i hn
      obtain ⟨⟨mem, ret⟩, href, h₁⟩ := Option.bind_eq_some_iff.1 h₁
      cases h₁
      rw [if_neg hn]
      exact ⟨rfl, ao2Ref_known hk href, rfl⟩
  unfold unlinkObject at h₂
  split at h₂
  · obtain ⟨⟨mem, ret⟩, href, h₂⟩ := Option.bind_eq_some_iff.1 h₂
    cases h₂
    exact ⟨hfst.1, ao2Ref_known hfst.2.1 href, hfst.2.2⟩
  · cases h₂
    exact hfst

variable {entries kept : List (BucketList α)} {stop : Bool}
variable {s s' : Search α κ (γ × List (α × BitVec 32))}

/-- **The traversal of a bucket is a scan** of its objects. -/
theorem traverse_logged (hm : flags.objNodata = false → flags.objMultiple = false)
    (hk : Known data s.mem)
    (h : traverse flags (logged cb) entries s = some (kept, s', stop)) :
    ∃ r, r = scan (question flags cb data) s.arg.1 (entries.map BucketList.astobj) ∧
      kept.map BucketList.astobj = r.left ∧ s'.arg = (r.state, s.arg.2 ++ r.asked) ∧
      stop = r.ended ∧ Known data s'.mem ∧
      (s.ret = none → (s'.ret.isSome ↔ Gives flags r.asked)) := by
  refine ⟨_, rfl, ?_⟩
  induction entries generalizing s kept with
  | nil =>
    cases h
    refine ⟨rfl, ?_, rfl, hk, fun hnone => ?_⟩
    · show s'.arg = (s'.arg.1, s'.arg.2 ++ [])
      rw [List.append_nil]
    · rw [hnone]
      simp [Gives, scan]
  | cons cur rest ih =>
    unfold traverse at h
    obtain ⟨obj, hobj, h⟩ := Option.bind_eq_some_iff.1 h
    have hdata : obj.userData = data cur.astobj := hk _ _ hobj
    simp only [logged, hdata] at h
    generalize hq : question flags cb data = q at ih ⊢
    generalize hres : cb s.arg.1 cur.astobj (data cur.astobj) = res at h
    have hask : q.ask s.arg.1 cur.astobj = res := by
      rw [← hq, ← hres]
      rfl
    have hends : q.ends res.1 ↔ Ends flags res.1 := by
      rw [← hq]
      exact Iff.rfl
    have hdrops : q.drops res.1 ↔ (flags.objUnlink = true ∧ IsMatch res.1) := by
      rw [← hq]
      exact Iff.rfl
    -- the state once the callback has answered
    generalize hs₁ : ({ s with arg := (res.2, s.arg.2 ++ [(cur.astobj, res.1)]) } :
      Search α κ (γ × List (α × BitVec 32))) = s₁ at h
    have hmem₁ : s₁.mem = s.mem := by rw [← hs₁]
    have hret₁ : s₁.ret = s.ret := by rw [← hs₁]
    have harg₁ : s₁.arg = (res.2, s.arg.2 ++ [(cur.astobj, res.1)]) := by rw [← hs₁]
    have hnote : ∀ l, Gives flags ([(cur.astobj, res.1)] ++ l) ↔
        (flags.objNodata = false ∧ IsMatch res.1) ∨ Gives flags l := by
      intro l
      rw [Gives.append]
      simp [Gives]
    rw [List.map_cons]
    split at h
    · -- no match, no stop
      rename_i h0
      obtain ⟨hgo, hno⟩ := goes_of_zero flags h0
      obtain ⟨⟨k, t, st⟩, htr, h⟩ := Option.bind_eq_some_iff.1 h
      cases h
      obtain ⟨hleft, harg, hstop, hk', hret⟩ := ih (hmem₁ ▸ hk) htr
      rw [scan_cons_of_goes (by rw [hask, hends]; exact hgo), hask,
        if_neg (fun hd => hno (hdrops.1 hd).2)]
      rw [harg₁] at hleft harg hstop hret
      refine ⟨?_, ?_, hstop, hk', fun hnone => ?_⟩
      · rw [List.map_cons, hleft]
      · rw [harg, List.append_assoc]
        rfl
      · rw [hret (hret₁.trans hnone)]
        refine Iff.trans ?_ (hnote _).symm
        simp [hno]
    split at h
    · -- no match but stop
      rename_i hst
      obtain ⟨hend, hno⟩ := ends_of_stop flags hst
      cases h
      rw [scan_cons_of_ends (by rw [hask, hends]; exact hend), hask,
        if_neg (fun hd => hno (hdrops.1 hd).2)]
      refine ⟨rfl, harg₁, rfl, hmem₁ ▸ hk, fun hnone => ?_⟩
      have hgive := hnote []
      rw [List.append_nil] at hgive
      rw [hret₁, hnone, hgive]
      simp [hno, Gives]
    rename_i h0 hst
    have hmatch : IsMatch res.1 := (isMatch_iff res.1).2 ⟨h0, hst⟩
    obtain ⟨s₂, hrec, h⟩ := Option.bind_eq_some_iff.1 h
    obtain ⟨harg₂, hk₂, hret₂⟩ := matchRecord_known (hmem₁ ▸ hk) hrec
    have hdrop : q.drops res.1 ↔ flags.objUnlink = true := by
      rw [hdrops]
      exact ⟨fun hd => hd.1, fun hu => ⟨hu, hmatch⟩⟩
    split at h
    · -- the only match we need
      rename_i hend
      cases h
      rw [scan_cons_of_ends (by rw [hask, hends, ends_iff_of_match hmatch]; exact hend), hask]
      refine ⟨?_, harg₂.trans harg₁, rfl, hk₂, fun hnone => ?_⟩
      · by_cases hu : flags.objUnlink = true
        · rw [if_pos hu, if_pos (hdrop.2 hu)]
        · rw [if_neg hu, if_neg (fun hd => hu (hdrop.1 hd))]
          rfl
      · have hgive := hnote []
        rw [List.append_nil] at hgive
        rw [hret₂, hret₁, hnone, hgive]
        cases hn : flags.objNodata with
        | true => simp [Gives, hn]
        | false => simp [hmatch]
    · rename_i hgo
      obtain ⟨⟨k, t, st⟩, htr, h⟩ := Option.bind_eq_some_iff.1 h
      cases h
      have hnodata : flags.objNodata = true := by
        by_contra hn
        exact hgo (.inr (hm (Bool.eq_false_iff.2 hn)))
      obtain ⟨hleft, harg, hstop, hk', hret⟩ := ih hk₂ htr
      rw [scan_cons_of_goes (by rw [hask, hends, ends_iff_of_match hmatch]; exact hgo), hask]
      rw [harg₂, harg₁] at hleft harg hstop hret
      refine ⟨?_, ?_, hstop, hk', fun hnone => ?_⟩
      · by_cases hu : flags.objUnlink = true
        · rw [if_pos hu, if_pos (hdrop.2 hu)]
          exact hleft
        · rw [if_neg hu, if_neg (fun hd => hu (hdrop.1 hd)), List.map_cons, hleft]
      · rw [harg, List.append_assoc]
        rfl
      · rw [hnodata, if_pos rfl] at hret₂
        rw [hret (hret₂.trans (hret₁.trans hnone))]
        refine Iff.trans ?_ (hnote _).symm
        simp [hnodata]

end Ao2

end Trismedia
