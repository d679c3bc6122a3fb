import Mathlib.Data.List.Dedup
/-!
# The last of each key

Of a list of entries, what is left when each entry replaces those before
it under the same key: for every key that occurs one entry, the last.
-/


variable {β κ κ' : Type*} [DecidableEq κ] [DecidableEq κ']

/-- The entries with no later one under their key. -/
def lastBy (key : β → κ) (l : List β) : List β := l.pwFilter fun x y => key x ≠ key y

variable {key : β → κ} {key' : β → κ'} {l : List β} {x y : β}

theorem forall_lastBy_ne : (∀ y ∈ lastBy key l, key x ≠ key y) ↔ ∀ y ∈ l, key x ≠ key y := by
  refine List.forall_mem_pwFilter (fun {a b c} hac => ?_) x l
  by_cases hab : key a = key b
  · exact .inr fun hbc => hac (hab.trans hbc)
  · exact .inl hab

theorem lastBy_cons_of_mem (h : key x ∈ l.map key) : lastBy key (x :: l) = lastBy key l := by
  refine List.pwFilter_cons_of_neg fun hall => ?_
  obtain ⟨y, hy, heq⟩ := List.mem_map.1 h
  exact forall_lastBy_ne.1 hall y hy heq.symm

theorem lastBy_cons_of_notMem (h : key x ∉ l.map key) :
    lastBy key (x :: l) = x :: lastBy key l := by
  refine List.pwFilter_cons_of_pos (forall_lastBy_ne.2 fun y hy heq => ?_)
  exact h (List.mem_map.2 ⟨y, hy, heq.symm⟩)

theorem mem_of_mem_lastBy (h : x ∈ lastBy key l) : x ∈ l :=
  List.pwFilter_subset l h

/-- No key is left twice. -/
theorem nodup_lastBy (key : β → κ) (l : List β) : ((lastBy key l).map key).Nodup :=
  List.pairwise_map.2 (List.pairwise_pwFilter l)

/-- **No key is lost.** -/
theorem map_lastBy (key : β → κ) (l : List β) : (lastBy key l).map key = (l.map key).dedup := by
  induction l with
  | nil => rfl
  | cons x l ih =>
    by_cases h : key x ∈ l.map key
    · rw [lastBy_cons_of_mem h, List.map_cons, List.dedup_cons_of_mem h, ih]
    · rw [lastBy_cons_of_notMem h, List.map_cons, List.map_cons, List.dedup_cons_of_notMem h, ih]

/-- **One more entry** replaces the one under its key. -/
theorem lastBy_snoc (key : β → κ) (l : List β) (x : β) :
    lastBy key (l ++ [x]) = (lastBy key l).filter (fun y => key y ≠ key x) ++ [x] := by
  induction l with
  | nil => rfl
  | cons y l ih =>
    have hmem : key y ∈ (l ++ [x]).map key ↔ key y ∈ l.map key ∨ key y = key x := by
      rw [List.map_append, List.mem_append, List.map_singleton, List.mem_singleton]
    rw [List.cons_append]
    by_cases h : key y ∈ l.map key
    · rw [lastBy_cons_of_mem (hmem.2 (.inl h)), lastBy_cons_of_mem h, ih]
    · rw [lastBy_cons_of_notMem h]
      by_cases heq : key y = key x
      · rw [lastBy_cons_of_mem (hmem.2 (.inr heq)), List.filter_cons_of_neg (by simpa using heq), ih]
      · have hnot : key y ∉ (l ++ [x]).map key := fun h' => (hmem.1 h').elim h heq
        rw [lastBy_cons_of_notMem hnot, List.filter_cons_of_pos (by simpa using heq), ih,
          List.cons_append]

/-- Two keys that tell the same entries apart leave the same ones. -/
theorem lastBy_congr (h : ∀ x ∈ l, ∀ y ∈ l, key x = key y ↔ key' x = key' y) :
    lastBy key l = lastBy key' l := by
  induction l with
  | nil => rfl
  | cons x l ih =>
    have hl : lastBy key l = lastBy key' l := ih fun y hy z hz =>
      h y (List.mem_cons_of_mem _ hy) z (List.mem_cons_of_mem _ hz)
    have hmem : key x ∈ l.map key ↔ key' x ∈ l.map key' := by
      rw [List.mem_map, List.mem_map]
      refine exists_congr fun y => and_congr_right fun hy => ?_
      exact h y (List.mem_cons_of_mem _ hy) x List.mem_cons_self
    by_cases hx : key x ∈ l.map key
    · rw [lastBy_cons_of_mem hx, lastBy_cons_of_mem (hmem.1 hx), hl]
    · rw [lastBy_cons_of_notMem hx, lastBy_cons_of_notMem fun h' => hx (hmem.2 h'), hl]

/-! ## The last value -/

/-- The last value that `f` gives on a list. -/
def latest {γ : Type*} (f : β → Option γ) (l : List β) : Option γ := (l.filterMap f).getLast?

/-- **One more entry**: its value, or else the one before. -/
theorem latest_snoc {γ : Type*} (f : β → Option γ) (l : List β) (x : β) :
    latest f (l ++ [x]) = (f x).or (latest f l) := by
  unfold latest
  cases h : f x with
  | none => simp [List.filterMap_append, h]
  | some v => simp [List.filterMap_append, h]
