import Mathlib.Data.Finset.Card
import Mathlib.Data.Finset.Image
import Mathlib.Data.List.Nodup
import Mathlib.Logic.Relation
/-!
# Depth-first order

`Visits key edges seen xs out` is a depth-first visit of the nodes `xs`
with the nodes `seen` behind it: a node whose key was seen is passed
over, any other is entered, and its edges are followed before the rest.
`out` lists the nodes entered, oldest first.

With the node itself for a key the visit finds exactly what can be
reached, each node once; a coarser key does the same as long as it tells
the nodes that can be reached apart.
-/


variable {ν κ : Type*}

/-- **A depth-first visit.** -/
inductive Visits (key : ν → κ) (edges : ν → List ν) : List ν → List ν → List ν → Prop
  | nil {seen : List ν} : Visits key edges seen [] seen
  | skip {x : ν} {seen xs out : List ν} : key x ∈ seen.map key → Visits key edges seen xs out →
      Visits key edges seen (x :: xs) out
  | enter {x : ν} {seen xs mid out : List ν} : key x ∉ seen.map key →
      Visits key edges (seen ++ [x]) (edges x) mid → Visits key edges mid xs out →
      Visits key edges seen (x :: xs) out

/-- `y` can be reached from `x`. -/
def Reachable (edges : ν → List ν) : ν → ν → Prop := Relation.ReflTransGen fun a b => b ∈ edges a

namespace Visits

variable {key : ν → κ} {edges : ν → List ν} {seen xs out out' : List ν} {x y z : ν}

theorem unique (h : Visits key edges seen xs out) (h' : Visits key edges seen xs out') :
    out = out' := by
  induction h generalizing out' with
  | nil =>
    cases h'
    rfl
  | skip hx _ ih =>
    cases h' with
    | skip _ h' => exact ih h'
    | enter hx' _ _ => exact absurd hx hx'
  | enter hx _ _ ih1 ih2 =>
    cases h' with
    | skip hx' _ => exact absurd hx' hx
    | enter _ h1 h2 =>
      obtain rfl := ih1 h1
      exact ih2 h2

/-- A visit only adds nodes. -/
theorem exists_append (h : Visits key edges seen xs out) : ∃ new, out = seen ++ new := by
  induction h with
  | nil => exact ⟨[], (List.append_nil _).symm⟩
  | skip _ _ ih => exact ih
  | @enter x _ _ _ _ _ _ _ ih1 ih2 =>
    obtain ⟨new1, rfl⟩ := ih1
    obtain ⟨new2, rfl⟩ := ih2
    exact ⟨x :: (new1 ++ new2), by simp only [List.append_assoc, List.cons_append, List.nil_append]⟩

theorem subset (h : Visits key edges seen xs out) : seen ⊆ out := by
  obtain ⟨new, rfl⟩ := h.exists_append
  exact List.subset_append_left _ _

theorem split {ys : List ν} (h : Visits key edges seen (xs ++ ys) out) :
    ∃ mid, Visits key edges seen xs mid ∧ Visits key edges mid ys out := by
  generalize hl : xs ++ ys = l at h
  induction h generalizing xs with
  | nil =>
    obtain ⟨rfl, rfl⟩ := List.append_eq_nil_iff.1 hl
    exact ⟨_, .nil, .nil⟩
  | skip hk hrest ih =>
    rcases xs with _ | ⟨x, xs⟩
    · obtain rfl : ys = _ := hl
      exact ⟨_, .nil, .skip hk hrest⟩
    · obtain ⟨rfl, rfl⟩ := List.cons.inj hl
      obtain ⟨mid, h1, h2⟩ := ih rfl
      exact ⟨mid, .skip hk h1, h2⟩
  | enter hk henter hrest _ ih =>
    rcases xs with _ | ⟨x, xs⟩
    · obtain rfl : ys = _ := hl
      exact ⟨_, .nil, .enter hk henter hrest⟩
    · obtain ⟨rfl, rfl⟩ := List.cons.inj hl
      obtain ⟨mid, h1, h2⟩ := ih rfl
      exact ⟨mid, .enter hk henter h1, h2⟩

/-- **No key is entered twice.** -/
theorem nodup (h : Visits key edges seen xs out) (hseen : (seen.map key).Nodup) :
    (out.map key).Nodup := by
  induction h with
  | nil => exact hseen
  | skip _ _ ih => exact ih hseen
  | @enter x _ _ _ _ hx _ _ ih1 ih2 =>
    refine ih2 (ih1 ?_)
    rw [List.map_append, List.map_singleton]
    exact hseen.append (List.nodup_singleton _) (List.disjoint_singleton.2 hx)

/-- Every node asked for is behind the visit in the end, -/
theorem key_mem (h : Visits key edges seen xs out) (hx : x ∈ xs) : key x ∈ out.map key := by
  induction h with
  | nil => simp at hx
  | skip hk hrest ih =>
    rcases List.mem_cons.1 hx with rfl | hx
    · exact List.map_subset _ hrest.subset hk
    · exact ih hx
  | enter hk h1 h2 ih1 ih2 =>
    rcases List.mem_cons.1 hx with rfl | hx
    · refine List.mem_map_of_mem (h2.subset (h1.subset ?_))
      exact List.mem_append_right _ (List.mem_singleton_self _)
    · exact ih2 hx

/-- and so is every edge of a node entered. -/
theorem key_mem_edges (h : Visits key edges seen xs out) (hy : y ∈ out) (hseen : y ∉ seen)
    (hz : z ∈ edges y) : key z ∈ out.map key := by
  induction h with
  | nil => exact absurd hy hseen
  | skip _ _ ih => exact ih hy hseen
  | @enter x _ _ mid _ _ h1 h2 ih1 ih2 =>
    by_cases hmid : y ∈ mid
    · refine List.map_subset _ h2.subset ?_
      by_cases hyx : y = x
      · exact h1.key_mem (hyx ▸ hz)
      · refine ih1 hmid fun hmem => ?_
        rcases List.mem_append.1 hmem with hmem | hmem
        · exact hseen hmem
        · exact hyx (List.mem_singleton.1 hmem)
    · exact ih2 hy hmid

/-- What is entered can be reached. -/
theorem reachable (h : Visits key edges seen xs out) (hy : y ∈ out) :
    y ∈ seen ∨ ∃ x ∈ xs, Reachable edges x y := by
  induction h with
  | nil => exact .inl hy
  | skip _ _ ih =>
    rcases ih hy with hy | ⟨x, hx, hr⟩
    · exact .inl hy
    · exact .inr ⟨x, List.mem_cons_of_mem _ hx, hr⟩
  | @enter x _ _ _ _ _ _ _ ih1 ih2 =>
    rcases ih2 hy with hy | ⟨x', hx', hr⟩
    · rcases ih1 hy with hy | ⟨x', hx', hr⟩
      · rcases List.mem_append.1 hy with hy | hy
        · exact .inl hy
        · obtain rfl := List.mem_singleton.1 hy
          exact .inr ⟨y, List.mem_cons_self, .refl⟩
      · exact .inr ⟨x, List.mem_cons_self, .head hx' hr⟩
    · exact .inr ⟨x', List.mem_cons_of_mem _ hx', hr⟩

/-- **A coarser key gives the same order** while it tells the nodes apart. -/
theorem congr_key {κ' : Type*} {key' : ν → κ'} (h : Visits key edges seen xs out)
    (hinj : ∀ a ∈ out, ∀ b, (b ∈ seen ∨ ∃ x ∈ xs, Reachable edges x b) →
      (key a = key b ↔ key' a = key' b)) : Visits key' edges seen xs out := by
  induction h with
  | nil => exact .nil
  | @skip x seen xs out hx hrest ih =>
    obtain ⟨a, ha, hax⟩ := List.mem_map.1 hx
    refine .skip (List.mem_map.2 ⟨a, ha, ?_⟩) (ih fun a ha b hb => hinj a ha b ?_)
    · exact (hinj a (hrest.subset ha) x (.inr ⟨x, List.mem_cons_self, .refl⟩)).1 hax
    · exact hb.imp_right fun ⟨x', hx', hr⟩ => ⟨x', List.mem_cons_of_mem _ hx', hr⟩
  | @enter x seen xs mid out hx h1 h2 ih1 ih2 =>
    refine .enter (fun hmem => hx ?_) (ih1 fun a ha b hb => ?_) (ih2 fun a ha b hb => ?_)
    · obtain ⟨a, ha, hax⟩ := List.mem_map.1 hmem
      refine List.mem_map.2 ⟨a, ha, ?_⟩
      refine (hinj a (h2.subset (h1.subset (List.mem_append_left _ ha))) x
        (.inr ⟨x, List.mem_cons_self, .refl⟩)).2 hax
    · refine hinj a (h2.subset ha) b ?_
      rcases hb with hb | ⟨x', hx', hr⟩
      · rcases List.mem_append.1 hb with hb | hb
        · exact .inl hb
        · exact .inr ⟨x, List.mem_cons_self, List.mem_singleton.1 hb ▸ .refl⟩
      · exact .inr ⟨x, List.mem_cons_self, .head hx' hr⟩
    · refine hinj a ha b ?_
      rcases hb with hb | ⟨x', hx', hr⟩
      · rcases h1.reachable hb with hb | ⟨x', hx', hr⟩
        · rcases List.mem_append.1 hb with hb | hb
          · exact .inl hb
          · exact .inr ⟨x, List.mem_cons_self, List.mem_singleton.1 hb ▸ .refl⟩
        · exact .inr ⟨x, List.mem_cons_self, .head hx' hr⟩
      · exact .inr ⟨x', List.mem_cons_of_mem _ hx', hr⟩

/-- **The visit of one node finds all that can be reached from it.** -/
theorem mem_iff_reachable (h : Visits id edges [] [x] out) : y ∈ out ↔ Reachable edges x y := by
  constructor
  · intro hy
    rcases h.reachable hy with hy | ⟨x', hx', hr⟩
    · simp at hy
    · exact List.mem_singleton.1 hx' ▸ hr
  · intro hr
    induction hr with
    | refl => simpa using h.key_mem (List.mem_singleton_self x)
    | tail _ hz ih => simpa using h.key_mem_edges ih List.not_mem_nil hz

/-- **A visit that stays among finitely many nodes ends.** -/
theorem exists_of_closed [DecidableEq κ] (S : Finset ν) (hclosed : ∀ a ∈ S, ∀ b ∈ edges a, b ∈ S)
    (seen xs : List ν) (hxs : ∀ a ∈ xs, a ∈ S) : ∃ out, Visits key edges seen xs out := by
  -- the keys of `S` that were not seen yet become fewer with each node entered
  generalize hn : ((S.image key) \ (seen.map key).toFinset).card = n
  induction n using Nat.strong_induction_on generalizing seen xs with
  | _ n ih =>
    subst hn
    induction xs with
    | nil => exact ⟨seen, .nil⟩
    | cons x xs ihxs =>
      have hx := hxs x List.mem_cons_self
      have hxs' : ∀ a ∈ xs, a ∈ S := fun a ha => hxs a (List.mem_cons_of_mem _ ha)
      by_cases hk : key x ∈ seen.map key
      · obtain ⟨out, hout⟩ := ihxs hxs'
        exact ⟨out, .skip hk hout⟩
      · have hlt : ∀ more : List ν, ((S.image key) \ ((seen ++ x :: more).map key).toFinset).card <
            ((S.image key) \ (seen.map key).toFinset).card := fun more => by
          refine Finset.card_lt_card ⟨fun k hk' => ?_, fun hsub => ?_⟩
          · simp only [List.map_append, List.toFinset_append, Finset.mem_sdiff,
              Finset.mem_union, not_or] at hk' ⊢
            exact ⟨hk'.1, hk'.2.1⟩
          · have hmem : key x ∈ (S.image key) \ (seen.map key).toFinset := by
              rw [Finset.mem_sdiff, List.mem_toFinset]
              exact ⟨Finset.mem_image_of_mem _ hx, hk⟩
            have := hsub hmem
            simp at this
        obtain ⟨mid, hmid⟩ := ih _ (hlt []) (seen ++ [x]) (edges x) (hclosed x hx) rfl
        obtain ⟨new, rfl⟩ := hmid.exists_append
        rw [List.append_assoc, List.singleton_append] at hmid
        obtain ⟨out, hout⟩ := ih _ (hlt new) (seen ++ x :: new) xs hxs' rfl
        exact ⟨out, .enter hk hmid hout⟩

end Visits
