import Trismedia.Acl.Model
/-!
# Lists in memory, and their answers

Each call keeps the list what the accepted rules say (`run_holds`). The
answer on it is always to deny where a rule matches, and a copy leads
nowhere behind its last entry (`applyHa_copy_stuck`), so the lists that
answer as they should are those of `acl_good_iff`.
-/


namespace Trismedia

namespace Acl

open CString Segment

/-- The lists of this file: an address with its rule. -/
abbrev Entries := List (ℕ × Rule)

def cellOf (x : ℕ × Rule) : Option ℕ → TrisHa := x.2.cell

def copyCellOf (x : ℕ × Rule) : Option ℕ → TrisHa := x.2.copyCell

variable {mem mem' : HaMem} {xs ys : Entries} {a : BitVec 32}

/-! ## Applying -/

/-- What `applyHa` reads of an entry, in a list and in a copy. -/
structure Shows (node : ℕ × Rule → Option ℕ → TrisHa) : Prop where
  netaddr : ∀ x q, (node x q).netaddr = x.2.net &&& x.2.mask.word
  netmask : ∀ x q, (node x q).netmask = x.2.mask.word
  next : ∀ x p, (node x (some p)).next = some (some p)

theorem shows_cellOf : Shows cellOf :=
  ⟨fun _ _ => rfl, fun _ _ => rfl, fun _ _ => rfl⟩

theorem shows_copyCellOf : Shows copyCellOf :=
  ⟨fun _ _ => rfl, fun _ _ => rfl, fun _ _ => rfl⟩

/-- One entry of the loop. -/
theorem applyHa_succ {node : ℕ × Rule → Option ℕ → TrisHa} (hn : Shows node) {x : ℕ × Rule}
    {q : Option ℕ} (hx : mem x.1 = some (node x q)) (fuel : ℕ) :
    applyHa mem a (fuel + 1) (some x.1) =
      if x.2.Contains a then some senseDeny
      else (node x q).next.bind (applyHa mem a fuel) := by
  have hm : a &&& (node x q).netmask = (node x q).netaddr ↔ x.2.Contains a := by
    rw [hn.netaddr, hn.netmask, x.2.matches_iff]
  rw [applyHa, hx]
  simp only [Option.bind_eq_bind, Option.bind_some, hm]

/-- **The first rule that contains the address denies it.** -/
theorem applyHa_of_contains {node : ℕ × Rule → Option ℕ → TrisHa} (hn : Shows node)
    (h : Seg mem Prod.fst node xs none) {fuel : ℕ} (hfuel : xs.length < fuel)
    (hex : ∃ x ∈ xs, x.2.Contains a) :
    applyHa mem a fuel (first Prod.fst xs none) = some senseDeny := by
  induction xs generalizing fuel with
  | nil =>
    obtain ⟨x, hx, -⟩ := hex
    cases hx
  | cons x xs ih =>
    obtain ⟨fuel, rfl⟩ : ∃ n, fuel = n + 1 := ⟨fuel - 1, by omega⟩
    have hlen : xs.length < fuel := by
      rw [List.length_cons] at hfuel
      omega
    rw [first, applyHa_succ hn h.1]
    by_cases hx : x.2.Contains a
    · rw [if_pos hx]
    · have hrest : ∃ y ∈ xs, y.2.Contains a := by
        obtain ⟨y, hy, hya⟩ := hex
        rcases List.mem_cons.1 hy with rfl | hy
        · exact absurd hya hx
        · exact ⟨y, hy, hya⟩
      rw [if_neg hx]
      cases xs with
      | nil =>
        obtain ⟨y, hy, -⟩ := hrest
        cases hy
      | cons y xs =>
        rw [first, hn.next, Option.bind_some]
        exact ih h.2 hlen hrest

theorem applyHa_of_not_contains (h : Seg mem Prod.fst cellOf xs none) {fuel : ℕ}
    (hfuel : xs.length < fuel) (hno : ∀ x ∈ xs, ¬ x.2.Contains a) :
    applyHa mem a fuel (first Prod.fst xs none) = some senseAllow := by
  induction xs generalizing fuel with
  | nil =>
    obtain ⟨fuel, rfl⟩ : ∃ n, fuel = n + 1 := ⟨fuel - 1, by omega⟩
    rfl
  | cons x xs ih =>
    obtain ⟨fuel, rfl⟩ : ∃ n, fuel = n + 1 := ⟨fuel - 1, by omega⟩
    have hlen : xs.length < fuel := by
      rw [List.length_cons] at hfuel
      omega
    rw [first, applyHa_succ shows_cellOf h.1, if_neg (hno x List.mem_cons_self)]
    exact ih h.2 hlen fun y hy => hno y (List.mem_cons_of_mem _ hy)

/-- **Behind the last entry of a copy** stands no null pointer. -/
theorem applyHa_copy_stuck (h : Seg mem Prod.fst copyCellOf xs none) (hne : xs ≠ [])
    (hno : ∀ x ∈ xs, ¬ x.2.Contains a) (fuel : ℕ) :
    applyHa mem a fuel (first Prod.fst xs none) = none := by
  induction xs generalizing fuel with
  | nil => exact absurd rfl hne
  | cons x xs ih =>
    cases fuel with
    | zero => rfl
    | succ fuel =>
      rw [first, applyHa_succ shows_copyCellOf h.1, if_neg (hno x List.mem_cons_self)]
      cases xs with
      | nil => rfl
      | cons y xs =>
        rw [first, shows_copyCellOf.next, Option.bind_some]
        exact ih h.2 (List.cons_ne_nil _ _) (fun z hz => hno z (List.mem_cons_of_mem _ hz)) fuel

/-- `tris_apply_ha` returns `v`. -/
def Answers (mem : HaMem) (head : Option ℕ) (a : BitVec 32) (v : ℤ) : Prop :=
  ∃ fuel, applyHa mem a fuel head = some v

theorem applyHa_det {n m : ℕ} {p : Option ℕ} {v w : ℤ} (hv : applyHa mem a n p = some v)
    (hw : applyHa mem a m p = some w) : v = w := by
  induction n generalizing m p with
  | zero => cases hv
  | succ n ih =>
    cases m with
    | zero => cases hw
    | succ m =>
      cases p with
      | none => exact Option.some.inj (hv.symm.trans hw)
      | some p =>
        simp only [applyHa, Option.bind_eq_bind, Option.bind_eq_some_iff] at hv hw
        obtain ⟨ha, hha, hv⟩ := hv
        obtain ⟨ha', hha', hw⟩ := hw
        obtain rfl := Option.some.inj (hha.symm.trans hha')
        by_cases hm : a &&& ha.netmask = ha.netaddr
        · rw [if_pos hm] at hv hw
          exact Option.some.inj (hv.symm.trans hw)
        · rw [if_neg hm, Option.bind_eq_some_iff] at hv hw
          obtain ⟨next, hnext, hv⟩ := hv
          obtain ⟨next', hnext', hw⟩ := hw
          obtain rfl := Option.some.inj (hnext.symm.trans hnext')
          exact ih hv hw

theorem Answers.unique {p : Option ℕ} {v w : ℤ} (hv : Answers mem p a v) (hw : Answers mem p a w) :
    v = w := by
  obtain ⟨n, hn⟩ := hv
  obtain ⟨m, hm⟩ := hw
  exact applyHa_det hn hm

/-! ## Appending -/

theorem setNext_eq {prev : ℕ} {ha : TrisHa} (h : mem prev = some ha) (p : Option ℕ) :
    setNext mem (some prev) p =
      some (Function.update mem prev (some { ha with next := some p })) := by
  simp only [setNext, Option.bind_eq_bind, Option.bind_some, h]

theorem lastHa_det {n m : ℕ} {prev p v w : Option ℕ} (hv : lastHa mem n prev p = some v)
    (hw : lastHa mem m prev p = some w) : v = w := by
  induction n generalizing m prev p with
  | zero => cases hv
  | succ n ih =>
    cases m with
    | zero => cases hw
    | succ m =>
      cases p with
      | none => exact Option.some.inj (hv.symm.trans hw)
      | some p =>
        simp only [lastHa, Option.bind_eq_bind, Option.bind_eq_some_iff] at hv hw
        obtain ⟨ha, hha, next, hnext, hv⟩ := hv
        obtain ⟨ha', hha', next', hnext', hw⟩ := hw
        obtain rfl := Option.some.inj (hha.symm.trans hha')
        obtain rfl := Option.some.inj (hnext.symm.trans hnext')
        exact ih hv hw

theorem lastHa_eq (h : Seg mem Prod.fst cellOf xs none) {fuel : ℕ} (hfuel : xs.length < fuel)
    (prev : Option ℕ) :
    lastHa mem fuel prev (first Prod.fst xs none) = some (last Prod.fst xs prev) := by
  induction xs generalizing fuel prev with
  | nil =>
    obtain ⟨fuel, rfl⟩ : ∃ n, fuel = n + 1 := ⟨fuel - 1, by omega⟩
    rfl
  | cons x xs ih =>
    obtain ⟨fuel, rfl⟩ : ∃ n, fuel = n + 1 := ⟨fuel - 1, by omega⟩
    have hlen : xs.length < fuel := by
      rw [List.length_cons] at hfuel
      omega
    simp only [first, lastHa, Option.bind_eq_bind, h.1, Option.bind_some, last]
    exact ih h.2 hlen (some x.1)

/-- The list at `head` in memory is that of the rules `rs`. -/
structure Holds (mem : HaMem) (head : Option ℕ) (xs : Entries) : Prop where
  head_eq : head = first Prod.fst xs none
  seg : Seg mem Prod.fst cellOf xs none
  nodup : (xs.map Prod.fst).Nodup

theorem Holds.notMem {head : Option ℕ} (h : Holds mem head xs) {addr : ℕ} (hfree : mem addr = none) :
    addr ∉ xs.map Prod.fst := by
  intro hmem
  obtain ⟨x, hx, rfl⟩ := List.mem_map.1 hmem
  obtain ⟨q, hq⟩ := h.seg.cell hx
  rw [hfree] at hq
  cases hq

theorem update_update_none {addr : ℕ} (hfree : mem addr = none) (x : Option TrisHa) :
    Function.update (Function.update mem addr x) addr none = mem := by
  rw [Function.update_idem, ← hfree, Function.update_eq_self]

section Calls

variable (inetAton : CString → Option (BitVec 32)) (sscanfInt : CString → Option ℤ)

theorem appendHa_det {n m addr : ℕ} {sense stuff : CString} {head : Option ℕ} {garbage : Garbage}
    {v w : HaMem × Option ℕ × Bool}
    (hv : appendHa inetAton sscanfInt n mem sense stuff head addr garbage = some v)
    (hw : appendHa inetAton sscanfInt m mem sense stuff head addr garbage = some w) : v = w := by
  unfold appendHa at hv hw
  rw [Option.bind_eq_bind, Option.bind_eq_some_iff] at hv hw
  obtain ⟨prev, hprev, hv⟩ := hv
  obtain ⟨prev', hprev', hw⟩ := hw
  obtain rfl := lastHa_det hprev hprev'
  exact Option.some.inj (hv.symm.trans hw)

/-- **A rejected rule leaves everything as it was.** -/
theorem appendHa_rejected {head : Option ℕ} (h : Holds mem head xs) {fuel addr : ℕ}
    (hfuel : xs.length < fuel) (hfree : mem addr = none) {sense stuff : CString}
    (hr : ruleOf inetAton sscanfInt sense stuff = none) (garbage : Garbage) :
    appendHa inetAton sscanfInt fuel mem sense stuff head addr garbage = some (mem, head, true) := by
  have hlast := lastHa_eq h.seg hfuel none
  rw [← h.head_eq] at hlast
  unfold ruleOf at hr
  unfold appendHa
  simp only [hlast, Option.bind_eq_bind, Option.bind_some, netmaskOf_eq]
  cases hm : parseMask inetAton sscanfInt (splitSlash stuff).2 with
  | none => simp only [Option.map_none, update_update_none hfree]
  | some mask =>
    cases hn : inetAton (splitSlash stuff).1 with
    | none => simp only [Option.map_some, update_update_none hfree]
    | some net =>
      rw [hm, hn] at hr
      cases hr

/-- **An accepted rule** comes to stand behind the others. -/
theorem appendHa_accepted {head : Option ℕ} (h : Holds mem head xs) {fuel addr : ℕ}
    (hfuel : xs.length < fuel) (hfree : mem addr = none) {sense stuff : CString} {r : Rule}
    (hr : ruleOf inetAton sscanfInt sense stuff = some r) (garbage : Garbage) :
    ∃ mem' head', appendHa inetAton sscanfInt fuel mem sense stuff head addr garbage =
      some (mem', head', false) ∧ Holds mem' head' (xs ++ [(addr, r)]) := by
  have hlast := lastHa_eq h.seg hfuel none
  rw [← h.head_eq] at hlast
  have hnot := h.notMem hfree
  unfold ruleOf at hr
  cases hm : parseMask inetAton sscanfInt (splitSlash stuff).2 with
  | none =>
    rw [hm] at hr
    cases hr
  | some mask =>
    cases hn : inetAton (splitSlash stuff).1 with
    | none =>
      rw [hm, hn] at hr
      cases hr
    | some net =>
      rw [hm, hn] at hr
      obtain rfl := Option.some.inj hr
      let new := cellOf (addr, ⟨net, mask, startsWithP sense⟩) none
      have hnodup : ((xs ++ [(addr, Rule.mk net mask (startsWithP sense))]).map Prod.fst).Nodup := by
        rw [List.map_append, List.nodup_append]
        refine ⟨h.nodup, List.nodup_singleton _, ?_⟩
        intro p hp q hq heq
        obtain rfl := List.mem_singleton.1 hq
        exact hnot (heq ▸ hp)
      have hseg : Seg (Function.update mem addr (some new)) Prod.fst cellOf xs none := by
        refine h.seg.frame fun x hx => Function.update_of_ne ?_ ..
        exact fun heq => hnot (heq ▸ List.mem_map_of_mem hx)
      unfold appendHa
      simp only [hlast, Option.bind_eq_bind, Option.bind_some, netmaskOf_eq, hm, hn,
        Option.map_some, Function.update_idem]
      rcases List.eq_nil_or_concat' xs with rfl | ⟨zs, z, rfl⟩
      · refine ⟨_, _, rfl, rfl, ⟨?_, trivial⟩, hnodup⟩
        exact Function.update_self ..
      · have hzlast : last Prod.fst (zs ++ [z]) none = some z.1 := by simp [last]
        have hzcell := (Seg.snoc.1 hseg).2
        have hz : z.1 ∉ zs.map Prod.fst := by
          have := h.nodup
          rw [List.map_append, List.nodup_append] at this
          exact fun hmem => this.2.2 _ hmem _ (List.mem_singleton_self _) rfl
        have hza : addr ≠ z.1 := fun heq => hnot (by simp [heq])
        have hset := setNext_eq hzcell (some addr)
        simp only [hzlast]
        refine ⟨_, _, by erw [hset]; rfl, ?_, ?_, hnodup⟩
        · rw [h.head_eq]
          cases zs <;> rfl
        · rw [Seg.snoc]
          refine ⟨hseg.relink hz, ?_⟩
          rw [Function.update_of_ne hza, Function.update_self]

end Calls

/-! ## Copying -/

/-- **The loop of the copy.** `ys` are the entries copied so far. -/
theorem duplicateLoop_eq {addrs : ℕ → ℕ} (hinj : Function.Injective addrs)
    (garbage : ℕ → Garbage) {k fuel : ℕ} (hfuel : xs.length < fuel)
    (hxs : Seg mem Prod.fst cellOf xs none) (hys : Seg mem Prod.fst copyCellOf ys none)
    (hfresh : ∀ j, k ≤ j → addrs j ∉ xs.map Prod.fst ∧ addrs j ∉ ys.map Prod.fst)
    (hdisj : ∀ y ∈ ys, y.1 ∉ xs.map Prod.fst) (hnodup : (ys.map Prod.fst).Nodup) :
    ∃ mem' zs, zs.map Prod.snd = xs.map Prod.snd ∧
      Seg mem' Prod.fst copyCellOf (ys ++ zs) none ∧
      duplicateLoop addrs garbage fuel k mem (first Prod.fst xs none) (last Prod.fst ys none)
        (first Prod.fst ys none) = some (mem', first Prod.fst (ys ++ zs) none) := by
  induction xs generalizing mem ys k fuel with
  | nil =>
    obtain ⟨fuel, rfl⟩ : ∃ n, fuel = n + 1 := ⟨fuel - 1, by omega⟩
    refine ⟨mem, [], rfl, by rwa [List.append_nil], ?_⟩
    rw [List.append_nil]
    rfl
  | cons x xs ih =>
    obtain ⟨fuel, rfl⟩ : ∃ n, fuel = n + 1 := ⟨fuel - 1, by omega⟩
    have hlen : xs.length < fuel := by
      rw [List.length_cons] at hfuel
      omega
    obtain ⟨hkx, hky⟩ := hfresh k (Nat.le_refl k)
    have hx : mem x.1 = some (cellOf x (first Prod.fst xs none)) := hxs.1
    have hkx1 : x.1 ≠ addrs k := fun heq => hkx (by simp [heq])
    have hkxs : addrs k ∉ xs.map Prod.fst := fun hmem => hkx (List.mem_cons_of_mem _ hmem)
    -- the new entry, before anything leads to it
    let y : ℕ × Rule := (addrs k, x.2)
    let mem1 := Function.update mem (addrs k) (some (copyCellOf y none))
    have hcopy : copyHa (cellOf x (first Prod.fst xs none)) (garbage k).toHa = copyCellOf y none := rfl
    have hx1 : mem1 x.1 = some (cellOf x (first Prod.fst xs none)) := by
      rw [← hx]
      exact Function.update_of_ne hkx1 ..
    have hxs1 : Seg mem1 Prod.fst cellOf xs none := by
      refine hxs.2.frame fun z hz => Function.update_of_ne ?_ ..
      exact fun heq => hkxs (heq ▸ List.mem_map_of_mem hz)
    have hys1 : Seg mem1 Prod.fst copyCellOf ys none := by
      refine hys.frame fun z hz => Function.update_of_ne ?_ ..
      exact fun heq => hky (heq ▸ List.mem_map_of_mem hz)
    have hy1 : mem1 (addrs k) = some (copyCellOf y none) := Function.update_self ..
    have hdisj' : ∀ z ∈ ys ++ [y], z.1 ∉ xs.map Prod.fst := by
      intro z hz hmem
      rcases List.mem_append.1 hz with hz | hz
      · exact hdisj z hz (List.mem_cons_of_mem _ hmem)
      · obtain rfl := List.mem_singleton.1 hz
        exact hkxs hmem
    have hnodup' : ((ys ++ [y]).map Prod.fst).Nodup := by
      rw [List.map_append, List.nodup_append]
      refine ⟨hnodup, List.nodup_singleton _, ?_⟩
      intro p hp q hq heq
      have heq' : p = addrs k := heq.trans (List.mem_singleton.1 hq)
      exact hky (heq' ▸ hp)
    have hfresh' : ∀ j, k + 1 ≤ j →
        addrs j ∉ xs.map Prod.fst ∧ addrs j ∉ (ys ++ [y]).map Prod.fst := by
      intro j hj
      obtain ⟨hjx, hjy⟩ := hfresh j (by omega)
      refine ⟨fun hmem => hjx (List.mem_cons_of_mem _ hmem), fun hmem => ?_⟩
      rw [List.map_append, List.mem_append] at hmem
      rcases hmem with hmem | hmem
      · exact hjy hmem
      · have hjk := hinj (List.mem_singleton.1 hmem)
        omega
    -- the entry before it is made to lead to it
    obtain ⟨mem2, hlink, hx2, hxs2, hys2⟩ : ∃ mem2,
        (if (last Prod.fst ys none).isSome then
          setNext mem1 (last Prod.fst ys none) (some (addrs k)) else some mem1) = some mem2 ∧
        mem2 x.1 = some (cellOf x (first Prod.fst xs none)) ∧
        Seg mem2 Prod.fst cellOf xs none ∧ Seg mem2 Prod.fst copyCellOf (ys ++ [y]) none := by
      rcases List.eq_nil_or_concat' ys with rfl | ⟨zs, z, rfl⟩
      · exact ⟨mem1, rfl, hx1, hxs1, hy1, trivial⟩
      · have hzlast : last Prod.fst (zs ++ [z]) none = some z.1 := by simp [last]
        have hzcell := (Seg.snoc.1 hys1).2
        have hzmem : z ∈ zs ++ [z] := by simp
        have hz : z.1 ∉ zs.map Prod.fst := by
          rw [List.map_append, List.nodup_append] at hnodup
          exact fun hmem => hnodup.2.2 _ hmem _ (List.mem_singleton_self _) rfl
        have hzx : x.1 ≠ z.1 := fun heq => hdisj z hzmem (by simp [heq])
        have hzy : addrs k ≠ z.1 := fun heq => hky (by simp [heq])
        have hset := setNext_eq hzcell (some (addrs k))
        rw [hzlast, Option.isSome_some, if_pos rfl, hset]
        refine ⟨_, rfl, ?_, ?_, ?_⟩
        · rw [Function.update_of_ne hzx, hx1]
        · refine hxs1.frame fun w hw => Function.update_of_ne ?_ ..
          exact fun heq => hdisj' z (by simp) (heq ▸ List.mem_map_of_mem hw)
        · have hz2 : Seg (Function.update mem1 z.1 (some (copyCellOf z (some (addrs k)))))
              Prod.fst copyCellOf (zs ++ [z]) (some (addrs k)) := hys1.relink hz
          rw [Seg.snoc]
          refine ⟨hz2, ?_⟩
          exact (Function.update_of_ne hzy ..).trans hy1
    obtain ⟨mem', zs, hzs, hseg, hloop⟩ := ih hlen hxs2 hys2 hfresh' hdisj' hnodup'
    refine ⟨mem', y :: zs, by rw [List.map_cons, List.map_cons, hzs], ?_, ?_⟩
    · rwa [List.append_assoc] at hseg
    · have hret : (if (first Prod.fst ys none).isNone then some (addrs k)
          else first Prod.fst ys none) = first Prod.fst (ys ++ [y]) none := by
        cases ys <;> rfl
      have hprev : last Prod.fst (ys ++ [y]) none = some (addrs k) := by simp [last, y]
      have hstep : duplicateLoop addrs garbage (fuel + 1) k mem (some x.1) (last Prod.fst ys none)
          (first Prod.fst ys none) = duplicateLoop addrs garbage fuel (k + 1) mem2
            (first Prod.fst xs none) (some (addrs k)) (first Prod.fst (ys ++ [y]) none) := by
        by_cases hp : (last Prod.fst ys none).isSome
        · rw [if_pos hp] at hlink
          simp only [duplicateLoop, hx, hcopy, Option.bind_eq_bind, Option.bind_some, if_pos hp, hret]
          rw [hlink, Option.bind_some, hx2, Option.bind_some]
          rfl
        · rw [if_neg hp] at hlink
          obtain rfl := Option.some.inj hlink
          have hx1' : Function.update mem (addrs k) (some (copyCellOf y none)) x.1 =
            some (cellOf x (first Prod.fst xs none)) := hx1
          simp only [duplicateLoop, hx, hcopy, Option.bind_eq_bind, Option.bind_some, if_neg hp, hret]
          rw [hx1', Option.bind_some]
          rfl
      rw [first, hstep, ← hprev, hloop, List.append_assoc, List.singleton_append]

theorem duplicateLoop_det {addrs : ℕ → ℕ} {garbage : ℕ → Garbage} {n m k : ℕ}
    {start prev ret : Option ℕ} {v w : HaMem × Option ℕ}
    (hv : duplicateLoop addrs garbage n k mem start prev ret = some v)
    (hw : duplicateLoop addrs garbage m k mem start prev ret = some w) : v = w := by
  induction n generalizing m k mem start prev ret with
  | zero => cases hv
  | succ n ih =>
    cases m with
    | zero => cases hw
    | succ m =>
      cases start with
      | none => exact Option.some.inj (hv.symm.trans hw)
      | some p =>
        by_cases hp : prev.isSome
        · simp only [duplicateLoop, if_pos hp, Option.bind_eq_bind, Option.bind_eq_some_iff] at hv hw
          obtain ⟨ha, hha, mem1, hmem1, hb, hhb, next, hnext, hv⟩ := hv
          obtain ⟨ha', hha', mem1', hmem1', hb', hhb', next', hnext', hw⟩ := hw
          obtain rfl := Option.some.inj (hha.symm.trans hha')
          obtain rfl := Option.some.inj (hmem1.symm.trans hmem1')
          obtain rfl := Option.some.inj (hhb.symm.trans hhb')
          obtain rfl := Option.some.inj (hnext.symm.trans hnext')
          exact ih hv hw
        · simp only [duplicateLoop, if_neg hp, Option.bind_eq_bind, Option.bind_some,
            Option.bind_eq_some_iff] at hv hw
          obtain ⟨ha, hha, hb, hhb, next, hnext, hv⟩ := hv
          obtain ⟨ha', hha', hb', hhb', next', hnext', hw⟩ := hw
          obtain rfl := Option.some.inj (hha.symm.trans hha')
          obtain rfl := Option.some.inj (hhb.symm.trans hhb')
          obtain rfl := Option.some.inj (hnext.symm.trans hnext')
          exact ih hv hw

/-- **A copy has the same rules**, and its last entry leads nowhere. -/
theorem duplicateHaList_eq {head : Option ℕ} (h : Holds mem head xs) {addrs : ℕ → ℕ}
    (hinj : Function.Injective addrs) (hfree : ∀ k, mem (addrs k) = none) (garbage : ℕ → Garbage)
    {fuel : ℕ} (hfuel : xs.length < fuel) :
    ∃ mem' zs, zs.map Prod.snd = xs.map Prod.snd ∧ Seg mem' Prod.fst copyCellOf zs none ∧
      duplicateHaList fuel mem addrs garbage head = some (mem', first Prod.fst zs none) := by
  rw [duplicateHaList, h.head_eq]
  have hfresh : ∀ j, 0 ≤ j → addrs j ∉ xs.map Prod.fst ∧ addrs j ∉ ([] : Entries).map Prod.fst :=
    fun j _ => ⟨h.notMem (hfree j), List.not_mem_nil⟩
  have hdisj : ∀ y ∈ ([] : Entries), y.1 ∉ xs.map Prod.fst := fun y hy => absurd hy List.not_mem_nil
  have hnil : Seg mem Prod.fst copyCellOf ([] : Entries) none := trivial
  exact duplicateLoop_eq hinj garbage hfuel h.seg hnil hfresh hdisj List.nodup_nil

/-! ## Runs -/

structure HaList where
  mem : HaMem
  head : Option ℕ

/-- A call of `tris_append_ha`, and what `tris_malloc` gives it. -/
structure AppendCall where
  sense : CString
  stuff : CString
  addr : ℕ
  garbage : Garbage

section Calls

variable (inetAton : CString → Option (BitVec 32)) (sscanfInt : CString → Option ℤ)

/-- The call `e` leads from `s` to `s'` and sets `error` or not. -/
def Appends (s : HaList) (e : AppendCall) (s' : HaList) (error : Bool) : Prop :=
  s.mem e.addr = none ∧ ∃ fuel,
    appendHa inetAton sscanfInt fuel s.mem e.sense e.stuff s.head e.addr e.garbage =
      some (s'.mem, s'.head, error)

def AppendStep (s : HaList) (e : AppendCall) (s' : HaList) : Prop :=
  ∃ error, Appends inetAton sscanfInt s e s' error

/-- The accepted rules, oldest first. -/
def accepted (evs : List AppendCall) : List Rule :=
  evs.filterMap fun e => ruleOf inetAton sscanfInt e.sense e.stuff

/-- The list made by `tris_duplicate_ha_list` answers `v`. -/
def CopyAnswers (s : HaList) (addrs : ℕ → ℕ) (garbage : ℕ → Garbage) (a : BitVec 32) (v : ℤ) : Prop :=
  ∃ fuel mem' copy, duplicateHaList fuel s.mem addrs garbage s.head = some (mem', copy) ∧
    Answers mem' copy a v

/-- **What the access list is for**, after the calls `evs`, at the address
`a`: a rejected rule changes nothing, and the list as well as its copy give
the sense of the last rule that contains the address. -/
structure AclGood (evs : List AppendCall) (s : HaList) (addrs : ℕ → ℕ) (garbage : ℕ → Garbage)
    (a : BitVec 32) : Prop where
  returns : ∀ e, s.mem e.addr = none → ∃ s' error, Appends inetAton sscanfInt s e s' error
  rejected : ∀ e, s.mem e.addr = none → ruleOf inetAton sscanfInt e.sense e.stuff = none →
    Appends inetAton sscanfInt s e s true
  applied : Answers s.mem s.head a (verdict (accepted inetAton sscanfInt evs) a)
  copied : CopyAnswers s addrs garbage a (verdict (accepted inetAton sscanfInt evs) a)

variable {inetAton sscanfInt} {s : HaList} {evs : List AppendCall}

/-- **The list is what the accepted rules say.** -/
theorem run_holds {mem : HaMem} (h : Trace (AppendStep inetAton sscanfInt) ⟨mem, none⟩ evs s) :
    ∃ xs, Holds s.mem s.head xs ∧ xs.map Prod.snd = accepted inetAton sscanfInt evs := by
  induction h with
  | nil => exact ⟨[], ⟨rfl, trivial, List.nodup_nil⟩, rfl⟩
  | @snoc s t evs e _ he ih =>
    obtain ⟨xs, hxs, hrules⟩ := ih
    obtain ⟨error, hfree, fuel, hcall⟩ := he
    have hevs : accepted inetAton sscanfInt (evs ++ [e]) = accepted inetAton sscanfInt evs ++
        (ruleOf inetAton sscanfInt e.sense e.stuff).toList := by
      rw [accepted, List.filterMap_append]
      cases hr : ruleOf inetAton sscanfInt e.sense e.stuff <;> simp [accepted, hr]
    cases hr : ruleOf inetAton sscanfInt e.sense e.stuff with
    | none =>
      have hrej := appendHa_rejected inetAton sscanfInt hxs (Nat.lt_succ_self _) hfree hr e.garbage
      have heq := appendHa_det inetAton sscanfInt hcall hrej
      simp only [Prod.mk.injEq] at heq
      refine ⟨xs, ?_, ?_⟩
      · rw [heq.1, heq.2.1]
        exact hxs
      · rw [hevs, hr, hrules, Option.toList_none, List.append_nil]
    | some r =>
      obtain ⟨mem', head', hacc, hholds⟩ :=
        appendHa_accepted inetAton sscanfInt hxs (Nat.lt_succ_self _) hfree hr e.garbage
      have heq := appendHa_det inetAton sscanfInt hcall hacc
      simp only [Prod.mk.injEq] at heq
      refine ⟨xs ++ [(e.addr, r)], ?_, ?_⟩
      · rw [heq.1, heq.2.1]
        exact hholds
      · rw [hevs, hr, List.map_append, hrules]
        rfl

theorem Holds.returns {xs : Entries} (h : Holds s.mem s.head xs) {e : AppendCall}
    (hfree : s.mem e.addr = none) : ∃ s' error, Appends inetAton sscanfInt s e s' error := by
  cases hr : ruleOf inetAton sscanfInt e.sense e.stuff with
  | none =>
    have hrej := appendHa_rejected inetAton sscanfInt h (Nat.lt_succ_self _) hfree hr e.garbage
    exact ⟨s, true, hfree, _, hrej⟩
  | some r =>
    obtain ⟨mem', head', hacc, -⟩ :=
      appendHa_accepted inetAton sscanfInt h (Nat.lt_succ_self _) hfree hr e.garbage
    exact ⟨⟨mem', head'⟩, false, hfree, _, hacc⟩

/-- The answer on the list. -/
theorem Holds.answers_iff {xs : Entries} (h : Holds s.mem s.head xs) (a : BitVec 32) (v : ℤ) :
    Answers s.mem s.head a v ↔
      ((∃ x ∈ xs, x.2.Contains a) ∧ v = senseDeny) ∨
        ((∀ x ∈ xs, ¬ x.2.Contains a) ∧ v = senseAllow) := by
  rw [h.head_eq]
  by_cases hex : ∃ x ∈ xs, x.2.Contains a
  · have hdeny : Answers s.mem (first Prod.fst xs none) a senseDeny :=
      ⟨_, applyHa_of_contains shows_cellOf h.seg (Nat.lt_succ_self _) hex⟩
    constructor
    · exact fun hv => .inl ⟨hex, hv.unique hdeny⟩
    · rintro (⟨-, rfl⟩ | ⟨hno, -⟩)
      · exact hdeny
      · obtain ⟨x, hx, hxa⟩ := hex
        exact absurd hxa (hno x hx)
  · have hno : ∀ x ∈ xs, ¬ x.2.Contains a := fun x hx hxa => hex ⟨x, hx, hxa⟩
    have hallow : Answers s.mem (first Prod.fst xs none) a senseAllow :=
      ⟨_, applyHa_of_not_contains h.seg (Nat.lt_succ_self _) hno⟩
    constructor
    · exact fun hv => .inr ⟨hno, hv.unique hallow⟩
    · rintro (⟨hx, -⟩ | ⟨-, rfl⟩)
      · exact absurd hx hex
      · exact hallow

/-- The last rule that contains the address, if there is one. -/
theorem verdict_eq_deny_iff {rs : List Rule} {a : BitVec 32} :
    verdict rs a = senseDeny ↔
      ∃ r, (rs.filter (·.Contains a)).getLast? = some r ∧ r.allow = false := by
  rw [verdict]
  cases hlast : (rs.filter (·.Contains a)).getLast? with
  | none => simp [senseAllow, senseDeny]
  | some r => cases hr : r.allow <;> simp [Rule.sense, hr, senseAllow, senseDeny]

theorem exists_contains_of_verdict {rs : List Rule} {a : BitVec 32}
    (h : verdict rs a = senseDeny) : ∃ r ∈ rs, r.Contains a := by
  obtain ⟨r, hr, -⟩ := verdict_eq_deny_iff.1 h
  obtain ⟨hmem, hra⟩ := List.mem_filter.1 (List.mem_of_getLast? hr)
  exact ⟨r, hmem, by simpa using hra⟩

theorem exists_contains_iff {xs : Entries} {a : BitVec 32} :
    (∃ x ∈ xs, x.2.Contains a) ↔ ∃ r ∈ xs.map Prod.snd, r.Contains a := by
  simp only [List.mem_map, exists_exists_and_eq_and]

/-- The copy answers as the list does where a rule matches, and nowhere
else. -/
theorem Holds.copyAnswers_iff {xs : Entries} (h : Holds s.mem s.head xs) {addrs : ℕ → ℕ}
    (hinj : Function.Injective addrs) (hfree : ∀ k, s.mem (addrs k) = none)
    (garbage : ℕ → Garbage) (a : BitVec 32) (v : ℤ) :
    CopyAnswers s addrs garbage a v ↔
      (xs = [] ∧ v = senseAllow) ∨ ((∃ x ∈ xs, x.2.Contains a) ∧ v = senseDeny) := by
  obtain ⟨mem', zs, hzs, hseg, hdup⟩ :=
    duplicateHaList_eq h hinj hfree garbage (Nat.lt_succ_self xs.length)
  have hcontains : (∃ z ∈ zs, z.2.Contains a) ↔ ∃ x ∈ xs, x.2.Contains a := by
    rw [exists_contains_iff, exists_contains_iff, hzs]
  have hnil : zs = [] ↔ xs = [] := by
    rw [← @List.map_eq_nil_iff _ _ Prod.snd, hzs, List.map_eq_nil_iff]
  have hcopy : CopyAnswers s addrs garbage a v ↔ Answers mem' (first Prod.fst zs none) a v := by
    constructor
    · rintro ⟨fuel, mem2, copy, hcall, hv⟩
      have heq := duplicateLoop_det hcall hdup
      simp only [Prod.mk.injEq] at heq
      rwa [heq.1, heq.2] at hv
    · exact fun hv => ⟨_, mem', _, hdup, hv⟩
  rw [hcopy]
  by_cases hex : ∃ z ∈ zs, z.2.Contains a
  · have hdeny : Answers mem' (first Prod.fst zs none) a senseDeny :=
      ⟨_, applyHa_of_contains shows_copyCellOf hseg (Nat.lt_succ_self _) hex⟩
    have hne : xs ≠ [] := by
      obtain ⟨x, hx, -⟩ := hcontains.1 hex
      exact List.ne_nil_of_mem hx
    constructor
    · exact fun hv => .inr ⟨hcontains.1 hex, hv.unique hdeny⟩
    · rintro (⟨hxs, -⟩ | ⟨-, rfl⟩)
      · exact absurd hxs hne
      · exact hdeny
  · have hno : ∀ z ∈ zs, ¬ z.2.Contains a := fun z hz hza => hex ⟨z, hz, hza⟩
    by_cases hz : zs = []
    · subst hz
      have hallow : Answers mem' none a senseAllow := ⟨1, rfl⟩
      constructor
      · exact fun hv => .inl ⟨hnil.1 rfl, hv.unique hallow⟩
      · rintro (⟨-, rfl⟩ | ⟨hx, -⟩)
        · exact hallow
        · exact absurd (hcontains.2 hx) hex
    · constructor
      · rintro ⟨fuel, hv⟩
        rw [applyHa_copy_stuck hseg hz hno] at hv
        cases hv
      · rintro (⟨hxs, -⟩ | ⟨hx, -⟩)
        · exact absurd (hnil.2 hxs) hz
        · exact absurd (hcontains.2 hx) hex

/-- **An access list answers as it should** exactly while it is empty, and
at the addresses whose last rule denies them: `tris_apply_ha` denies at the
first rule that matches, and the last entry of a copy is never ended. -/
theorem acl_good_iff {mem : HaMem} (h : Trace (AppendStep inetAton sscanfInt) ⟨mem, none⟩ evs s)
    {addrs : ℕ → ℕ} (hinj : Function.Injective addrs) (hfree : ∀ k, s.mem (addrs k) = none)
    (garbage : ℕ → Garbage) (a : BitVec 32) :
    AclGood inetAton sscanfInt evs s addrs garbage a ↔
      accepted inetAton sscanfInt evs = [] ∨
        ∃ r, ((accepted inetAton sscanfInt evs).filter (·.Contains a)).getLast? = some r ∧
          r.allow = false := by
  obtain ⟨xs, hxs, hrules⟩ := run_holds h
  have hnil : xs = [] ↔ accepted inetAton sscanfInt evs = [] := by
    rw [← hrules, List.map_eq_nil_iff]
  have hcontains : (∃ x ∈ xs, x.2.Contains a) ↔
      ∃ r ∈ accepted inetAton sscanfInt evs, r.Contains a := by
    rw [exists_contains_iff, hrules]
  have hanswers := hxs.answers_iff a (verdict (accepted inetAton sscanfInt evs) a)
  have hcopy := hxs.copyAnswers_iff hinj hfree garbage a
    (verdict (accepted inetAton sscanfInt evs) a)
  rw [← verdict_eq_deny_iff, ← hnil]
  constructor
  · intro hgood
    -- the copy gives an answer only where a rule matches, the list then denies
    rcases hcopy.1 hgood.copied with ⟨hxs, -⟩ | ⟨-, hdeny⟩
    · exact .inl hxs
    · exact .inr hdeny
  · intro hcond
    have happlied : Answers s.mem s.head a (verdict (accepted inetAton sscanfInt evs) a) := by
      rw [hanswers]
      rcases hcond with rfl | hdeny
      · refine .inr ⟨fun x hx => absurd hx List.not_mem_nil, ?_⟩
        rw [hnil.1 rfl]
        rfl
      · exact .inl ⟨hcontains.2 (exists_contains_of_verdict hdeny), hdeny⟩
    refine ⟨fun e he => hxs.returns he, fun e he hr => ?_, happlied, ?_⟩
    · exact ⟨he, _, appendHa_rejected inetAton sscanfInt hxs (Nat.lt_succ_self _) he hr e.garbage⟩
    · rw [hcopy]
      rcases hcond with rfl | hdeny
      · refine .inl ⟨rfl, ?_⟩
        rw [hnil.1 rfl]
        rfl
      · exact .inr ⟨hcontains.2 (exists_contains_of_verdict hdeny), hdeny⟩

end Calls

/-! ## One permitted host -/

/-- `inet_aton` where only the text of 10.0.0.1 is read. -/
def inetAtonHost (s : CString) : Option (BitVec 32) :=
  if s = str "10.0.0.1" then some (htonl 0x0A000001) else none

/-- `permit` of the host 10.0.0.1. -/
def permitCall : AppendCall := ⟨str "permit", str "10.0.0.1", 0, ⟨0, 0, 0⟩⟩

def permitRule : Rule := ⟨htonl 0x0A000001, .bits 32 Mask.bits_le, true⟩

def permitList : HaList :=
  ⟨Function.update (fun _ => none) 0 (some (permitRule.cell none)), some 0⟩

theorem permitList_run :
    Trace (AppendStep inetAtonHost fun _ => none) ⟨fun _ => none, none⟩ [permitCall] permitList := by
  refine Trace.single ⟨false, rfl, 1, ?_⟩
  have hlast : lastHa (fun _ => none) 1 none none = some none := rfl
  have hmask : netmaskOf inetAtonHost (fun _ => none) (splitSlash permitCall.stuff).2 =
      some permitRule.mask.word := by decide
  have hnet : inetAtonHost (splitSlash permitCall.stuff).1 = some permitRule.net := by decide
  have hcell : (⟨permitRule.net &&& permitRule.mask.word, permitRule.mask.word,
      if startsWithP permitCall.sense then senseAllow else senseDeny, some none⟩ : TrisHa) =
        permitRule.cell none := by decide
  simp only [appendHa, hlast, hmask, hnet, hcell, Option.bind_eq_bind, Option.bind_some,
    Function.update_idem]
  rfl

theorem permitList_free (k : ℕ) : permitList.mem (Nat.succ k) = none := by
  simp [permitList]

theorem acl_good_iff_permit :
    (Trace (AppendStep inetAtonHost fun _ => none) ⟨fun _ => none, none⟩ [permitCall] permitList ∧
      Function.Injective Nat.succ ∧ ∀ k, permitList.mem (Nat.succ k) = none) ∧
    (AclGood inetAtonHost (fun _ => none) [permitCall] permitList Nat.succ (fun _ => ⟨0, 0, 0⟩)
        (htonl 0x0A000001) ↔
      accepted inetAtonHost (fun _ => none) [permitCall] = [] ∨
        ∃ r, ((accepted inetAtonHost (fun _ => none) [permitCall]).filter
            (·.Contains (htonl 0x0A000001))).getLast? = some r ∧ r.allow = false) := by
  exact ⟨⟨permitList_run, Nat.succ_injective, permitList_free⟩,
    acl_good_iff permitList_run Nat.succ_injective permitList_free (fun _ => ⟨0, 0, 0⟩) (htonl 0x0A000001)⟩

/-- The permitted host itself is denied. -/
theorem not_acl_good :
    ¬ ∀ (inetAton : CString → Option (BitVec 32)) (sscanfInt : CString → Option ℤ) mem evs s,
      Trace (AppendStep inetAton sscanfInt) ⟨mem, none⟩ evs s → ∀ addrs : ℕ → ℕ,
        Function.Injective addrs → (∀ k, s.mem (addrs k) = none) → ∀ garbage a,
          AclGood inetAton sscanfInt evs s addrs garbage a := by
  intro hall
  have hgood := hall _ _ _ _ _ permitList_run _ Nat.succ_injective permitList_free (fun _ => ⟨0, 0, 0⟩)
    (htonl 0x0A000001)
  have hrules : accepted inetAtonHost (fun _ => none) [permitCall] = [permitRule] := by decide
  have hallow : verdict [permitRule] (htonl 0x0A000001) = senseAllow := by decide
  have hdeny : Answers permitList.mem permitList.head (htonl 0x0A000001) senseDeny := by
    refine ⟨1, ?_⟩
    have hmem : permitList.mem 0 = some (permitRule.cell none) := rfl
    have hmatch : htonl 0x0A000001 &&& (permitRule.cell none).netmask =
        (permitRule.cell none).netaddr := by decide
    have hhead : permitList.head = some 0 := rfl
    rw [hhead, applyHa, hmem, Option.bind_eq_bind, Option.bind_some, if_pos hmatch]
  have happlied := hgood.applied
  rw [hrules, hallow] at happlied
  exact absurd (happlied.unique hdeny) (by decide)

end Acl

end Trismedia
