import Trismedia.Ao2.Calls
/-!
# When a search asks no more

`__ao2_callback` looks through the buckets from `start` on and then, with
`OBJ_POINTER` and `OBJ_CONTINUE`, through those before `start`. A search
that is told to stop sets `i` to its limit. In the second part the limit
is `start`: where that is the last bucket, the end of the second part is
taken for the end of the first, and the second part begins again.
-/


namespace Trismedia

namespace Ao2

open CInt Scan

variable {α κ γ : Type} [DecidableEq α]

/-- **A container in use**: the counters are those of the references, and
so is the number of elements. -/
def Sound (flags : SearchFlags) (data : α → κ) {δ : Type} (size : ℕ)
    (buckets : ℕ → List (BucketList α)) (s : Search α κ δ) : Prop :=
  ∃ held links, Tally data s held links ∧ total size buckets = links ∧ Room flags held links

variable {flags : SearchFlags} {cb : Callback α κ γ} {data : α → κ} {size : ℕ}
variable {buckets buckets' : ℕ → List (BucketList α)} {nb start last : ℤ}
variable {s s' : Search α κ (γ × List (α × BitVec 32))}

/-- The counters know what the objects hold. -/
theorem Sound.known (h : Sound flags data size buckets s) : Known data s.mem := by
  obtain ⟨held, links, ht, -, -⟩ := h
  intro a obj hobj
  by_cases ha : a ∈ held + links
  · rw [ht.accounts.live a ha] at hobj
    cases hobj
    rfl
  · rw [ht.accounts.free a ha] at hobj
    cases hobj

/-- **One round** of the loop. -/
theorem Sound.visit (cb : Callback α κ γ)
    (hm : flags.objNodata = false → flags.objMultiple = false)
    (h : Sound flags data size buckets s) {i : ℕ} (hi : i < size) (hnone : s.ret = none) :
    ∃ kept s' r, r = scan (question flags cb data) s.arg.1 ((buckets i).map BucketList.astobj) ∧
      traverse flags (logged cb) (buckets i) s = some (kept, s', r.ended) ∧
      kept.map BucketList.astobj = r.left ∧ s'.arg = (r.state, s.arg.2 ++ r.asked) ∧
      (s'.ret.isSome ↔ Gives flags r.asked) ∧
      (s'.ret = none → Sound flags data size (Function.update buckets i kept) s') := by
  have hk := h.known
  obtain ⟨held, links, ht, htotal, hroom⟩ := h
  obtain ⟨kept, s', stop, hits, heq, heff, -, htotal'⟩ :=
    visit_spec (logged cb) hm ht htotal hroom hi
  obtain ⟨r, hr, hleft, harg, rfl, -, hret⟩ := traverse_logged hm hk heq
  refine ⟨kept, s', r, hr, heq, hleft, harg, hret hnone, fun hnone' => ?_⟩
  refine ⟨_, _, heff.tally, htotal', fun hn => ?_⟩
  -- nothing was returned, so no counter went up
  have h0 : hits = 0 := by
    rcases heff.ret_find hn with ⟨h0, -⟩ | ⟨a, -, hr'⟩
    · exact h0
    · rw [hnone'] at hr'
      cases hr'
  rw [h0, owned_zero, gone_zero, add_zero, tsub_zero]
  exact hroom hn

variable (nb start) in
/-- **The loop over a stretch of buckets.** It scans their objects; it
returns with an object, or goes on as the end of the stretch has it, told
to stop or not. -/
theorem bucketLoop_logged (cb : Callback α κ γ)
    (hm : flags.objNodata = false → flags.objMultiple = false) {n i : ℕ}
    (hlast : last = i + n) (hsize : last ≤ size) (hmax : last ≤ intMax)
    (hwrap : flags.objPointer = true → flags.objContinue = true → last ≤ nb)
    (hs : Sound flags data size buckets s) (hnone : s.ret = none) :
    ∃ buckets' s' r, r = scan (question flags cb data) s.arg.1 (linked buckets i n) ∧
      linked buckets' i n = r.left ∧ (∀ j, j < i ∨ i + n ≤ j → buckets' j = buckets j) ∧
      s'.arg = (r.state, s.arg.2 ++ r.asked) ∧
      ((Gives flags r.asked ∧ ∃ k, ∀ fuel,
          bucketLoop flags (logged cb) nb size start (fuel + k) i last buckets s =
            some (buckets', s')) ∨
        (¬ Gives flags r.asked ∧ s'.ret = none ∧ Sound flags data size buckets' s' ∧
          ((r.ended = true ∧ ∃ k, ∀ fuel,
              bucketLoop flags (logged cb) nb size start (fuel + k) i last buckets s =
                if last = nb - 1 ∧ flags.objPointer ∧ flags.objContinue then
                  bucketLoop flags (logged cb) nb size start fuel 0 start buckets' s'
                else
                  bucketLoop flags (logged cb) nb size start fuel (wrapInt (last + 1)) last
                    buckets' s') ∨
            (r.ended = false ∧ ∃ k, ∀ fuel,
              bucketLoop flags (logged cb) nb size start (fuel + k) i last buckets s =
                if 0 < n ∧ last = nb ∧ flags.objPointer ∧ flags.objContinue then
                  bucketLoop flags (logged cb) nb size start fuel 0 start buckets' s'
                else
                  bucketLoop flags (logged cb) nb size start fuel last last buckets' s')))) := by
  induction n generalizing i buckets s with
  | zero =>
    refine ⟨buckets, s, _, rfl, rfl, fun _ _ => rfl, ?_, .inr ⟨?_, hnone, hs, .inr ⟨rfl, 0, ?_⟩⟩⟩
    · show s.arg = (s.arg.1, s.arg.2 ++ [])
      rw [List.append_nil]
    · simp [Gives, linked_zero, scan]
    · intro fuel
      rw [if_neg (by simp), hlast]
      simp
  | succ n ih =>
    have hi : i < size := by omega
    have hin : 0 ≤ (i : ℤ) ∧ (i : ℤ) < size := by omega
    obtain ⟨kept, s₁, r₁, hr₁, htrav, hleft, harg, hret, hsound⟩ := hs.visit cb hm hi hnone
    have hround : ∀ fuel, bucketLoop flags (logged cb) nb size start (fuel + 1) i last buckets s =
        if s₁.ret.isSome then some (Function.update buckets i kept, s₁)
        else if (if r₁.ended then last else i) = nb - 1 ∧ flags.objPointer ∧ flags.objContinue then
          bucketLoop flags (logged cb) nb size start fuel 0 start
            (Function.update buckets i kept) s₁
        else
          bucketLoop flags (logged cb) nb size start fuel
            (wrapInt ((if r₁.ended then last else i) + 1)) last
            (Function.update buckets i kept) s₁ := by
      intro fuel
      rw [bucketLoop, if_pos (by omega), if_pos hin, Int.toNat_natCast]
      simp only [htrav, Option.bind_eq_bind, Option.bind_some]
    have hupd : ∀ j, j ≠ i → Function.update buckets i kept j = buckets j := fun j hj =>
      Function.update_of_ne hj ..
    have hrest : linked (Function.update buckets i kept) (i + 1) n = linked buckets (i + 1) n :=
      linked_congr fun j hj _ => hupd j (by omega)
    have hhead : linked (Function.update buckets i kept) i (n + 1) =
        r₁.left ++ linked buckets (i + 1) n := by
      rw [linked_succ, hrest, Function.update_self, hleft]
    have hsplit : linked buckets i (n + 1) =
        (buckets i).map BucketList.astobj ++ linked buckets (i + 1) n := linked_succ
    cases hended : r₁.ended with
    | true =>
      -- the search is told to stop in this bucket
      have hall := scan_append_of_ended (linked buckets (i + 1) n) (hr₁ ▸ hended)
      rw [← hr₁, ← hsplit] at hall
      refine ⟨Function.update buckets i kept, s₁, _, rfl, ?_, fun j hj => hupd j (by omega), ?_, ?_⟩
      · rw [hall, hhead]
      · rw [hall, harg]
      rw [hall]
      by_cases hgive : Gives flags r₁.asked
      · exact .inl ⟨hgive, 1, fun fuel => by rw [hround, if_pos (hret.2 hgive)]⟩
      · have hnot : ¬ s₁.ret.isSome = true := fun h => hgive (hret.1 h)
        have hnone₁ := Option.not_isSome_iff_eq_none.1 hnot
        refine .inr ⟨hgive, hnone₁, hsound hnone₁, .inl ⟨rfl, 1, fun fuel => ?_⟩⟩
        rw [hround, if_neg hnot, hended]
        simp only [if_true]
    | false =>
      have hall := scan_append_of_goes (linked buckets (i + 1) n) (hr₁ ▸ hended)
      rw [← hr₁, ← hsplit] at hall
      have hno₁ : ¬ Gives flags r₁.asked := by
        rw [hr₁] at hended ⊢
        exact not_gives_of_goes hm (scan_goes hended).1
      have hnot : ¬ s₁.ret.isSome = true := fun h => hno₁ (hret.1 h)
      have hnone₁ := Option.not_isSome_iff_eq_none.1 hnot
      have hgoes : ∀ l, Gives flags (r₁.asked ++ l) ↔ Gives flags l := by
        intro l
        rw [Gives.append]
        exact or_iff_right hno₁
      by_cases hw : (i : ℤ) = nb - 1 ∧ flags.objPointer ∧ flags.objContinue
      · -- the last bucket of all
        obtain rfl : n = 0 := by
          have := hwrap hw.2.1 hw.2.2
          omega
        rw [linked_zero] at hall hhead
        refine ⟨Function.update buckets i kept, s₁, _, rfl, ?_, fun j hj => hupd j (by omega), ?_,
          .inr ⟨?_, hnone₁, hsound hnone₁, .inr ⟨?_, 1, fun fuel => ?_⟩⟩⟩
        · rw [hall, hhead]
          rfl
        · rw [hall, harg]
          show _ = (r₁.state, s.arg.2 ++ (r₁.asked ++ []))
          rw [List.append_nil]
        · rw [hall, hgoes]
          simp [Gives, scan]
        · rw [hall]
          rfl
        · rw [hround, if_neg hnot, hended]
          simp only [Bool.false_eq_true, if_false]
          rw [if_pos hw, if_pos ⟨by omega, by omega, hw.2⟩]
      have hstep : wrapInt ((i : ℤ) + 1) = ((i + 1 : ℕ) : ℤ) := by
        rw [wrapInt_of_inInt]
        · push_cast
          rfl
        · unfold InInt intMin intMax at *
          omega
      obtain ⟨buckets₂, s₂, r₂, hr₂, hleft₂, hsame, harg₂, hout⟩ :=
        ih (i := i + 1) (by push_cast; omega) (hsound hnone₁) hnone₁
      rw [hrest, harg] at hr₂
      rw [← hr₂] at hall
      have hround' : ∀ fuel,
          bucketLoop flags (logged cb) nb size start (fuel + 1) i last buckets s =
            bucketLoop flags (logged cb) nb size start fuel ((i + 1 : ℕ) : ℤ) last
              (Function.update buckets i kept) s₁ := by
        intro fuel
        rw [hround, if_neg hnot, hended]
        simp only [Bool.false_eq_true, if_false]
        rw [if_neg hw, hstep]
      refine ⟨buckets₂, s₂, _, rfl, ?_, fun j hj => ?_, ?_, ?_⟩
      · rw [hall, linked_succ, hleft₂, hsame i (by omega), Function.update_self, hleft]
      · rw [hsame j (by omega), hupd j (by omega)]
      · rw [hall, harg₂, harg, List.append_assoc]
      rw [hall, hgoes]
      rcases hout with ⟨hgive, k, hk⟩ | ⟨hgive, hnone₂, hsound₂, hout⟩
      · exact .inl ⟨hgive, k + 1, fun fuel => (hround' (fuel + k)).trans (hk fuel)⟩
      refine .inr ⟨hgive, hnone₂, hsound₂, ?_⟩
      rcases hout with ⟨hend₂, k, hk⟩ | ⟨hend₂, k, hk⟩
      · exact .inl ⟨hend₂, k + 1, fun fuel => (hround' (fuel + k)).trans (hk fuel)⟩
      · refine .inr ⟨hend₂, k + 1, fun fuel => ((hround' (fuel + k)).trans (hk fuel)).trans ?_⟩
        have hsame' : (0 < n ∧ last = nb ∧ flags.objPointer ∧ flags.objContinue) ↔
            (0 < n + 1 ∧ last = nb ∧ flags.objPointer ∧ flags.objContinue) := by
          refine ⟨fun h => ⟨by omega, h.2⟩, fun h => ⟨?_, h.2⟩⟩
          by_contra hzero
          exact hw ⟨by omega, h.2.2⟩
        rw [if_congr hsame' rfl rfl]

/-! ## The search as a whole -/

/-- **What the calls of a search are to be**: no link is asked twice, and
after an answer that ends the search there are no more. -/
def Right (flags : SearchFlags) (size : ℕ) (buckets : ℕ → List (BucketList α))
    (log : List (α × BitVec 32)) : Prop :=
  ((log.map Prod.fst : List α) : Multiset α) ≤ total size buckets ∧
    ∀ l₁ x l₂, log = l₁ ++ x :: l₂ → Ends flags x.2 → l₂ = []

/-- The loop returns, and its calls were right. -/
def LoopRight (flags : SearchFlags) (size : ℕ) (buckets : ℕ → List (BucketList α))
    (f : ℕ → Option ((ℕ → List (BucketList α)) × Search α κ (γ × List (α × BitVec 32)))) : Prop :=
  ∃ N r, (∀ fuel, N ≤ fuel → f fuel = some r) ∧ Right flags size buckets r.2.arg.2

/-- **`__ao2_callback` returns, and its calls were right.** -/
def CallsRight (mem : Memory α κ) (c : Ao2Container α) (flags : SearchFlags) (hash : BitVec 32)
    (cb : Callback α κ γ) (arg : γ) : Prop :=
  ∃ N mem' c' arg' ret, (∀ fuel, N ≤ fuel →
    ao2Callback fuel mem c flags hash (logged cb) (arg, []) = some (mem', c', arg', ret)) ∧
    Right flags c.size c.buckets arg'.2

variable {f X : ℕ → Option ((ℕ → List (BucketList α)) × Search α κ (γ × List (α × BitVec 32)))}
variable {asked₁ asked₂ : List (α × BitVec 32)}

omit [DecidableEq α] in
theorem LoopRight.shift {k : ℕ} (h : ∀ fuel, f (fuel + k) = X fuel) :
    LoopRight flags size buckets f ↔ LoopRight flags size buckets X := by
  constructor
  · rintro ⟨N, r, hr, hright⟩
    refine ⟨N, r, fun fuel hfuel => ?_, hright⟩
    rw [← h]
    exact hr _ (by omega)
  · rintro ⟨N, r, hr, hright⟩
    refine ⟨N + k, r, fun fuel hfuel => ?_, hright⟩
    obtain ⟨m, rfl⟩ : ∃ m, fuel = m + k := ⟨fuel - k, by omega⟩
    rw [h]
    exact hr m (by omega)

/-- The loop is at its limit. -/
theorem loopRight_of_ge {i : ℤ} (hge : last ≤ i)
    (hright : Right flags size buckets s.arg.2) :
    LoopRight flags size buckets fun fuel =>
      bucketLoop flags (logged cb) nb size start fuel i last buckets' s := by
  refine ⟨1, (buckets', s), fun fuel hfuel => ?_, hright⟩
  obtain ⟨m, rfl⟩ : ∃ m, fuel = m + 1 := ⟨fuel - 1, by omega⟩
  show bucketLoop flags (logged cb) nb size start (m + 1) i last buckets' s = some (buckets', s)
  rw [bucketLoop, if_neg (by omega)]

/-- The limit is `INT_MAX`, and the loop goes past it. -/
theorem not_loopRight_of_intMax (hlast : last = intMax) :
    ¬ LoopRight flags size buckets fun fuel =>
      bucketLoop flags (logged cb) nb size start fuel (wrapInt (last + 1)) last buckets' s := by
  rintro ⟨N, r, hr, -⟩
  have hwrap : wrapInt (last + 1) = intMin := by
    rw [hlast]
    decide
  have hnone : bucketLoop flags (logged cb) nb size start (N + 1) (wrapInt (last + 1)) last
      buckets' s = none := by
    rw [bucketLoop, hwrap, hlast, if_pos (by decide), if_neg fun h => absurd h.1 (by decide)]
  exact absurd (hnone.symm.trans (hr (N + 1) (by omega))) (by simp)

/-- The log only grows. -/
theorem bucketLoop_extends (hm : flags.objNodata = false → flags.objMultiple = false) {fuel : ℕ}
    {i : ℤ} (hk : Known data s.mem)
    (h : bucketLoop flags (logged cb) nb size start fuel i last buckets s = some (buckets', s')) :
    s.arg.2 <+: s'.arg.2 := by
  induction fuel generalizing i last buckets s with
  | zero => cases h
  | succ fuel ih =>
    rw [bucketLoop] at h
    split at h
    · split at h
      · obtain ⟨⟨kept, s₁, stop⟩, htrav, h⟩ := Option.bind_eq_some_iff.1 h
        obtain ⟨r, -, -, harg, -, hk₁, -⟩ := traverse_logged hm hk htrav
        have hpre : s.arg.2 <+: s₁.arg.2 := by
          rw [harg]
          exact List.prefix_append _ _
        dsimp only at h
        generalize (if stop = true then last else i) = i' at h
        split at h
        · cases h
          exact hpre
        split at h
        · exact hpre.trans (ih hk₁ h)
        · exact hpre.trans (ih hk₁ h)
      · cases h
    · cases h
      exact List.prefix_rfl

omit [DecidableEq α] in
/-- The calls of the two parts of a search. -/
theorem right_of_parts {i n : ℕ} (hsize : i + n ≤ size)
    (h₁ : asked₁.map Prod.fst <+: linked buckets i n)
    (h₂ : asked₂.map Prod.fst <+: linked buckets 0 i)
    (hquiet : Quiet (question flags cb data) (asked₁ ++ asked₂)) :
    Right flags size buckets (asked₁ ++ asked₂) := by
  refine ⟨?_, hquiet⟩
  obtain ⟨t₁, ht₁⟩ := h₁
  obtain ⟨t₂, ht₂⟩ := h₂
  have hall : linked buckets 0 size =
      linked buckets 0 i ++ (linked buckets i n ++ linked buckets (i + n) (size - (i + n))) := by
    have hsplit : size = i + (n + (size - (i + n))) := by omega
    conv_lhs => rw [hsplit]
    rw [linked_add, Nat.zero_add, linked_add]
  rw [total_eq_linked, hall, ← ht₁, ← ht₂, List.map_append, ← Multiset.coe_add, ← Multiset.coe_add,
    ← Multiset.coe_add, ← Multiset.coe_add, ← Multiset.coe_add,
    add_comm (↑(asked₁.map Prod.fst) : Multiset α)]
  refine add_le_add (Multiset.le_add_right _ _) ?_
  rw [add_assoc]
  exact Multiset.le_add_right _ _

/-! ## When the calls are right -/

variable (flags cb data buckets) in
/-- What the callback is asked from `start` on. -/
def firstPart (g : γ) (start last : ℤ) : Answered γ α (BitVec 32) :=
  scan (question flags cb data) g (linked buckets start.toNat (last - start).toNat)

variable (flags cb data buckets) in
/-- And then, of the buckets before `start`. -/
def secondPart (g : γ) (start last : ℤ) : Answered γ α (BitVec 32) :=
  scan (question flags cb data) (firstPart flags cb data buckets g start last).state
    (linked buckets 0 start.toNat)

/-- The search is told to stop, with no object to return. -/
def ToldToStop (flags : SearchFlags) (r : Answered γ α (BitVec 32)) : Prop :=
  r.ended = true ∧ ¬ Gives flags r.asked

/-- **The two uses of the limit collide**: the search began in the last
bucket, is told to stop in one of the others, and an object is left in
them. -/
def Collides (flags : SearchFlags) (cb : Callback α κ γ) (data : α → κ)
    (buckets : ℕ → List (BucketList α)) (nb : ℤ) (g : γ) (start last : ℤ) : Prop :=
  flags.objPointer = true ∧ flags.objContinue = true ∧ start = nb - 1 ∧
    (firstPart flags cb data buckets g start last).ended = false ∧
    ToldToStop flags (secondPart flags cb data buckets g start last) ∧
    (secondPart flags cb data buckets g start last).left ≠ []

/-- The search is told to stop, and its limit is `INT_MAX`. -/
def PassesIntMax (flags : SearchFlags) (cb : Callback α κ γ) (data : α → κ)
    (buckets : ℕ → List (BucketList α)) (g : γ) (start last : ℤ) : Prop :=
  last = intMax ∧ ToldToStop flags (firstPart flags cb data buckets g start last)

/-- **The second part of the search**, which may begin again. -/
theorem secondRight_iff (cb : Callback α κ γ)
    (hm : flags.objNodata = false → flags.objMultiple = false) {i : ℕ} (hlt : (i : ℤ) < nb)
    (hsize : i ≤ size) (hmax : (i : ℤ) < intMax)
    (hpc : flags.objPointer = true ∧ flags.objContinue = true)
    (hs : Sound flags data size buckets' s) (hnone : s.ret = none)
    (hright : Right flags size buckets
      (s.arg.2 ++ (scan (question flags cb data) s.arg.1 (linked buckets' 0 i)).asked)) :
    (LoopRight flags size buckets fun fuel =>
        bucketLoop flags (logged cb) nb size i fuel 0 i buckets' s) ↔
      ¬ ((i : ℤ) = nb - 1 ∧
        ToldToStop flags (scan (question flags cb data) s.arg.1 (linked buckets' 0 i)) ∧
        (scan (question flags cb data) s.arg.1 (linked buckets' 0 i)).left ≠ []) := by
  obtain ⟨buckets₂, s₂, r₂, hr₂, hleft₂, -, harg₂, hout₂⟩ :=
    @bucketLoop_logged α κ γ _ flags data size buckets' nb i i s cb hm i 0
      (by rw [Nat.cast_zero, zero_add]) (by omega) (by omega) (fun _ _ => by omega) hs hnone
  rw [Nat.cast_zero] at hout₂
  rw [← hr₂] at hright ⊢
  have hright₂ : Right flags size buckets s₂.arg.2 := by
    rw [harg₂]
    exact hright
  rcases hout₂ with ⟨hgive₂, m, hm₂⟩ | ⟨hgive₂, hnone₂, hs₂, hout₂⟩
  · refine iff_of_true ⟨m, (buckets₂, s₂), fun fuel hfuel => ?_, hright₂⟩ fun hc => ?_
    · obtain ⟨m', rfl⟩ : ∃ m', fuel = m' + m := ⟨fuel - m, by omega⟩
      exact hm₂ m'
    · exact hc.2.1.2 hgive₂
  rcases hout₂ with ⟨hend₂, m, hm₂⟩ | ⟨hend₂, m, hm₂⟩
  swap
  · -- nothing ended the search
    have hm' : ∀ fuel, bucketLoop flags (logged cb) nb size i (fuel + m) 0 i buckets' s =
        bucketLoop flags (logged cb) nb size i fuel i i buckets₂ s₂ := by
      intro fuel
      rw [hm₂, if_neg fun h => by omega]
    rw [LoopRight.shift hm']
    refine iff_of_true (loopRight_of_ge le_rfl hright₂) fun hc => ?_
    have hend := hc.2.1.1
    rw [hend₂] at hend
    cases hend
  by_cases hback : (i : ℤ) = nb - 1
  swap
  · -- told to stop, and the limit is not taken for the last bucket
    have hw : wrapInt ((i : ℤ) + 1) = i + 1 := by
      refine wrapInt_of_inInt ?_
      unfold InInt intMin intMax at *
      omega
    have hm' : ∀ fuel, bucketLoop flags (logged cb) nb size i (fuel + m) 0 i buckets' s =
        bucketLoop flags (logged cb) nb size i fuel (i + 1) i buckets₂ s₂ := by
      intro fuel
      rw [hm₂, if_neg fun h => hback h.1, hw]
    rw [LoopRight.shift hm']
    exact iff_of_true (loopRight_of_ge (by omega) hright₂) fun hc => hback hc.1
  -- the second part begins again
  have hm' : ∀ fuel, bucketLoop flags (logged cb) nb size i (fuel + m) 0 i buckets' s =
      bucketLoop flags (logged cb) nb size i fuel 0 i buckets₂ s₂ := by
    intro fuel
    rw [hm₂, if_pos ⟨hback, hpc⟩]
  rw [LoopRight.shift hm']
  obtain ⟨buckets₃, s₃, r₃, hr₃, -, -, harg₃, hout₃⟩ :=
    @bucketLoop_logged α κ γ _ flags data size buckets₂ nb i i s₂ cb hm i 0
      (by rw [Nat.cast_zero, zero_add]) (by omega) (by omega) (fun _ _ => by omega) hs₂ hnone₂
  rw [Nat.cast_zero] at hout₃
  rw [hleft₂] at hr₃
  by_cases hleft : r₂.left = []
  · -- and finds nothing left
    rw [hleft] at hr₃
    have hasked : r₃.asked = [] := by rw [hr₃]; rfl
    have hend₃ : r₃.ended = false := by rw [hr₃]; rfl
    have hright₃ : Right flags size buckets s₃.arg.2 := by
      rw [harg₃, hasked, List.append_nil]
      exact hright₂
    refine iff_of_true ?_ fun hc => hc.2.2 hleft
    rcases hout₃ with ⟨⟨-, x, hx, -⟩, -⟩ | ⟨-, -, -, ⟨hend, -⟩ | ⟨-, k₃, hk₃⟩⟩
    · rw [hasked] at hx
      cases hx
    · rw [hend₃] at hend
      cases hend
    · have hk' : ∀ fuel, bucketLoop flags (logged cb) nb size i (fuel + k₃) 0 i buckets₂ s₂ =
          bucketLoop flags (logged cb) nb size i fuel i i buckets₃ s₃ := by
        intro fuel
        rw [hk₃, if_neg fun h => by omega]
      rw [LoopRight.shift hk']
      exact loopRight_of_ge le_rfl hright₃
  · -- and asks again
    refine iff_of_false ?_ (not_not_intro ⟨hback, ⟨hend₂, hgive₂⟩, hleft⟩)
    rintro ⟨N, r, hr, hright⟩
    have hext : s₃.arg.2 <+: r.2.arg.2 := by
      rcases hout₃ with ⟨-, k₃, hk₃⟩ | ⟨-, -, hs₃, ⟨-, k₃, hk₃⟩ | ⟨-, k₃, hk₃⟩⟩
      · obtain rfl := Option.some.inj ((hk₃ N).symm.trans (hr (N + k₃) (by omega)))
        exact List.prefix_rfl
      all_goals
        have h := (hk₃ N).symm.trans (hr (N + k₃) (by omega))
        split at h
        all_goals exact bucketLoop_extends hm hs₃.known h
    rw [harg₃] at hext
    obtain ⟨l, x, hlast, hx⟩ := (scan_ended (hr₂ ▸ hend₂)).1
    rw [← hr₂] at hlast
    have hquiet : Quiet (question flags cb data) r.2.arg.2 := hright.2
    have heq := hquiet.eq_of_prefix ((List.prefix_append _ _).trans hext)
      ⟨s.arg.2 ++ l, x, by rw [harg₂, hlast, List.append_assoc], hx⟩
    rw [heq] at hext
    have hlen := hext.length_le
    have hne : r₃.asked ≠ [] := by
      rw [hr₃]
      exact asked_ne_nil hleft
    have hpos := List.length_pos_iff.2 hne
    simp only [List.length_append] at hlen
    omega

/-- **The loop is right exactly when** neither happens. -/
theorem loopRight_iff (cb : Callback α κ γ)
    (hm : flags.objNodata = false → flags.objMultiple = false) (hstart : 0 ≤ start)
    (hsize : start < last → last ≤ size) (hmax : last ≤ intMax)
    (hwrap : flags.objPointer = true → flags.objContinue = true → last = nb)
    (hs : Sound flags data size buckets s) (hnone : s.ret = none) (hlog : s.arg.2 = []) :
    (LoopRight flags size buckets fun fuel =>
        bucketLoop flags (logged cb) nb size start fuel start last buckets s) ↔
      ¬ Collides flags cb data buckets nb s.arg.1 start last ∧
        ¬ PassesIntMax flags cb data buckets s.arg.1 start last := by
  by_cases hlt : start < last
  swap
  · -- there is nothing to look through
    have hempty : linked buckets start.toNat (last - start).toNat = [] := by
      rw [show (last - start).toNat = 0 by omega, linked_zero]
    have hright : Right flags size buckets s.arg.2 := by
      rw [hlog]
      exact ⟨Multiset.zero_le _, Quiet.nil (q := question flags cb data)⟩
    refine iff_of_true (loopRight_of_ge (by omega) hright) ⟨fun hc => ?_, fun hp => ?_⟩
    · have := hwrap hc.1 hc.2.1
      have := hc.2.2.1
      omega
    · have hend := hp.2.1
      rw [firstPart, hempty] at hend
      cases hend
  obtain ⟨i, rfl⟩ : ∃ i : ℕ, start = i := ⟨start.toNat, by omega⟩
  obtain ⟨n, hn⟩ : ∃ n : ℕ, last = i + n := ⟨(last - i).toNat, by omega⟩
  have hin : i + n ≤ size := by
    have := hsize hlt
    omega
  have hr₁def : firstPart flags cb data buckets s.arg.1 i last =
      scan (question flags cb data) s.arg.1 (linked buckets i n) := by
    rw [firstPart, Int.toNat_natCast, show (last - i).toNat = n by omega]
  obtain ⟨buckets₁, s₁, r₁, hr₁, hleft₁, hsame₁, harg₁, hout₁⟩ :=
    bucketLoop_logged nb (i : ℤ) cb hm hn (hsize hlt) hmax (fun hp hc => (hwrap hp hc).le) hs hnone
  rw [hlog, List.nil_append] at harg₁
  have hpre₁ : r₁.asked.map Prod.fst <+: linked buckets i n := by
    rw [hr₁]
    exact asked_prefix
  have hquiet₁ : Quiet (question flags cb data) r₁.asked := by
    rw [hr₁]
    exact scan_quiet
  have hright₁ : Right flags size buckets s₁.arg.2 := by
    have hnil : ([] : List (α × BitVec 32)).map Prod.fst <+: linked buckets 0 i := List.nil_prefix
    have hparts := right_of_parts hin hpre₁ hnil (by rw [List.append_nil]; exact hquiet₁)
    rw [List.append_nil] at hparts
    rw [harg₁]
    exact hparts
  rw [← hr₁] at hr₁def
  rcases hout₁ with ⟨hgive₁, k, hk⟩ | ⟨hgive₁, hnone₁, hs₁, hout₁⟩
  · -- the object to return is found in the first part
    refine iff_of_true ⟨k, (buckets₁, s₁), fun fuel hfuel => ?_, hright₁⟩
      ⟨fun hc => ?_, fun hp => ?_⟩
    · obtain ⟨m, rfl⟩ : ∃ m, fuel = m + k := ⟨fuel - k, by omega⟩
      exact hk m
    · have hgo := hc.2.2.2.1
      rw [hr₁def, hr₁] at hgo
      exact not_gives_of_goes hm (scan_goes hgo).1 (hr₁ ▸ hgive₁)
    · have hno := hp.2.2
      rw [hr₁def] at hno
      exact hno hgive₁
  rcases hout₁ with ⟨hend₁, k, hk⟩ | ⟨hend₁, k, hk⟩
  · -- told to stop in the first part
    have hnw : ¬ (last = nb - 1 ∧ flags.objPointer = true ∧ flags.objContinue = true) := by
      intro h
      have := hwrap h.2.1 h.2.2
      omega
    have hk' : ∀ fuel, bucketLoop flags (logged cb) nb size i (fuel + k) i last buckets s =
        bucketLoop flags (logged cb) nb size i fuel (wrapInt (last + 1)) last buckets₁ s₁ := by
      intro fuel
      rw [hk, if_neg hnw]
    rw [LoopRight.shift hk']
    by_cases hM : last = intMax
    · refine iff_of_false (not_loopRight_of_intMax hM) fun h => h.2 ⟨hM, ?_⟩
      rw [hr₁def]
      exact ⟨hend₁, hgive₁⟩
    · have hw : wrapInt (last + 1) = last + 1 := by
        refine wrapInt_of_inInt ?_
        unfold InInt intMin intMax at *
        omega
      rw [hw]
      refine iff_of_true (loopRight_of_ge (by omega) hright₁) ⟨fun hc => ?_, fun hp => hM hp.1⟩
      have hgo := hc.2.2.2.1
      rw [hr₁def, hend₁] at hgo
      cases hgo
  have hnp : ¬ PassesIntMax flags cb data buckets s.arg.1 i last := by
    rintro ⟨-, hend, -⟩
    rw [hr₁def, hend₁] at hend
    cases hend
  rw [and_iff_left hnp]
  by_cases hpc : flags.objPointer = true ∧ flags.objContinue = true
  swap
  · -- there is no second part
    have hk' : ∀ fuel, bucketLoop flags (logged cb) nb size i (fuel + k) i last buckets s =
        bucketLoop flags (logged cb) nb size i fuel last last buckets₁ s₁ := by
      intro fuel
      rw [hk, if_neg fun h => hpc h.2.2]
    rw [LoopRight.shift hk']
    exact iff_of_true (loopRight_of_ge le_rfl hright₁) fun hc => hpc ⟨hc.1, hc.2.1⟩
  have hnb := hwrap hpc.1 hpc.2
  have hk' : ∀ fuel, bucketLoop flags (logged cb) nb size i (fuel + k) i last buckets s =
      bucketLoop flags (logged cb) nb size i fuel 0 i buckets₁ s₁ := by
    intro fuel
    rw [hk, if_pos ⟨by omega, hnb, hpc⟩]
  rw [LoopRight.shift hk']
  -- the second part
  have hsecond : linked buckets₁ 0 i = linked buckets 0 i :=
    linked_congr fun j _ hj => hsame₁ j (.inl (by omega))
  have hr₂def : secondPart flags cb data buckets s.arg.1 i last =
      scan (question flags cb data) s₁.arg.1 (linked buckets₁ 0 i) := by
    rw [secondPart, hr₁def, Int.toNat_natCast, hsecond, harg₁]
  have hright₂ : Right flags size buckets
      (s₁.arg.2 ++ (secondPart flags cb data buckets s.arg.1 i last).asked) := by
    rw [hr₂def, hsecond, harg₁]
    refine right_of_parts hin hpre₁ asked_prefix
      (Quiet.append (q := question flags cb data) ?_ scan_quiet)
    rw [hr₁] at hend₁ ⊢
    exact (scan_goes hend₁).1
  rw [secondRight_iff cb hm (by omega) (by omega) (by omega) hpc hs₁ hnone₁ (hr₂def ▸ hright₂),
    ← hr₂def]
  unfold Collides
  rw [hr₁def, hend₁]
  tauto

variable {n hash : BitVec 32}

/-- The bounds of a search. -/
theorem searchRange_bound {i : ℤ}
    (h : searchRange n.toInt flags hash = some (start, i, last)) :
    start = i ∧ 0 ≤ start ∧ last ≤ intMax ∧ (start < last → last ≤ n.toNat) ∧
      (flags.objPointer = true → flags.objContinue = true → last = n.toInt) := by
  have hn := toNat_of_toInt n
  have hnr := toInt_inInt n
  have hle : n.toInt ≤ n.toNat := by
    by_cases h0 : 0 ≤ n.toInt
    · exact (hn.1 h0).ge
    · omega
  by_cases hp : flags.objPointer = true
  swap
  · -- all buckets
    have hall : searchRange n.toInt flags hash = some (0, 0, n.toInt) := by
      simp [searchRange, hp]
    rw [hall, Option.some.injEq, Prod.mk.injEq, Prod.mk.injEq] at h
    obtain ⟨hs, hi, hl⟩ := h
    rw [← hs, ← hi, ← hl]
    exact ⟨rfl, le_rfl, hnr.2, fun _ => hle, fun _ _ => rfl⟩
  have h0 : n.toInt ≠ 0 := by
    intro h0
    simp [searchRange, hp, cRem, h0] at h
  by_cases hh : 0 ≤ hash.toInt
  · have hnonneg := Int.emod_nonneg hash.toInt h0
    have hlt := Int.emod_lt_abs hash.toInt h0
    have hnat : |n.toInt| ≤ n.toNat := by
      rcases le_or_gt 0 n.toInt with hpos | hneg
      · rw [abs_of_nonneg hpos]
        exact hle
      · rw [abs_of_neg hneg]
        have h2 := hn.2 hneg
        have h3 := hnr.1
        unfold intMin at h3
        omega
    have hwrap : wrapInt (hash.toInt % n.toInt + 1) ≤ hash.toInt % n.toInt + 1 := by
      unfold wrapInt
      omega
    rw [searchRange_of_nonneg hp h0 hh, Option.some.injEq, Prod.mk.injEq, Prod.mk.injEq] at h
    obtain ⟨hs, hi, hl⟩ := h
    rw [← hs, ← hi, ← hl]
    refine ⟨rfl, hnonneg, ?_, fun _ => ?_, fun _ hc => if_pos hc⟩
    · split
      · exact hnr.2
      · exact (wrapInt_inInt _).2
    · split
      · exact hle
      · omega
  · have hneg : hash.toInt < 0 := not_le.1 hh
    have htrap : ¬ (hash.toInt = intMin ∧ n.toInt = -1) := by
      intro htrap
      simp [searchRange, hp, cRem, htrap] at h
    have hone : (1 : ℤ) ≤ n.toNat := by
      rcases lt_or_gt_of_ne h0 with hneg' | hpos
      · have := hn.2 hneg'
        omega
      · have := hn.1 hpos.le
        omega
    rw [searchRange_of_neg hp h0 hneg htrap] at h
    split at h
    all_goals
      rw [Option.some.injEq, Prod.mk.injEq, Prod.mk.injEq] at h
      obtain ⟨hs, hi, hl⟩ := h
      rw [← hs, ← hi, ← hl]
    · refine ⟨rfl, le_rfl, ?_, fun _ => ?_, fun _ hc => if_pos hc⟩
      · split
        · exact hnr.2
        · decide
      · split
        · exact hle
        · exact hone
    · exact ⟨rfl, le_rfl, hnr.2, fun _ => hle, fun _ _ => rfl⟩

/-- **A container in use**: made for `n` buckets, its counters those of
the references there are, with room for one more. -/
structure InUse (n : BitVec 32) (data : α → κ) (flags : SearchFlags) (mem : Memory α κ)
    (c : Ao2Container α) : Prop where
  nBuckets : c.nBuckets = n.toInt
  size : c.size = n.toNat
  counters : ∃ held links, Accounts mem data (held + links) ∧ c.elements = links.card ∧
    (links.card : ℤ) ≤ intMax ∧ total c.size c.buckets = links ∧ Room flags held links

/-- What the call makes of the loop. -/
theorem callsRight_iff_loop {mem : Memory α κ} {c : Ao2Container α} {arg : γ}
    (h : ∀ fuel, ao2Callback fuel mem c flags hash (logged cb) (arg, []) =
      (f fuel).bind fun r => some (r.2.mem, { c with
        buckets := r.1, elements := r.2.elements, version := r.2.version }, r.2.arg, r.2.ret)) :
    CallsRight mem c flags hash cb arg ↔ LoopRight flags c.size c.buckets f := by
  constructor
  · rintro ⟨N, mem', c', arg', ret, hr, hright⟩
    have hloop : ∀ fuel, N ≤ fuel →
        f fuel = some (c'.buckets, ⟨mem', c'.elements, c'.version, arg', ret⟩) := by
      intro fuel hfuel
      have hsome := hr fuel hfuel
      rw [h] at hsome
      obtain ⟨⟨b, t⟩, hf, hsome⟩ := Option.bind_eq_some_iff.1 hsome
      cases hsome
      exact hf
    exact ⟨N, _, hloop, hright⟩
  · rintro ⟨N, ⟨b, t⟩, hr, hright⟩
    refine ⟨N, t.mem, { c with buckets := b, elements := t.elements, version := t.version },
      t.arg, t.ret, fun fuel hfuel => ?_, hright⟩
    rw [h, hr fuel hfuel]
    rfl

/-- **When `__ao2_callback` is right.** It gives up at once, or it has a
bucket to begin with, and the two uses of its limit do not collide. -/
theorem callsRight_iff {mem : Memory α κ} {c : Ao2Container α} (hc : InUse n data flags mem c)
    (cb : Callback α κ γ) (arg : γ) :
    CallsRight mem c flags hash cb arg ↔
      (flags.objMultiple = true ∧ flags.objNodata = false) ∨
      ∃ start i last, searchRange c.nBuckets flags hash = some (start, i, last) ∧
        ¬ Collides flags cb data c.buckets c.nBuckets arg start last ∧
        ¬ PassesIntMax flags cb data c.buckets arg start last := by
  by_cases hmult : flags.objMultiple = true ∧ flags.objNodata = false
  · refine iff_of_true ⟨0, mem, c, (arg, []), none, fun fuel _ => ?_, Multiset.zero_le _,
      Quiet.nil (q := question flags cb data)⟩ (.inl hmult)
    rw [ao2Callback, if_pos hmult]
  rw [or_iff_right hmult]
  have hm : flags.objNodata = false → flags.objMultiple = false := by
    intro hn
    by_contra hne
    exact hmult ⟨by simpa using hne, hn⟩
  cases hrange : searchRange c.nBuckets flags hash with
  | none =>
    refine iff_of_false ?_ (by simp)
    rintro ⟨N, mem', c', arg', ret, hr, -⟩
    have hnone := hr N le_rfl
    rw [ao2Callback, if_neg hmult, hrange] at hnone
    cases hnone
  | some range =>
    obtain ⟨start, i, last⟩ := range
    obtain ⟨hstart, hpos, hmax, hsize, hwrap⟩ := searchRange_bound (hc.nBuckets ▸ hrange)
    subst hstart
    obtain ⟨held, links, hacc, helements, hcard, htotal, hroom⟩ := hc.counters
    have hsound : Sound flags data c.size c.buckets
        (⟨mem, c.elements, c.version, (arg, []), none⟩ :
          Search α κ (γ × List (α × BitVec 32))) :=
      ⟨held, links, ⟨hacc, helements, hcard⟩, htotal, hroom⟩
    have hwrap' : flags.objPointer = true → flags.objContinue = true → last = c.nBuckets :=
      fun hp hc' => (hwrap hp hc').trans hc.nBuckets.symm
    have hloop := loopRight_iff cb hm hpos (fun h => by rw [hc.size]; exact hsize h) hmax hwrap'
      hsound rfl rfl
    have hcall : ∀ fuel, ao2Callback fuel mem c flags hash (logged cb) (arg, []) =
        (bucketLoop flags (logged cb) c.nBuckets c.size start fuel start last c.buckets
          ⟨mem, c.elements, c.version, (arg, []), none⟩).bind fun r =>
            some (r.2.mem, { c with
              buckets := r.1, elements := r.2.elements, version := r.2.version },
              r.2.arg, r.2.ret) := by
      intro fuel
      rw [ao2Callback, if_neg hmult, hrange]
      rfl
    rw [callsRight_iff_loop hcall, hloop]
    constructor
    · intro h
      exact ⟨start, start, last, rfl, h⟩
    · rintro ⟨start', i', last', hsame, h⟩
      rw [Option.some.injEq, Prod.mk.injEq, Prod.mk.injEq] at hsame
      obtain ⟨rfl, -, rfl⟩ := hsame
      exact h

/-- A container of two buckets with an object in each. -/
def pair : Ao2Container ℕ where
  nBuckets := 2
  elements := 2
  version := 3
  size := 2
  buckets j := if j = 0 then [⟨1, 0⟩] else if j = 1 then [⟨2, 1⟩] else []

/-- The memory of the two objects: each holds its own number. -/
def pairMemory : Memory ℕ ℕ := fun a => if a < 2 then some ⟨1, a⟩ else none

/-- `OBJ_NODATA | OBJ_POINTER | OBJ_CONTINUE` -/
def askOn : SearchFlags := ⟨false, true, false, true, true⟩

/-- The object 0 says stop. -/
def stopAtZero : Callback ℕ ℕ Unit := fun g a _ => (if a = 0 then cmpStop else 0, g)

theorem inUse_pair : InUse 2 id askOn pairMemory pair := by
  have hcount : ∀ a : ℕ, ((({0, 1} : Multiset ℕ)).count a : ℤ) = if a < 2 then 1 else 0 := by
    intro a
    rcases Nat.lt_or_ge a 2 with ha | ha
    · rw [if_pos ha]
      obtain rfl | rfl : a = 0 ∨ a = 1 := by omega
      · decide
      · decide
    · rw [if_neg (by omega), Multiset.count_eq_zero_of_notMem]
      · rfl
      · simp
        omega
  refine ⟨rfl, rfl, 0, {0, 1}, ⟨fun a ha => ?_, fun a ha => ?_, fun a => ?_⟩, rfl, by decide, rfl,
    fun hn => by cases hn⟩
  · have ha' : a < 2 := by
      simp at ha
      omega
    rw [zero_add, hcount, if_pos ha', pairMemory, if_pos ha']
    rfl
  · rw [pairMemory, if_neg]
    intro ha'
    refine ha ?_
    simp
    omega
  · rw [zero_add, hcount]
    split
    · decide
    · decide

/-- A search from bucket 0: it asks object 0, is told to stop, and does. -/
theorem callsRight_iff_zero :
    CallsRight pairMemory pair askOn 0 stopAtZero () ∧
      ((askOn.objMultiple = true ∧ askOn.objNodata = false) ∨
      ∃ start i last, searchRange pair.nBuckets askOn 0 = some (start, i, last) ∧
        ¬ Collides askOn stopAtZero id pair.buckets pair.nBuckets () start last ∧
        ¬ PassesIntMax askOn stopAtZero id pair.buckets () start last) := by
  have hiff : CallsRight pairMemory pair askOn 0 stopAtZero () ↔ _ :=
    callsRight_iff inUse_pair stopAtZero ()
  have hright : (askOn.objMultiple = true ∧ askOn.objNodata = false) ∨
      ∃ start i last, searchRange pair.nBuckets askOn 0 = some (start, i, last) ∧
        ¬ Collides askOn stopAtZero id pair.buckets pair.nBuckets () start last ∧
        ¬ PassesIntMax askOn stopAtZero id pair.buckets () start last :=
    .inr ⟨0, 0, 2, rfl, fun hc => absurd hc.2.2.1 (by decide), fun hp => absurd hp.1 (by decide)⟩
  exact ⟨hiff.2 hright, hright⟩

/-- **A stop that is not heeded.** From bucket 1 the search comes round to
bucket 0, is told to stop there, and begins with bucket 0 again, for
ever. -/
theorem not_callsRight : ¬ CallsRight pairMemory pair askOn 1 stopAtZero () := by
  have hround : ∀ fuel e v log, bucketLoop askOn (logged stopAtZero) 2 2 1 fuel 0 1 pair.buckets
      (⟨pairMemory, e, v, ((), log), none⟩ : Search ℕ ℕ (Unit × List (ℕ × BitVec 32))) = none := by
    intro fuel
    induction fuel with
    | zero => exact fun _ _ _ => rfl
    | succ fuel ih =>
      intro e v log
      have htrav : traverse askOn (logged stopAtZero) (pair.buckets 0)
          (⟨pairMemory, e, v, ((), log), none⟩ : Search ℕ ℕ (Unit × List (ℕ × BitVec 32))) =
            some (pair.buckets 0, ⟨pairMemory, e, v, ((), log ++ [(0, cmpStop)]), none⟩, true) := by
        have hbucket : pair.buckets 0 = [⟨1, 0⟩] := rfl
        have hobj : pairMemory 0 = some ⟨1, 0⟩ := rfl
        have hstop : (cmpMatch ||| cmpStop) &&& cmpStop = cmpStop := rfl
        rw [hbucket, traverse]
        simp only [hobj, Option.bind_eq_bind, Option.bind_some, logged, stopAtZero, if_true, hstop]
        rw [if_neg (by decide)]
      rw [bucketLoop, if_pos (by decide), if_pos (by decide)]
      simp only [Int.toNat_zero, htrav, Option.bind_eq_bind, Option.bind_some,
        Function.update_eq_self]
      exact ih e v _
  rintro ⟨N, mem', c', arg', ret, hr, -⟩
  have hsome := hr (N + 1) (by omega)
  have hnone : ao2Callback (N + 1) pairMemory pair askOn 1 (logged stopAtZero) ((), []) = none := by
    have hfirst : bucketLoop askOn (logged stopAtZero) 2 2 1 (N + 1) 1 2 pair.buckets
        (⟨pairMemory, 2, 3, ((), []), none⟩ : Search ℕ ℕ (Unit × List (ℕ × BitVec 32))) = none := by
      have htrav : traverse askOn (logged stopAtZero) (pair.buckets 1)
          (⟨pairMemory, 2, 3, ((), []), none⟩ : Search ℕ ℕ (Unit × List (ℕ × BitVec 32))) =
            some (pair.buckets 1, ⟨pairMemory, 2, 3, ((), [(1, 0)]), none⟩, false) := rfl
      rw [bucketLoop, if_pos (by decide), if_pos (by decide)]
      simp only [Int.toNat_one, htrav, Option.bind_eq_bind, Option.bind_some,
        Function.update_eq_self]
      exact hround N 2 3 _
    have hrange : searchRange pair.nBuckets askOn 1 = some (1, 1, 2) := rfl
    rw [ao2Callback, if_neg (by decide), hrange]
    simp only [Option.bind_eq_bind, Option.bind_some]
    exact congrArg (fun o => Option.bind o _) hfirst
  rw [hnone] at hsome
  cases hsome

end Ao2

end Trismedia
