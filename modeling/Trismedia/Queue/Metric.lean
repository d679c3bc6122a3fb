import Trismedia.Queue.Model
/-!
# Which member is rung

`calc_metric` and `find_best` of `apps/app_queue.c`. What `time` and
`tris_random` return is an argument. The result `none` is an `int` that
overflows; a `time_t` is as long as it has to be, and one that is stored in an
`int` is cut to it.
-/


namespace Trismedia

namespace Queue

namespace Metric

open CInt

/-! ## The code -/

/-- What is read of a `struct member`. -/
structure Rating where
  penalty : ℤ
  calls : ℤ
  lastcall : ℤ
  deriving DecidableEq

/-- What is read and written of a `struct call_queue` and a `struct queue_ent`. -/
structure Turn where
  strategy : Option Strategy
  rrpos : ℤ
  wrapped : Bool
  maxPenalty : ℤ
  minPenalty : ℤ
  linpos : ℤ
  linwrapped : Bool

/-- A `struct callattempt` and what `calc_metric` is told for it, with
`stillgoing` and `chan` as they are when it is looked at. -/
structure CallAttempt where
  member : Rating
  pos : ℤ
  now : ℤ
  random : ℤ
  stillgoing : Bool
  chan : Bool
  deriving DecidableEq

/-- With its `metric`. -/
structure Rated where
  attempt : CallAttempt
  metric : ℤ
  deriving DecidableEq

/-- An `int`. -/
def int (x : ℤ) : Option ℤ := if InInt x then some x else none

/-- What both the linear and the round robin strategy start with. -/
def fromPos (pos first : ℤ) : Option ℤ := int (if pos < first then 1000 + pos else pos)

/-- The penalty is put in front. -/
def addPenalty (metric penalty : ℤ) : Option ℤ :=
  (int (penalty * 1000000)).bind fun p => int (metric + p)

/-- **`calc_metric`**: the metric, or `none` where it returns -1, and what it
notes. -/
def calcMetric (t : Turn) (a : CallAttempt) : Option (Option ℤ × Turn) :=
  let mem := a.member
  if t.maxPenalty ≠ 0 ∧ mem.penalty > t.maxPenalty ∨
      t.minPenalty ≠ 0 ∧ mem.penalty < t.minPenalty then some (none, t)
  else
    match t.strategy with
    | some .ringall => (int (mem.penalty * 1000000)).map fun m => (some m, t)
    | some .linear =>
      let t' := if a.pos > t.linpos then { t with linwrapped := true } else t
      (fromPos a.pos t.linpos).bind fun m =>
        (addPenalty m mem.penalty).map fun m => (some m, t')
    | some .rrmemory =>
      let t' := if a.pos > t.rrpos then { t with wrapped := true } else t
      (fromPos a.pos t.rrpos).bind fun m =>
        (addPenalty m mem.penalty).map fun m => (some m, t')
    | some .random =>
      (addPenalty (wrapInt (a.random.tmod 1000)) mem.penalty).map fun m => (some m, t)
    | some .wrandom => ((int (1 + mem.penalty)).bind fun p => int (p * 1000)).bind fun p =>
        if p = 0 then none else some (some (wrapInt (a.random.tmod p)), t)
    | some .fewestcalls =>
      (int mem.calls).bind fun m => (addPenalty m mem.penalty).map fun m => (some m, t)
    | some .leastrecent =>
      let m := if mem.lastcall = 0 then 0 else wrapInt (1000000 - (a.now - mem.lastcall))
      (addPenalty m mem.penalty).map fun m => (some m, t)
    | none => some (some 0, t)

/-- The loop of `try_calling`, which puts each attempt in front of the list. -/
def rate : Turn → List CallAttempt → List Rated → Option (List Rated)
  | _, [], outgoing => some outgoing
  | t, a :: as, outgoing =>
    (calcMetric t a).bind fun r =>
      rate r.2 as (match r.1 with
        | some metric => ⟨a, metric⟩ :: outgoing
        | none => outgoing)

/-- Still going and not ringing. -/
def Waiting (a : CallAttempt) : Prop := a.stillgoing = true ∧ a.chan = false

instance (a : CallAttempt) : Decidable (Waiting a) := inferInstanceAs (Decidable (_ ∧ _))

/-- The loop of `find_best`. -/
def findBestFrom : Option Rated → List Rated → Option Rated
  | best, [] => best
  | best, cur :: outgoing =>
    findBestFrom (if Waiting cur.attempt ∧ best.all (fun b => cur.metric < b.metric) then some cur
      else best) outgoing

/-- **`find_best`** -/
def findBest (outgoing : List Rated) : Option Rated := findBestFrom none outgoing

/-! ## What the strategies promise -/

/-- Going round from `first`, the position `x` comes before `y`. -/
def Sooner (first x y : ℤ) : Prop := first ≤ x ∧ y < first ∨ (first ≤ x ↔ first ≤ y) ∧ x < y

/-- The strategy promises `a` before `b`. -/
def Ahead (t : Turn) (a b : CallAttempt) : Prop :=
  match t.strategy with
  | some .linear => Sooner t.linpos a.pos b.pos
  | some .rrmemory => Sooner t.rrpos a.pos b.pos
  | some .fewestcalls => a.member.calls < b.member.calls
  | some .leastrecent => b.member.lastcall ≠ 0 ∧
      (a.member.lastcall = 0 ∨ a.member.lastcall < b.member.lastcall)
  | _ => False

/-- The attempts that the penalties let in, in the order of the list. -/
def admitted (t : Turn) (attempts : List CallAttempt) : List CallAttempt :=
  (attempts.filter fun a => ¬ (t.maxPenalty ≠ 0 ∧ a.member.penalty > t.maxPenalty ∨
    t.minPenalty ≠ 0 ∧ a.member.penalty < t.minPenalty)).reverse

/-- **An attempt that is promised**: of those that wait the penalty is least, and
the strategy promises none of that penalty before it. -/
structure Promised (t : Turn) (l : List CallAttempt) (a : CallAttempt) : Prop where
  mem : a ∈ l
  waiting : Waiting a
  least : ∀ b ∈ l, Waiting b → a.member.penalty ≤ b.member.penalty
  first : ∀ b ∈ l, Waiting b → a.member.penalty = b.member.penalty → ¬ Ahead t b a

/-- **The best is found**: one that is promised, or none where none waits. -/
def FindsBest (t : Turn) (attempts : List CallAttempt) : Prop :=
  ∃ outgoing, rate t attempts [] = some outgoing ∧
    ((findBest outgoing = none ∧ ∀ b ∈ admitted t attempts, ¬ Waiting b) ∨
      ∃ best, findBest outgoing = some best ∧ Promised t (admitted t attempts) best.attempt)

/-! ## When it is -/

/-- What stands for the strategy beside the millions of the penalty: the position,
moved up by 1000 in front of the first; the calls; what is left of 1000000
seconds since the last call. -/
def slot (t : Turn) (a : CallAttempt) : ℤ :=
  match t.strategy with
  | some .linear => if a.pos < t.linpos then 1000 + a.pos else a.pos
  | some .rrmemory => if a.pos < t.rrpos then 1000 + a.pos else a.pos
  | some .fewestcalls => a.member.calls
  | some .leastrecent =>
    if a.member.lastcall = 0 then 0 else wrapInt (1000000 - (a.now - a.member.lastcall))
  | _ => 0

/-- The penalty in millions, the slot, and both together are values of `int`. -/
def Fits (t : Turn) (a : CallAttempt) : Prop :=
  InInt (a.member.penalty * 1000000) ∧ InInt (slot t a) ∧
    InInt (slot t a + a.member.penalty * 1000000)

/-- **The penalty keeps `a` before `b`**: the slot of `a` is greater by less than
a million for each point that its penalty is smaller by, or by just that and `a`
is before `b` in the list. -/
def Outranks (t : Turn) (l : List CallAttempt) (a b : CallAttempt) : Prop :=
  slot t a - slot t b < (b.member.penalty - a.member.penalty) * 1000000 ∨
    slot t a - slot t b = (b.member.penalty - a.member.penalty) * 1000000 ∧
      l.idxOf a < l.idxOf b

/-- **The slots are kept**: each attempt fits, and one that waits but is not
promised is outranked by one that is. -/
def Kept (t : Turn) (attempts : List CallAttempt) : Prop :=
  (∀ a ∈ admitted t attempts, Fits t a) ∧
    ∀ b ∈ admitted t attempts, Waiting b → ¬ Promised t (admitted t attempts) b →
      ∃ a, Promised t (admitted t attempts) a ∧ Outranks t (admitted t attempts) a b

/-- The strategies that give each attempt its place. -/
def ranked : List (Option Strategy) :=
  [some .ringall, some .linear, some .rrmemory, some .fewestcalls, some .leastrecent]

variable {t t' : Turn} {a b : CallAttempt} {attempts as l : List CallAttempt}
variable {outgoing : List Rated} {x y m : ℤ}

/-! ## The metric -/

theorem int_eq_some : int x = some y ↔ InInt x ∧ x = y := by
  unfold int
  by_cases h : InInt x
  · rw [if_pos h, Option.some_inj, and_iff_right h]
  · rw [if_neg h]
    exact ⟨fun heq => absurd heq (Option.some_ne_none y).symm, fun heq => absurd heq.1 h⟩

theorem addPenalty_eq_some {p : ℤ} :
    addPenalty x p = some m ↔ InInt (p * 1000000) ∧ InInt (x + p * 1000000) ∧
      x + p * 1000000 = m := by
  unfold addPenalty
  rw [Option.bind_eq_some_iff]
  constructor
  · rintro ⟨y, hy, hm⟩
    obtain ⟨hp, rfl⟩ := int_eq_some.1 hy
    exact ⟨hp, int_eq_some.1 hm⟩
  · rintro ⟨hp, hm⟩
    exact ⟨_, int_eq_some.2 ⟨hp, rfl⟩, int_eq_some.2 hm⟩

/-- What is read stays. -/
def Turn.Same (t t' : Turn) : Prop :=
  t'.strategy = t.strategy ∧ t'.rrpos = t.rrpos ∧ t'.maxPenalty = t.maxPenalty ∧
    t'.minPenalty = t.minPenalty ∧ t'.linpos = t.linpos

/-- The penalties keep an attempt out. -/
def Excluded (t : Turn) (a : CallAttempt) : Prop :=
  t.maxPenalty ≠ 0 ∧ a.member.penalty > t.maxPenalty ∨
    t.minPenalty ≠ 0 ∧ a.member.penalty < t.minPenalty

theorem calcMetric_excluded (h : Excluded t a) : calcMetric t a = some (none, t) := by
  unfold calcMetric
  exact if_pos h

theorem int_of (h : InInt x) : int x = some x := if_pos h

theorem int_none (h : ¬ InInt x) : int x = none := if_neg h

theorem Turn.Same.refl (t : Turn) : t.Same t := ⟨rfl, rfl, rfl, rfl, rfl⟩

/-- A metric of a slot and the millions of a penalty: what is returned for `r`. -/
def Puts (t : Turn) (s p : ℤ) (r : Option (Option ℤ × Turn)) : Prop :=
  (InInt (p * 1000000) ∧ InInt s ∧ InInt (s + p * 1000000) →
    ∃ t', t.Same t' ∧ r = some (some (s + p * 1000000), t')) ∧
  (¬ (InInt (p * 1000000) ∧ InInt s ∧ InInt (s + p * 1000000)) → r = none)

theorem puts_addPenalty {s : ℤ} (p : ℤ) (hs : InInt s) (hsame : t.Same t') :
    Puts t s p ((addPenalty s p).map fun m => (some m, t')) := by
  constructor
  · rintro ⟨hp, -, hsum⟩
    exact ⟨t', hsame, by rw [addPenalty_eq_some.2 ⟨hp, hsum, rfl⟩, Option.map_some]⟩
  · intro hnot
    rw [Option.map_eq_none_iff]
    rcases h : addPenalty s p with _ | m
    · exact rfl
    · obtain ⟨hp, hsum, -⟩ := addPenalty_eq_some.1 h
      exact absurd ⟨hp, hs, hsum⟩ hnot

theorem puts_int (s p : ℤ) (hsame : t.Same t') :
    Puts t s p ((int s).bind fun m => (addPenalty m p).map fun m => (some m, t')) := by
  by_cases hs : InInt s
  · rw [int_of hs, Option.bind_some]
    exact puts_addPenalty p hs hsame
  · rw [int_none hs, Option.bind_none]
    exact ⟨fun h => absurd h.2.1 hs, fun _ => rfl⟩

/-- **The metric is the slot behind the millions of the penalty**, if it fits. -/
theorem calcMetric_puts (hs : t.strategy ∈ ranked) (h : ¬ Excluded t a) :
    Puts t (slot t a) a.member.penalty (calcMetric t a) := by
  have hrule : t.strategy = some .ringall ∨ t.strategy = some .linear ∨
      t.strategy = some .rrmemory ∨ t.strategy = some .fewestcalls ∨
        t.strategy = some .leastrecent := by
    unfold ranked at hs
    rw [List.mem_cons, List.mem_cons, List.mem_cons, List.mem_cons, List.mem_singleton] at hs
    exact hs
  unfold Excluded at h
  unfold slot calcMetric
  dsimp only
  rw [if_neg h]
  rcases hrule with hrule | hrule | hrule | hrule | hrule
  · rw [hrule]
    constructor
    · rintro ⟨hp, -, -⟩
      refine ⟨t, Turn.Same.refl t, ?_⟩
      dsimp only
      rw [int_of hp, Option.map_some, zero_add]
    · intro hnot
      dsimp only at hnot ⊢
      rw [zero_add] at hnot
      rw [int_none fun hp => hnot ⟨hp, by decide, hp⟩, Option.map_none]
  · rw [hrule]
    dsimp only
    refine puts_int _ _ ?_
    split_ifs
    · exact ⟨hrule.symm, rfl, rfl, rfl, rfl⟩
    · exact Turn.Same.refl t
  · rw [hrule]
    dsimp only
    refine puts_int _ _ ?_
    split_ifs
    · exact ⟨hrule.symm, rfl, rfl, rfl, rfl⟩
    · exact Turn.Same.refl t
  · rw [hrule]
    exact puts_int _ _ (Turn.Same.refl t)
  · rw [hrule]
    refine puts_addPenalty _ ?_ (Turn.Same.refl t)
    dsimp only
    split_ifs
    · decide
    · exact wrapInt_inInt _

/-! ## The metrics of all -/

theorem Turn.Same.trans {t'' : Turn} (h : t.Same t') (h' : t'.Same t'') : t.Same t'' :=
  ⟨h'.1.trans h.1, h'.2.1.trans h.2.1, h'.2.2.1.trans h.2.2.1, h'.2.2.2.1.trans h.2.2.2.1,
    h'.2.2.2.2.trans h.2.2.2.2⟩

theorem Turn.Same.slot (h : t.Same t') (a : CallAttempt) : slot t' a = slot t a := by
  obtain ⟨hstrategy, hrr, -, -, hlin⟩ := h
  unfold Metric.slot
  rw [hstrategy, hrr, hlin]

theorem Turn.Same.excluded (h : t.Same t') (a : CallAttempt) : Excluded t' a ↔ Excluded t a := by
  obtain ⟨-, -, hmax, hmin, -⟩ := h
  unfold Excluded
  rw [hmax, hmin]

/-- An attempt with its metric. -/
def rated (t : Turn) (a : CallAttempt) : Rated := ⟨a, slot t a + a.member.penalty * 1000000⟩

instance (t : Turn) (a : CallAttempt) : Decidable (Excluded t a) :=
  inferInstanceAs (Decidable (_ ∨ _))

/-- **What the list becomes**: behind what is in it, if all fit. -/
theorem rate_spec (hs : t.strategy ∈ ranked) : ∀ (attempts : List CallAttempt) (t' : Turn) outgoing,
    t.Same t' →
    ((∀ a ∈ attempts, ¬ Excluded t a → Fits t a) →
      rate t' attempts outgoing = some ((attempts.filter fun a => ¬ Excluded t a).reverse.map
        (rated t) ++ outgoing)) ∧
    (¬ (∀ a ∈ attempts, ¬ Excluded t a → Fits t a) → rate t' attempts outgoing = none) := by
  intro attempts
  induction attempts with
  | nil =>
    intro t' outgoing hsame
    exact ⟨fun _ => rfl, fun h => absurd (fun a ha => absurd ha List.not_mem_nil) h⟩
  | cons a as ih =>
    intro t' outgoing hsame
    rw [List.forall_mem_cons]
    unfold rate
    by_cases hex : Excluded t a
    · have hcalc := calcMetric_excluded ((hsame.excluded a).2 hex)
      have hdrop : ¬ decide (¬ Excluded t a) = true := fun h => of_decide_eq_true h hex
      rw [hcalc, Option.bind_some, List.filter_cons, if_neg hdrop]
      obtain ⟨hall, hnot⟩ := ih t' outgoing hsame
      exact ⟨fun h => hall h.2, fun h => hnot fun has => h ⟨fun hne => absurd hex hne, has⟩⟩
    · have hs' : t'.strategy ∈ ranked := by
        rw [hsame.1]
        exact hs
      have hputs := calcMetric_puts hs' fun h => hex ((hsame.excluded a).1 h)
      rw [hsame.slot] at hputs
      obtain ⟨hfits, hover⟩ := hputs
      by_cases hfit : Fits t a
      · obtain ⟨t'', hsame', hcalc⟩ := hfits hfit
        rw [hcalc, Option.bind_some, List.filter_cons, if_pos (decide_eq_true hex),
          List.reverse_cons, List.map_append, List.append_assoc]
        obtain ⟨hall, hnot⟩ := ih t'' (rated t a :: outgoing) (hsame.trans hsame')
        exact ⟨fun h => hall h.2, fun h => hnot fun has => h ⟨fun _ => hfit, has⟩⟩
      · rw [hover hfit, Option.bind_none]
        exact ⟨fun h => absurd (h.1 hex) hfit, fun _ => rfl⟩

/-! ## The best -/

/-- **What has been found** in the attempts looked at. -/
def BestOf (seen : List Rated) : Option Rated → Prop
  | none => ∀ c ∈ seen, ¬ Waiting c.attempt
  | some b => b ∈ seen ∧ Waiting b.attempt ∧ ∀ c ∈ seen, Waiting c.attempt →
      b.metric < c.metric ∨ b.metric = c.metric ∧ (c = b ∨ seen.idxOf b < seen.idxOf c)

theorem findBestFrom_spec : ∀ (outgoing seen : List Rated) (best : Option Rated),
    BestOf seen best → BestOf (seen ++ outgoing) (findBestFrom best outgoing) := by
  intro outgoing
  induction outgoing with
  | nil =>
    intro seen best h
    rw [List.append_nil]
    exact h
  | cons cur outgoing ih =>
    intro seen best h
    rw [findBestFrom, ← List.singleton_append, ← List.append_assoc]
    refine ih (seen ++ [cur]) _ ?_
    have hcur : cur ∈ seen ++ [cur] := List.mem_append_right seen (List.mem_singleton_self cur)
    by_cases hbetter : Waiting cur.attempt ∧ best.all (fun b => cur.metric < b.metric) = true
    · rw [if_pos hbetter]
      refine ⟨hcur, hbetter.1, fun c hc hwait => ?_⟩
      rcases List.mem_append.1 hc with hc | hc
      · rcases best with _ | b
        · exact absurd hwait (h c hc)
        · have hlt : cur.metric < b.metric := of_decide_eq_true hbetter.2
          rcases h.2.2 c hc hwait with hless | ⟨heq, -⟩
          · exact Or.inl (lt_trans hlt hless)
          · exact Or.inl (heq ▸ hlt)
      · rw [List.mem_singleton.1 hc]
        exact Or.inr ⟨rfl, Or.inl rfl⟩
    · rw [if_neg hbetter]
      rcases best with _ | b
      · intro c hc hwait
        rcases List.mem_append.1 hc with hc | hc
        · exact h c hc hwait
        · rw [List.mem_singleton.1 hc] at hwait
          exact hbetter ⟨hwait, rfl⟩
      · obtain ⟨hb, hwaitb, hall⟩ := h
        refine ⟨List.mem_append_left _ hb, hwaitb, fun c hc hwait => ?_⟩
        rcases List.mem_append.1 hc with hc | hc
        · rcases hall c hc hwait with hless | ⟨heq, hsame | hbefore⟩
          · exact Or.inl hless
          · exact Or.inr ⟨heq, Or.inl hsame⟩
          · refine Or.inr ⟨heq, Or.inr ?_⟩
            rw [List.idxOf_append_of_mem hb, List.idxOf_append_of_mem hc]
            exact hbefore
        · by_cases hseen : c ∈ seen
          · rcases hall c hseen hwait with hless | ⟨heq, hsame | hbefore⟩
            · exact Or.inl hless
            · exact Or.inr ⟨heq, Or.inl hsame⟩
            · refine Or.inr ⟨heq, Or.inr ?_⟩
              rw [List.idxOf_append_of_mem hb, List.idxOf_append_of_mem hseen]
              exact hbefore
          rw [List.mem_singleton.1 hc] at hwait hseen ⊢
          have hle : b.metric ≤ cur.metric := by
            by_contra hgt
            exact hbetter ⟨hwait, decide_eq_true (not_le.1 hgt)⟩
          rcases lt_or_eq_of_le hle with hless | heq
          · exact Or.inl hless
          · refine Or.inr ⟨heq, Or.inr ?_⟩
            rw [List.idxOf_append_of_mem hb, List.idxOf_append_of_notMem hseen]
            exact Nat.lt_add_right _ (List.idxOf_lt_length_of_mem hb)

theorem findBest_spec (outgoing : List Rated) : BestOf outgoing (findBest outgoing) :=
  findBestFrom_spec outgoing [] none fun _ hc => absurd hc List.not_mem_nil

/-! ## What is found -/

theorem rate_all (hs : t.strategy ∈ ranked) (attempts : List CallAttempt) :
    ((∀ a ∈ admitted t attempts, Fits t a) →
      rate t attempts [] = some ((admitted t attempts).map (rated t))) ∧
    (¬ (∀ a ∈ admitted t attempts, Fits t a) → rate t attempts [] = none) := by
  have hiff : (∀ a ∈ admitted t attempts, Fits t a) ↔
      ∀ a ∈ attempts, ¬ Excluded t a → Fits t a := by
    unfold admitted
    constructor
    · intro h a ha hex
      exact h a (List.mem_reverse.2 (List.mem_filter.2 ⟨ha, decide_eq_true hex⟩))
    · intro h a ha
      obtain ⟨ha, hex⟩ := List.mem_filter.1 (List.mem_reverse.1 ha)
      exact h a ha (of_decide_eq_true hex)
  have hspec := rate_spec hs attempts t [] (Turn.Same.refl t)
  rw [List.append_nil] at hspec
  rw [hiff]
  exact hspec

/-- A metric is less by what the penalties differ. -/
theorem rated_lt_iff : (rated t a).metric < (rated t b).metric ↔
    slot t a - slot t b < (b.member.penalty - a.member.penalty) * 1000000 := by
  unfold rated
  dsimp only
  constructor
  · intro h
    omega
  · intro h
    omega

theorem rated_eq_iff : (rated t a).metric = (rated t b).metric ↔
    slot t a - slot t b = (b.member.penalty - a.member.penalty) * 1000000 := by
  unfold rated
  dsimp only
  constructor
  · intro h
    omega
  · intro h
    omega

theorem rated_injective : (rated t a = rated t b) ↔ a = b :=
  ⟨fun h => congrArg Rated.attempt h, fun h => congrArg (rated t) h⟩

theorem idxOf_rated : (l.map (rated t)).idxOf (rated t a) = l.idxOf a := by
  induction l with
  | nil => exact rfl
  | cons b l ih =>
    rw [List.map_cons]
    by_cases hab : b = a
    · rw [List.idxOf_cons_eq _ hab, List.idxOf_cons_eq _ (congrArg (rated t) hab)]
    · rw [List.idxOf_cons_ne _ hab, List.idxOf_cons_ne _ fun h => hab (rated_injective.1 h), ih]

/-- **What is found of a list that fits**: it outranks all that wait. -/
theorem findBest_rated (l : List CallAttempt) :
    (findBest (l.map (rated t)) = none ∧ ∀ b ∈ l, ¬ Waiting b) ∨
      ∃ a ∈ l, findBest (l.map (rated t)) = some (rated t a) ∧ Waiting a ∧
        ∀ b ∈ l, Waiting b → b = a ∨ Outranks t l a b := by
  have hbest := findBest_spec (l.map (rated t))
  rcases hfound : findBest (l.map (rated t)) with _ | r
  · rw [hfound] at hbest
    exact Or.inl ⟨rfl, fun b hb => hbest (rated t b) (List.mem_map_of_mem hb)⟩
  · rw [hfound] at hbest
    obtain ⟨hr, hwait, hall⟩ := hbest
    obtain ⟨a, ha, rfl⟩ := List.mem_map.1 hr
    refine Or.inr ⟨a, ha, rfl, hwait, fun b hb hwaitb => ?_⟩
    rcases hall (rated t b) (List.mem_map_of_mem hb) hwaitb with hless | ⟨heq, hsame | hbefore⟩
    · exact Or.inr (Or.inl (rated_lt_iff.1 hless))
    · exact Or.inl (rated_injective.1 hsame)
    · rw [idxOf_rated, idxOf_rated] at hbefore
      exact Or.inr (Or.inr ⟨rated_eq_iff.1 heq, hbefore⟩)

/-- Two do not outrank each other. -/
theorem Outranks.asymm (h : Outranks t l a b) (h' : Outranks t l b a) : False := by
  rcases h with h | ⟨h, hbefore⟩
  · rcases h' with h' | ⟨h', hbefore'⟩
    · omega
    · omega
  · rcases h' with h' | ⟨h', hbefore'⟩
    · omega
    · omega

/-- One who has not been called, and one whose call is twelve days ago. -/
def neverAndLongAgo : List CallAttempt :=
  [⟨⟨0, 3, 1000000000⟩, 0, 1001036800, 0, true, false⟩, ⟨⟨0, 0, 0⟩, 1, 1001036800, 0, true, false⟩]

/-- The strategy that prefers who has not been called. -/
def leastRecentTurn : Turn := ⟨some .leastrecent, 0, false, 0, 0, 0, false⟩

end Metric

end Queue

end Trismedia
