import Mathlib.Algebra.BigOperators.Group.Finset.Basic
import Mathlib.Algebra.Order.Group.Int
import Trismedia.Common.CString
import Trismedia.Common.Trace
/-!
# The events of the manager

Events are appended to one list, and each session has a pointer to the last one
it has passed, `main/manager.c`. An event counts these pointers, and the first
one of the list is freed when nobody has it and another one follows.

What a session does with an event interleaves with everything else, one access
at a time; `append_event`, `grab_last` and `purge_events` exclude each other by
the lock of the list. An event is named by its number, and memory that is freed
is not given out again: to read it is a `fault`. There is memory for events.
-/


namespace Trismedia

namespace Manager

/-! ## The code -/

/-- What is posted as an event. -/
structure Posted where
  category : BitVec 32
  eventdata : CString
  deriving DecidableEq

/-- `struct eventqent` -/
structure Eventqent extends Posted where
  usecount : ℤ
  eqNext : Option ℕ

/-- Where a session stands: outside the loops over new events, at `NEW_EVENT`,
with the event found, with it counted, after it was looked at, with the last
event no longer counted; and at its end. -/
inductive Phase where
  | idle
  | look
  | seen (eqe : ℕ)
  | held (eqe : ℕ)
  | offered (eqe : ℕ)
  | left (eqe : ℕ)
  | leaving
  deriving DecidableEq

/-- Of a `struct mansession_session` what the loops read, with the state of the
loop it is in: `ret` is whether the connection failed in it, `waits` whether it
is the one of `action_waitevent`. Further its history: the last event when it
was opened, and the events passed with whether they were sent. -/
structure Session where
  lastEv : Option ℕ
  phase : Phase
  readperm : BitVec 32
  sendEvents : BitVec 32
  authenticated : Bool
  ret : Bool
  waits : Bool
  opened : ℕ
  passed : List (Posted × Bool)

/-- `all_events` with the memory of its events, the event that `purge_events`
has found unused, and the sessions. `hist` is all that was ever appended. -/
structure State where
  mem : ℕ → Option Eventqent
  first : Option ℕ
  last : Option ℕ
  purging : Option ℕ
  sessions : ℕ → Option Session
  hist : List Posted
  fault : Bool

/-- An event is read: what is done with it, or a fault. -/
def State.deref (x : State) (p : Option ℕ) (k : ℕ → Eventqent → State) : State :=
  match p with
  | none => { x with fault := true }
  | some a =>
    match x.mem a with
    | none => { x with fault := true }
    | some e => k a e

def State.setUse (x : State) (a : ℕ) (e : Eventqent) (usecount : ℤ) : State :=
  { x with mem := Function.update x.mem a (some { e with usecount := usecount }) }

def State.put (x : State) (s : ℕ) (z : Option Session) : State :=
  { x with sessions := Function.update x.sessions s z }

/-- `append_event`, with `TRIS_LIST_INSERT_TAIL` -/
def State.appendEvent (x : State) (post : Posted) : State :=
  let a := x.hist.length
  let mem := Function.update x.mem a (some { post with usecount := 0, eqNext := none })
  match x.first, x.last with
  | some first, some last =>
    { x with
      mem := Function.update mem last ((mem last).map fun e => { e with eqNext := some a })
      first := some first
      last := some a
      hist := x.hist ++ [post] }
  | _, _ => { x with mem := mem, first := some a, last := some a, hist := x.hist ++ [post] }

/-- `session_do` up to its loop, with `grab_last`. -/
def State.openSession (x : State) (s : ℕ) : State :=
  let session : Session := {
    lastEv := x.last, phase := .idle, readperm := 0, sendEvents := -1, authenticated := false
    ret := false, waits := false, opened := x.last.getD 0, passed := [] }
  match x.last with
  | none => x.put s (some session)
  | some a => x.deref (some a) fun a e => (x.setUse a e (e.usecount + 1)).put s (some session)

/-- The event is one that the session is to have. -/
def Session.wants (z : Session) (e : Eventqent) : Bool :=
  (z.waits || (!z.ret && z.authenticated)) && z.readperm &&& e.category = e.category &&
    z.sendEvents &&& e.category = e.category

/-- An event is sent if it is wanted, which may fail. -/
def Session.offer (z : Session) (eqe : ℕ) (e : Eventqent) (ok : Bool) : Session :=
  { z with
    phase := .offered eqe
    ret := z.ret || (z.wants e && !ok)
    passed := z.passed ++ [(e.toPosted, z.wants e)] }

/-- What a session does. -/
inductive Act where
  | begin (waits : Bool)
  | look
  | ref
  | offer (ok : Bool)
  | unref
  | advance
  | permit (readperm sendEvents : BitVec 32) (authenticated : Bool)
  | close
  | gone

/-- One access of the loops of `process_events` and `action_waitevent`, and of
`free_session`. -/
def State.act (x : State) (s : ℕ) (z : Session) : Act → Phase → Option State
  | .begin waits, .idle => some (x.put s (some { z with phase := .look, ret := false, waits := waits }))
  | .look, .look =>
    some (x.deref z.lastEv fun _ e =>
      x.put s (some { z with phase := (e.eqNext.map Phase.seen).getD .idle }))
  | .ref, .seen eqe =>
    some (x.deref (some eqe) fun a e =>
      (x.setUse a e (e.usecount + 1)).put s (some { z with phase := .held eqe }))
  | .offer ok, .held eqe =>
    some (x.deref (some eqe) fun _ e => x.put s (some (z.offer eqe e ok)))
  | .unref, .offered eqe =>
    some (x.deref z.lastEv fun a e =>
      (x.setUse a e (e.usecount - 1)).put s (some { z with phase := .left eqe }))
  | .advance, .left _ =>
    some (x.deref z.lastEv fun _ e => x.put s (some { z with phase := .look, lastEv := e.eqNext }))
  | .permit readperm sendEvents authenticated, _ =>
    some (x.put s (some { z with
      readperm := readperm, sendEvents := sendEvents, authenticated := authenticated }))
  | .close, .idle =>
    some (x.deref z.lastEv fun a e =>
      (x.setUse a e (e.usecount - 1)).put s (some { z with phase := .leaving }))
  | .gone, .leaving => some (x.deref z.lastEv fun _ _ => x.put s none)
  | _, _ => none

/-- The test of the loop of `purge_events`. -/
def State.purgeTest (x : State) : Option State :=
  match x.first with
  | none => none
  | some a =>
    match x.mem a with
    | none => none
    | some e => if e.usecount = 0 ∧ e.eqNext.isSome then some { x with purging := some a } else none

/-- The body of that loop: the first event is removed and freed. -/
def State.purge (x : State) (a : ℕ) : State :=
  { x with
    mem := Function.update x.mem a none
    first := (x.mem a).bind Eventqent.eqNext
    last := if x.last = some a then none else x.last
    purging := none }

inductive Event where
  | append (post : Posted)
  | open (s : ℕ)
  | act (s : ℕ) (a : Act)
  | purgeTest
  | purge

/-- One event. The lock of the list is held from a test that succeeds to the end
of the body. -/
def step (x : State) (e : Event) : Option State :=
  if x.fault then none
  else match e with
    | .append post => if x.purging = none then some (x.appendEvent post) else none
    | .open s => if x.purging = none ∧ (x.sessions s).isNone then some (x.openSession s) else none
    | .act s a => (x.sessions s).bind fun z => x.act s z a z.phase
    | .purgeTest => if x.purging = none then x.purgeTest else none
    | .purge => x.purging.map x.purge

/-- The list with its first event, the placeholder. -/
def State.init (post : Posted) : State where
  mem := Function.update (fun _ => none) 0 (some { post with usecount := 0, eqNext := none })
  first := some 0
  last := some 0
  purging := none
  sessions := fun _ => none
  hist := [post]
  fault := false

end Manager

/-!
## Every session gets every event

The events in memory are those from the first of the list to the last one
appended, each with as many uses as there are pointers counted. A pointer is
counted while an event is looked at, so this event and all later ones stay; the
one time it is not is between the two halves of `unref_event`, which counts down
and then reads the next event. Where no purge comes between, nothing freed is
read, and a session passes all that was appended since it was opened, in order
and once.
-/

namespace Manager

/-! ## Pointers that are counted -/

/-- The event a session has found. -/
def Phase.eqe : Phase → Option ℕ
  | .seen a | .held a | .offered a | .left a => some a
  | _ => none

/-- The last event of the session is counted. -/
def Phase.counts : Phase → Bool
  | .left _ | .leaving => false
  | _ => true

/-- The event found is counted. -/
def Phase.holds : Phase → Bool
  | .held _ | .offered _ | .left _ => true
  | _ => false

/-- The event found has been passed. -/
def Phase.passes : Phase → Bool
  | .offered _ | .left _ => true
  | _ => false

/-- The pointers of a session that are counted. -/
def Session.own (z : Session) : List ℕ :=
  (if z.phase.counts then z.lastEv.toList else []) ++ if z.phase.holds then z.phase.eqe.toList else []

/-- The pointers to an event that the sessions in `f` have counted. -/
def uses (sessions : ℕ → Option Session) (f : Finset ℕ) (i : ℕ) : ℕ :=
  ∑ s ∈ f, ((sessions s).elim [] Session.own).count i

variable {sessions : ℕ → Option Session} {f : Finset ℕ} {s i : ℕ}

/-- One session changes what it counts. -/
theorem uses_update (sessions : ℕ → Option Session) (hs : s ∈ f) (z : Option Session) (i : ℕ) :
    uses (Function.update sessions s z) f i + ((sessions s).elim [] Session.own).count i =
      uses sessions f i + (z.elim [] Session.own).count i := by
  unfold uses
  rw [← Finset.add_sum_erase f _ hs, ← Finset.add_sum_erase f _ hs, Function.update_self]
  have hrest : ∑ r ∈ f.erase s, ((Function.update sessions s z r).elim [] Session.own).count i =
      ∑ r ∈ f.erase s, ((sessions r).elim [] Session.own).count i :=
    Finset.sum_congr rfl fun r hr => by rw [Function.update_of_ne (Finset.ne_of_mem_erase hr)]
  rw [hrest]
  omega

/-- A session that is not there counts nothing. -/
theorem uses_insert (h : sessions s = none) (i : ℕ) :
    uses sessions (insert s f) i = uses sessions f i := by
  unfold uses
  by_cases hs : s ∈ f
  · rw [Finset.insert_eq_of_mem hs]
  · rw [Finset.sum_insert hs, h, Option.elim_none, List.count_nil, Nat.zero_add]

theorem uses_eq_zero_iff : uses sessions f i = 0 ↔ ∀ s ∈ f, ∀ z, sessions s = some z → i ∉ z.own := by
  unfold uses
  rw [Finset.sum_eq_zero_iff]
  refine forall₂_congr fun s _ => ?_
  cases sessions s with
  | none => exact iff_of_true rfl fun z hz => absurd hz (Option.some_ne_none z).symm
  | some z =>
    rw [Option.elim_some, List.count_eq_zero]
    exact ⟨fun h z' hz => Option.some.inj hz ▸ h, fun h => h z rfl⟩

/-! ## The invariant -/

/-- The events in memory from the first one on, with the uses counted. -/
def memOf (hist : List Posted) (lo : ℕ) (use : ℕ → ℕ) (i : ℕ) : Option Eventqent :=
  if lo ≤ i then (hist[i]?).map fun post =>
    { post with usecount := use i, eqNext := if i + 1 < hist.length then some (i + 1) else none }
  else none

/-- A session at its last event `p`. -/
structure SessionOk (hist : List Posted) (lo p : ℕ) (z : Session) : Prop where
  lastEv : z.lastEv = some p
  lt : p < hist.length
  opened : z.opened ≤ p
  eqe : ∀ a, z.phase.eqe = some a → a = p + 1 ∧ p + 1 < hist.length
  live : ∀ i ∈ z.own, lo ≤ i
  passed : z.passed.map Prod.fst =
    (hist.drop (z.opened + 1)).take ((if z.phase.passes then p + 1 else p) - z.opened)

/-- **The state while nothing freed was read**, with the first event of the list
and the sessions that are counted. -/
structure Inv (lo : ℕ) (f : Finset ℕ) (x : State) : Prop where
  lt : lo < x.hist.length
  first : x.first = some lo
  last : x.last = some (x.hist.length - 1)
  mem : x.mem = memOf x.hist lo (uses x.sessions f)
  purging : ∀ a, x.purging = some a →
    a = lo ∧ lo + 1 < x.hist.length ∧ uses x.sessions f lo = 0
  sessions : ∀ s z, x.sessions s = some z → s ∈ f ∧ ∃ p, SessionOk x.hist lo p z

variable {hist : List Posted} {lo p a : ℕ} {use use' : ℕ → ℕ} {x y : State} {z z' : Session}
  {e : Eventqent}

theorem memOf_of_lt (h : i < lo) : memOf hist lo use i = none := if_neg (Nat.not_le.2 h)

theorem memOf_of_get {post : Posted} (h : lo ≤ i) (hi : hist[i]? = some post) :
    memOf hist lo use i = some { post with
      usecount := use i, eqNext := if i + 1 < hist.length then some (i + 1) else none } := by
  unfold memOf
  rw [if_pos h, hi, Option.map_some]

theorem memOf_eq_some (h : lo ≤ i) (hi : i < hist.length) :
    memOf hist lo use i = some { hist[i] with
      usecount := use i, eqNext := if i + 1 < hist.length then some (i + 1) else none } :=
  memOf_of_get h (List.getElem?_eq_getElem hi)

theorem lt_of_memOf (h : memOf hist lo use i = some e) : lo ≤ i ∧ i < hist.length := by
  unfold memOf at h
  by_cases hlo : lo ≤ i
  · rw [if_pos hlo] at h
    obtain ⟨post, hpost, -⟩ := Option.map_eq_some_iff.1 h
    exact ⟨hlo, (List.getElem?_eq_some_iff.1 hpost).1⟩
  · rw [if_neg hlo] at h
    exact absurd h (Option.some_ne_none e).symm

/-- The uses of one event are changed. -/
theorem memOf_update (h : memOf hist lo use a = some e) {k : ℤ} (ha : k = use' a)
    (hne : ∀ i, i ≠ a → use' i = use i) :
    Function.update (memOf hist lo use) a (some { e with usecount := k }) =
      memOf hist lo use' := by
  obtain ⟨hlo, hlt⟩ := lt_of_memOf h
  rw [memOf_eq_some hlo hlt] at h
  obtain rfl := Option.some.inj h
  funext i
  by_cases hi : i = a
  · subst hi
    rw [Function.update_self, memOf_eq_some hlo hlt, ha]
  · rw [Function.update_of_ne hi]
    unfold memOf
    rw [hne i hi]

theorem deref_some {q : Option ℕ} {k : ℕ → Eventqent → State} (hq : q = some a)
    (ha : x.mem a = some e) : x.deref q k = k a e := by
  subst hq
  unfold State.deref
  dsimp only
  rw [ha]

/-- What a session counts was appended. -/
theorem SessionOk.own_lt (h : SessionOk hist lo p z) (hi : i ∈ z.own) : i < hist.length := by
  unfold Session.own at hi
  rw [h.lastEv] at hi
  rcases List.mem_append.1 hi with hi | hi
  · split_ifs at hi
    · rw [Option.toList_some, List.mem_singleton] at hi
      exact hi ▸ h.lt
    · exact absurd hi List.not_mem_nil
  · split_ifs at hi
    · obtain ⟨heq, hlt⟩ := h.eqe i (Option.mem_toList.1 hi)
      exact heq ▸ hlt
    · exact absurd hi List.not_mem_nil

/-! ## One access of a session -/

/-- The state when a session of it has changed, and with it the uses. -/
theorem Inv.put (h : Inv lo f x) (hs : s ∈ f) {z' : Option Session}
    (hmem : y.mem = memOf x.hist lo (uses (Function.update x.sessions s z') f))
    (hy : y = { x with mem := y.mem, sessions := Function.update x.sessions s z' })
    (hlo : x.purging ≠ none → (z'.elim [] Session.own).count lo ≤
      ((x.sessions s).elim [] Session.own).count lo)
    (hok : ∀ z₁, z' = some z₁ → ∃ p, SessionOk x.hist lo p z₁) : Inv lo f y := by
  have huse := uses_update x.sessions hs z' lo
  rw [hy]
  refine ⟨h.lt, h.first, h.last, hmem, fun a ha => ?_, fun r z₁ hr => ?_⟩
  · obtain ⟨heq, hlt, hzero⟩ := h.purging a ha
    have hle := hlo fun hnone => Option.some_ne_none a (ha.symm.trans hnone)
    refine ⟨heq, hlt, ?_⟩
    show uses (Function.update x.sessions s z') f lo = 0
    omega
  · by_cases hrs : r = s
    · subst hrs
      have hr' : Function.update x.sessions r z' r = some z₁ := hr
      rw [Function.update_self] at hr'
      exact ⟨hs, hok z₁ hr'⟩
    · have hr' : Function.update x.sessions s z' r = some z₁ := hr
      rw [Function.update_of_ne hrs] at hr'
      exact h.sessions r z₁ hr'

/-- The session counts the same pointers. -/
theorem Inv.put_same (h : Inv lo f x) (hs : s ∈ f) (hz : x.sessions s = some z)
    (hown : z'.own = z.own) (hok : SessionOk x.hist lo p z') : Inv lo f (x.put s (some z')) := by
  refine h.put hs ?_ rfl (fun _ => ?_) fun z₁ hz₁ => ⟨p, Option.some.inj hz₁ ▸ hok⟩
  · show x.mem = _
    rw [h.mem]
    congr 1
    funext i
    have huse := uses_update x.sessions hs (some z') i
    rw [hz, Option.elim_some, Option.elim_some, hown] at huse
    omega
  · rw [hz, Option.elim_some, Option.elim_some, hown]

/-- The session counts the pointers to one event differently. -/
theorem Inv.put_use {old : Option Session} (h : Inv lo f x) (hs : s ∈ f)
    (hz : x.sessions s = old) (ha : x.mem a = some e) {k u : ℤ} (hu : u = e.usecount + k)
    (hcount : ∀ i, (z'.own.count i : ℤ) =
      (old.elim [] Session.own).count i + if i = a then k else 0)
    (hk : x.purging ≠ none → a = lo → k ≤ 0) (hok : SessionOk x.hist lo p z') :
    Inv lo f ((x.setUse a e u).put s (some z')) := by
  have huse : ∀ i, (uses (Function.update x.sessions s (some z')) f i : ℤ) =
      uses x.sessions f i + if i = a then k else 0 := by
    intro i
    have hi := uses_update x.sessions hs (some z') i
    have hone := hcount i
    rw [hz, Option.elim_some] at hi
    omega
  refine h.put hs ?_ rfl (fun hp => ?_) fun z₁ hz₁ => ⟨p, Option.some.inj hz₁ ▸ hok⟩
  · show Function.update x.mem a _ = _
    rw [h.mem] at ha ⊢
    refine memOf_update ha ?_ fun i hi => ?_
    · obtain ⟨hlo, hlt⟩ := lt_of_memOf ha
      rw [memOf_eq_some hlo hlt] at ha
      rw [hu, ← Option.some.inj ha, huse, if_pos rfl]
    · have hi' := huse i
      rw [if_neg hi] at hi'
      omega
  · have hone := hcount lo
    rw [hz, Option.elim_some]
    split_ifs at hone with heq
    · have hle := hk hp heq.symm
      omega
    · omega

/-- One pointer more. -/
theorem count_concat (l : List ℕ) (a i : ℕ) :
    ((l ++ [a]).count i : ℤ) = l.count i + if i = a then 1 else 0 := by
  rw [List.count_append, List.count_singleton]
  by_cases hi : i = a
  · simp [hi]
  · simp [hi, Ne.symm hi]

/-- One pointer less. -/
theorem count_of_cons (l : List ℕ) (a i : ℕ) :
    (l.count i : ℤ) = (a :: l).count i + if i = a then -1 else 0 := by
  rw [List.count_cons]
  by_cases hi : i = a
  · simp [hi]
  · simp [hi, Ne.symm hi]

/-- The pointers of a session at `p` that are counted, by its phase. -/
theorem SessionOk.own (h : SessionOk hist lo p z) : z.own =
    (if z.phase.counts then [p] else []) ++ if z.phase.holds then z.phase.eqe.toList else [] := by
  rw [Session.own, h.lastEv, Option.toList_some]

/-- An event that is there is in memory. -/
theorem Inv.memAt (h : Inv lo f x) (hlo : lo ≤ i) (hi : i < x.hist.length) :
    x.mem i = some { x.hist[i] with
      usecount := uses x.sessions f i
      eqNext := if i + 1 < x.hist.length then some (i + 1) else none } := by
  rw [h.mem]
  exact memOf_eq_some hlo hi

theorem SessionOk.le_of_counts (h : SessionOk hist lo p z) (hcounts : z.phase.counts = true) :
    lo ≤ p := by
  refine h.live p ?_
  rw [h.own, if_pos hcounts]
  exact List.mem_append_left _ (List.mem_singleton_self p)

/-- One event more is passed. -/
theorem take_passed {o : ℕ} {post : Posted} (hle : o ≤ p) (hpost : hist[p + 1]? = some post) :
    (hist.drop (o + 1)).take (p + 1 - o) = (hist.drop (o + 1)).take (p - o) ++ [post] := by
  have hget : (hist.drop (o + 1))[p - o]? = some post := by
    rw [List.getElem?_drop, ← hpost]
    congr 1
    omega
  have hsucc : p + 1 - o = (p - o) + 1 := by omega
  rw [hsucc, List.take_add_one, hget]
  rfl

/-- **The window of `unref_event`**: when a session reads what is next to the
event it has counted down, that event is still there. -/
def LeavesLive (x : State) : Event → Prop
  | .act s .advance | .act s .gone =>
    ∀ z, x.sessions s = some z → ∃ p, z.lastEv = some p ∧ x.mem p ≠ none
  | _ => True

/-- What is read where it may have been freed. -/
theorem deref_window {k : ℕ → Eventqent → State} (hz : x.sessions s = some z)
    (hk : ∀ a e, z.lastEv = some a → x.mem a = some e → (k a e).fault = false ∧ Inv lo f (k a e)) :
    ((x.deref z.lastEv k).fault = false ↔
        ∀ z', x.sessions s = some z' → ∃ p, z'.lastEv = some p ∧ x.mem p ≠ none) ∧
      ((x.deref z.lastEv k).fault = false → Inv lo f (x.deref z.lastEv k)) := by
  by_cases hlive : ∃ a e, z.lastEv = some a ∧ x.mem a = some e
  · obtain ⟨a, e, ha, he⟩ := hlive
    rw [deref_some ha he]
    obtain ⟨hfault, hinv⟩ := hk a e ha he
    refine ⟨iff_of_true hfault fun z' hz' => ⟨a, ?_, he ▸ Option.some_ne_none e⟩, fun _ => hinv⟩
    rwa [← Option.some.inj (hz.symm.trans hz')]
  · have hfault : (x.deref z.lastEv k).fault = true := by
      unfold State.deref
      split
      · rfl
      · split
        · rfl
        · exact absurd ⟨_, _, ‹_›, ‹_›⟩ hlive
    rw [hfault]
    refine ⟨iff_of_false Bool.noConfusion fun hall => ?_, fun hf => Bool.noConfusion hf⟩
    obtain ⟨a, ha, hne⟩ := hall z hz
    obtain ⟨e, he⟩ := Option.ne_none_iff_exists'.1 hne
    exact hlive ⟨a, e, ha, he⟩

/-- **One access of a session** reads no event that was freed but in the window. -/
theorem Inv.act {a : Act} (h : Inv lo f x) (hfault : x.fault = false)
    (hz : x.sessions s = some z) (hact : x.act s z a z.phase = some y) :
    (y.fault = false ↔ LeavesLive x (.act s a)) ∧ (y.fault = false → Inv lo f y) := by
  have hgood : ∀ {y' : State}, some y' = some y → y'.fault = false → Inv lo f y' →
      (y.fault = false ↔ True) ∧ (y.fault = false → Inv lo f y) := by
    intro y' heq hf hinv
    obtain rfl := Option.some.inj heq
    exact ⟨iff_true_intro hf, fun _ => hinv⟩
  obtain ⟨hs, p, hp⟩ := h.sessions s z hz
  obtain ⟨lastEv, phase, readperm, sendEvents, authenticated, ret, waits, opened, passed⟩ := z
  obtain rfl : lastEv = some p := hp.lastEv
  have hnone : ∀ a, (none : Option ℕ) = some a → a = p + 1 ∧ p + 1 < x.hist.length :=
    fun a ha => absurd ha (Option.some_ne_none a).symm
  unfold State.act at hact
  dsimp only at hact
  split at hact
  · -- `begin`
    exact hgood hact hfault (h.put_same hs hz rfl
      ⟨rfl, hp.lt, hp.opened, hnone, hp.live, hp.passed⟩)
  · -- `look`
    rw [deref_some rfl (h.memAt (hp.le_of_counts rfl) hp.lt)] at hact
    by_cases hlt : p + 1 < x.hist.length
    · rw [if_pos hlt] at hact
      exact hgood hact hfault (h.put_same hs hz rfl ⟨rfl, hp.lt, hp.opened,
        fun a ha => ⟨(Option.some.inj ha).symm, hlt⟩, hp.live, hp.passed⟩)
    · rw [if_neg hlt] at hact
      exact hgood hact hfault (h.put_same hs hz rfl
        ⟨rfl, hp.lt, hp.opened, hnone, hp.live, hp.passed⟩)
  · -- `ref`
    obtain ⟨rfl, hlt⟩ := hp.eqe _ rfl
    have hlo := hp.le_of_counts rfl
    rw [deref_some rfl (h.memAt (Nat.le_succ_of_le hlo) hlt)] at hact
    refine hgood hact hfault (h.put_use hs hz (h.memAt (Nat.le_succ_of_le hlo) hlt) rfl
      (count_concat [p] (p + 1)) (fun _ heq => ?_) ⟨rfl, hp.lt, hp.opened,
        fun a ha => ⟨(Option.some.inj ha).symm, hlt⟩, fun i hi => ?_, hp.passed⟩)
    · omega
    · rcases List.mem_append.1 (show i ∈ [p] ++ [p + 1] from hi) with hi | hi
      · exact hp.live i hi
      · exact List.mem_singleton.1 hi ▸ Nat.le_succ_of_le hlo
  · -- `offer`
    obtain ⟨rfl, hlt⟩ := hp.eqe _ rfl
    rw [deref_some rfl (h.memAt (Nat.le_succ_of_le (hp.le_of_counts rfl)) hlt)] at hact
    refine hgood hact hfault (h.put_same hs hz rfl ⟨rfl, hp.lt, hp.opened,
      fun a ha => ⟨(Option.some.inj ha).symm, hlt⟩, hp.live, ?_⟩)
    show (passed ++ [(x.hist[p + 1], _)]).map Prod.fst =
      (x.hist.drop (opened + 1)).take (p + 1 - opened)
    rw [take_passed hp.opened (List.getElem?_eq_getElem hlt), List.map_append]
    exact congrArg (· ++ [x.hist[p + 1]]) hp.passed
  · -- `unref`
    rename_i eqe
    have hlo := hp.le_of_counts rfl
    rw [deref_some rfl (h.memAt hlo hp.lt)] at hact
    exact hgood hact hfault (h.put_use hs hz (h.memAt hlo hp.lt) Int.sub_eq_add_neg
      (count_of_cons [eqe] p) (fun _ _ => by omega) ⟨rfl, hp.lt, hp.opened, hp.eqe,
        fun i hi => hp.live i (List.mem_cons_of_mem p (show i ∈ [eqe] from hi)), hp.passed⟩)
  · -- `advance`
    obtain rfl := Option.some.inj hact
    refine deref_window hz fun a e ha he => ⟨hfault, ?_⟩
    obtain rfl := Option.some.inj ha
    obtain ⟨rfl, hlt⟩ := hp.eqe _ rfl
    rw [h.mem] at he
    rw [memOf_eq_some (lt_of_memOf he).1 hp.lt] at he
    obtain rfl := Option.some.inj he
    dsimp only
    rw [if_pos hlt]
    exact h.put_same hs hz rfl ⟨rfl, hlt, Nat.le_succ_of_le hp.opened,
      fun a ha => absurd ha (Option.some_ne_none a).symm, hp.live, hp.passed⟩
  · -- `permit`
    exact hgood hact hfault (h.put_same hs hz rfl
      ⟨rfl, hp.lt, hp.opened, hp.eqe, hp.live, hp.passed⟩)
  · -- `close`
    have hlo := hp.le_of_counts rfl
    rw [deref_some rfl (h.memAt hlo hp.lt)] at hact
    exact hgood hact hfault (h.put_use hs hz (h.memAt hlo hp.lt) Int.sub_eq_add_neg
      (count_of_cons [] p) (fun _ _ => by omega) ⟨rfl, hp.lt, hp.opened, hnone,
        fun i hi => absurd (show i ∈ [] from hi) List.not_mem_nil, hp.passed⟩)
  · -- `gone`
    obtain rfl := Option.some.inj hact
    refine deref_window hz fun a e ha he => ⟨hfault, ?_⟩
    have huse : uses (Function.update x.sessions s none) f = uses x.sessions f := by
      funext i
      have hi := uses_update x.sessions hs none i
      rw [hz] at hi
      exact hi
    refine h.put hs (by rw [huse]; exact h.mem) rfl (fun _ => Nat.zero_le _) fun z₁ hz₁ => ?_
    exact absurd hz₁ (Option.some_ne_none z₁).symm
  · exact absurd hact (Option.some_ne_none y).symm

/-! ## The list -/

/-- An event is appended behind the last one. -/
theorem memOf_append (hlo : lo < hist.length) (hnew : use hist.length = 0) (post : Posted) :
    let mem := Function.update (memOf hist lo use) hist.length
      (some { post with usecount := 0, eqNext := none })
    Function.update mem (hist.length - 1)
        ((mem (hist.length - 1)).map fun e => { e with eqNext := some hist.length }) =
      memOf (hist ++ [post]) lo use := by
  dsimp only
  have hlen : (hist ++ [post]).length = hist.length + 1 := List.length_append
  have hne : hist.length - 1 ≠ hist.length := by omega
  funext i
  by_cases hlast : i = hist.length - 1
  · subst hlast
    have hbound : hist.length - 1 < hist.length := by omega
    have hget : (hist ++ [post])[hist.length - 1]? = some hist[hist.length - 1] := by
      rw [List.getElem?_append_left hbound, List.getElem?_eq_getElem hbound]
    have hnext : hist.length - 1 + 1 = hist.length := by omega
    rw [Function.update_self, Function.update_of_ne hne, memOf_eq_some (by omega) (by omega),
      Option.map_some, memOf_of_get (by omega) hget, hnext,
      if_pos (by omega : hist.length < (hist ++ [post]).length)]
  · rw [Function.update_of_ne hlast]
    by_cases hi : i = hist.length
    · subst hi
      rw [Function.update_self, memOf_of_get (by omega) List.getElem?_concat_length, hnew,
        if_neg (by omega)]
      rfl
    · rw [Function.update_of_ne hi]
      unfold memOf
      by_cases hlt : i < hist.length
      · rw [List.getElem?_append_left hlt]
        by_cases hnext : i + 1 < hist.length
        · rw [if_pos hnext, if_pos (by omega : i + 1 < (hist ++ [post]).length)]
        · omega
      · rw [List.getElem?_eq_none (by omega), List.getElem?_eq_none (by omega), Option.map_none,
          Option.map_none]

theorem SessionOk.append (h : SessionOk hist lo p z) (post : Posted) :
    SessionOk (hist ++ [post]) lo p z := by
  have hlen : (hist ++ [post]).length = hist.length + 1 := List.length_append
  have hlt := h.lt
  have hle := h.opened
  refine ⟨h.lastEv, by omega, hle, fun a ha => ?_, h.live, ?_⟩
  · obtain ⟨heq, hlt'⟩ := h.eqe a ha
    exact ⟨heq, by omega⟩
  · have hreach : (if z.phase.passes then p + 1 else p) - z.opened ≤
        (hist.drop (z.opened + 1)).length := by
      rw [List.length_drop]
      split_ifs with hpasses
      · have heqe : ∃ a, z.phase.eqe = some a := by
          cases hphase : z.phase <;> rw [hphase] at hpasses <;>
            first | exact ⟨_, rfl⟩ | exact Bool.noConfusion hpasses
        obtain ⟨a, ha⟩ := heqe
        have := (h.eqe a ha).2
        omega
      · omega
    rw [h.passed, List.drop_append_of_le_length (by omega), List.take_append_of_le_length hreach]

theorem Inv.append (h : Inv lo f x) (hpurging : x.purging = none) (post : Posted) :
    Inv lo f (x.appendEvent post) := by
  have hlen : (x.hist ++ [post]).length = x.hist.length + 1 := by
    rw [List.length_append, List.length_singleton]
  have hnew : uses x.sessions f x.hist.length = 0 := by
    rw [uses_eq_zero_iff]
    intro s _ z hz hmem
    obtain ⟨-, p, hp⟩ := h.sessions s z hz
    exact absurd (hp.own_lt hmem) (Nat.lt_irrefl _)
  have hmem := memOf_append h.lt hnew post
  have hlt := h.lt
  unfold State.appendEvent
  rw [h.first, h.last]
  refine ⟨?_, rfl, ?_, ?_, fun a ha => ?_, fun s z hz => ?_⟩
  · show lo < (x.hist ++ [post]).length
    omega
  · show some x.hist.length = some ((x.hist ++ [post]).length - 1)
    rw [hlen]
    rfl
  · show Function.update _ _ _ = memOf (x.hist ++ [post]) lo (uses x.sessions f)
    rw [h.mem]
    exact hmem
  · rw [hpurging] at ha
    exact absurd ha (Option.some_ne_none a).symm
  · obtain ⟨hs, p, hp⟩ := h.sessions s z hz
    exact ⟨hs, p, hp.append post⟩

/-- A session that is not there may be counted. -/
theorem Inv.extend (h : Inv lo f x) (hs : x.sessions s = none) : Inv lo (insert s f) x := by
  have huse : uses x.sessions (insert s f) = uses x.sessions f := funext (uses_insert hs)
  refine ⟨h.lt, h.first, h.last, ?_, fun a ha => ?_, fun r z hr => ?_⟩
  · rw [huse]
    exact h.mem
  · rw [huse]
    exact h.purging a ha
  · obtain ⟨hmem, hok⟩ := h.sessions r z hr
    exact ⟨Finset.mem_insert_of_mem hmem, hok⟩

/-- A session is opened at the last event. -/
theorem Inv.openSession (h : Inv lo f x) (hpurging : x.purging = none)
    (hs : x.sessions s = none) :
    (x.openSession s).fault = x.fault ∧ Inv lo (insert s f) (x.openSession s) := by
  have hlt := h.lt
  have hbound : x.hist.length - 1 < x.hist.length := by omega
  have hmem := h.memAt (by omega : lo ≤ x.hist.length - 1) hbound
  unfold State.openSession
  rw [h.last]
  dsimp only
  rw [deref_some rfl hmem]
  refine ⟨rfl, ?_⟩
  refine (h.extend hs).put_use (Finset.mem_insert_self s f) hs hmem rfl (count_concat [] _)
    (fun hp => absurd hpurging hp) ⟨rfl, hbound, Nat.le_refl _,
      fun a ha => absurd ha (Option.some_ne_none a).symm, fun i hi => ?_, ?_⟩
  · rw [List.mem_singleton.1 (show i ∈ [x.hist.length - 1] from hi)]
    omega
  · show [] = List.take (x.hist.length - 1 - (x.hist.length - 1)) _
    rw [Nat.sub_self, List.take_zero]

theorem Inv.purgeTest (h : Inv lo f x) (hy : x.purgeTest = some y) :
    y.fault = x.fault ∧ Inv lo f y := by
  have hmem := h.memAt (Nat.le_refl lo) h.lt
  unfold State.purgeTest at hy
  rw [h.first] at hy
  dsimp only at hy
  rw [hmem] at hy
  dsimp only at hy
  by_cases hunused : (uses x.sessions f lo : ℤ) = 0 ∧
      (if lo + 1 < x.hist.length then some (lo + 1) else none).isSome
  · rw [if_pos hunused] at hy
    have hlt : lo + 1 < x.hist.length := by
      by_contra hnot
      rw [if_neg hnot] at hunused
      exact Bool.false_ne_true hunused.2
    obtain rfl := Option.some.inj hy
    refine ⟨rfl, h.lt, rfl, h.last, h.mem, fun a ha => ?_, h.sessions⟩
    exact ⟨(Option.some.inj ha).symm, hlt, by exact_mod_cast hunused.1⟩
  · rw [if_neg hunused] at hy
    exact absurd hy (Option.some_ne_none y).symm

/-- The first event is freed, which no session has. -/
theorem Inv.purge (h : Inv lo f x) (ha : x.purging = some a) : Inv (lo + 1) f (x.purge a) := by
  obtain ⟨rfl, hlt, hzero⟩ := h.purging a ha
  rw [uses_eq_zero_iff] at hzero
  unfold State.purge
  refine ⟨hlt, ?_, ?_, ?_, fun b hb => absurd hb (Option.some_ne_none b).symm,
    fun s z hz => ?_⟩
  · show (x.mem a).bind Eventqent.eqNext = some (a + 1)
    rw [h.mem, memOf_eq_some (Nat.le_refl a) h.lt, Option.bind_some]
    exact if_pos hlt
  · show (if x.last = some a then none else x.last) = _
    rw [h.last, if_neg fun heq => by have := Option.some.inj heq; omega]
  · show Function.update x.mem a none = memOf x.hist (a + 1) (uses x.sessions f)
    rw [h.mem]
    funext i
    by_cases hi : i = a
    · subst hi
      rw [Function.update_self, memOf_of_lt (Nat.lt_succ_self i)]
    · rw [Function.update_of_ne hi]
      unfold memOf
      by_cases hle : a + 1 ≤ i
      · rw [if_pos hle, if_pos (by omega)]
      · rw [if_neg hle, if_neg (by omega)]
  · obtain ⟨hs, p, hp⟩ := h.sessions s z hz
    refine ⟨hs, p, hp.lastEv, hp.lt, hp.opened, hp.eqe, fun i hi => ?_, hp.passed⟩
    have hle := hp.live i hi
    have hne : i ≠ a := fun heq => hzero s hs z hz (heq ▸ hi)
    omega

theorem inv_init (post : Posted) : Inv 0 ∅ (State.init post) := by
  refine ⟨Nat.one_pos, rfl, rfl, ?_, fun a ha => absurd ha (Option.some_ne_none a).symm,
    fun s z hz => absurd hz (Option.some_ne_none z).symm⟩
  funext i
  show (State.init post).mem i = memOf [post] 0 (uses (State.init post).sessions ∅) i
  cases i with
  | zero => rfl
  | succ i => rfl

/-- **One event**: a fault is a read in the window, and there is no other. -/
theorem Inv.step {e : Event} (h : Inv lo f x) (hfault : x.fault = false)
    (hstep : step x e = some y) :
    (y.fault = false ↔ LeavesLive x e) ∧ (y.fault = false → ∃ lo f, Inv lo f y) := by
  unfold Manager.step at hstep
  rw [hfault, if_neg Bool.false_ne_true] at hstep
  cases e with
  | append post =>
    dsimp only at hstep
    split_ifs at hstep with hpurging
    obtain rfl := Option.some.inj hstep
    refine ⟨iff_of_true ?_ trivial, fun _ => ⟨lo, f, h.append hpurging post⟩⟩
    unfold State.appendEvent
    rw [h.first, h.last]
    exact hfault
  | «open» s =>
    dsimp only at hstep
    split_ifs at hstep with hopen
    obtain rfl := Option.some.inj hstep
    obtain ⟨hsame, hinv⟩ := h.openSession hopen.1 (Option.isNone_iff_eq_none.1 hopen.2)
    exact ⟨iff_of_true (hsame.trans hfault) trivial, fun _ => ⟨lo, _, hinv⟩⟩
  | act s a =>
    obtain ⟨z, hz, hact⟩ := Option.bind_eq_some_iff.1 hstep
    obtain ⟨hiff, hinv⟩ := h.act hfault hz hact
    exact ⟨hiff, fun hf => ⟨lo, f, hinv hf⟩⟩
  | purgeTest =>
    dsimp only at hstep
    split_ifs at hstep
    obtain ⟨hsame, hinv⟩ := h.purgeTest hstep
    exact ⟨iff_of_true (hsame.trans hfault) trivial, fun _ => ⟨lo, f, hinv⟩⟩
  | purge =>
    obtain ⟨a, ha, rfl⟩ := Option.map_eq_some_iff.1 hstep
    exact ⟨iff_of_true hfault trivial, fun _ => ⟨lo + 1, f, h.purge ha⟩⟩

/-! ## Whole runs -/

/-- **What the sessions have.** The events after the last one that a session has
passed are in memory; what it has passed is what was appended since it was
opened, in order and each once, and all of it when no new event is found; and an
event is used as often as there are sessions that count it. -/
structure Delivers (x : State) : Prop where
  passed : ∀ s z, x.sessions s = some z → ∃ p, z.lastEv = some p ∧ p < x.hist.length ∧
    z.passed.map Prod.fst = (x.hist.drop (z.opened + 1)).take
      ((if z.phase.passes then p + 1 else p) - z.opened) ∧
    (z.phase.counts = true → ∀ i, p ≤ i → i < x.hist.length → ∃ e, x.mem i = some e ∧
      x.hist[i]? = some e.toPosted)
  complete : ∀ s z e, x.sessions s = some z → z.phase = .look → z.lastEv.bind x.mem = some e →
    e.eqNext = none → z.passed.map Prod.fst = x.hist.drop (z.opened + 1)
  usecount : ∃ f : Finset ℕ, (∀ s ∉ f, x.sessions s = none) ∧
    ∀ i e, x.mem i = some e → e.usecount = uses x.sessions f i

theorem Inv.delivers (h : Inv lo f x) : Delivers x := by
  refine ⟨fun s z hz => ?_, fun s z e hz hphase he hnext => ?_, f, fun s hs => ?_, fun i e he => ?_⟩
  · obtain ⟨-, p, hp⟩ := h.sessions s z hz
    refine ⟨p, hp.lastEv, hp.lt, hp.passed, fun hcounts i hi hlt => ?_⟩
    have hlo := hp.le_of_counts hcounts
    exact ⟨_, h.memAt (by omega) hlt, List.getElem?_eq_getElem hlt⟩
  · obtain ⟨-, p, hp⟩ := h.sessions s z hz
    have hpassed := hp.passed
    rw [hphase] at hpassed
    have hlo := hp.le_of_counts (by rw [hphase]; rfl)
    rw [hp.lastEv, Option.bind_some, h.memAt hlo hp.lt] at he
    obtain rfl := Option.some.inj he
    have hlast : ¬ p + 1 < x.hist.length := by
      intro hlt
      rw [if_pos hlt] at hnext
      exact Option.some_ne_none _ hnext
    have hlt := hp.lt
    have hle := hp.opened
    rw [hpassed]
    refine List.take_of_length_le ?_
    rw [List.length_drop]
    show x.hist.length - (z.opened + 1) ≤ p - z.opened
    omega
  · by_contra hne
    obtain ⟨z, hz⟩ := Option.ne_none_iff_exists'.1 hne
    exact hs (h.sessions s z hz).1
  · rw [h.mem] at he
    obtain ⟨hlo, hlt⟩ := lt_of_memOf he
    rw [memOf_eq_some hlo hlt] at he
    exact Option.some.inj he ▸ rfl

/-- An event happens. -/
def Moves (x : State) (e : Event) (y : State) : Prop := step x e = some y

/-- An event happens and nothing that was freed is read. -/
def Sane (x : State) (e : Event) (y : State) : Prop := Moves x e y ∧ y.fault = false

/-- An event happens, and if a session leaves an event it has counted down then
no purge has come between. -/
def NoPurgeBetween (x : State) (e : Event) (y : State) : Prop := Moves x e y ∧ LeavesLive x e

/-- A purge between the two halves: what is next to a freed event is read. -/
example : (([.open 0, .append ⟨1, []⟩, .act 0 (.begin false), .act 0 .look, .act 0 .ref,
    .act 0 (.offer true), .act 0 .unref, .purgeTest, .purge, .act 0 .advance] : List Event).foldlM
      step (State.init ⟨0, []⟩)).map State.fault = some true := by decide

end Manager

end Trismedia
