import Trismedia.Common.Trace
import Trismedia.Mtp2.Ends
/-!
# Two ends and the line between them

The two ends of a signalling link, each sending its frames into a channel
that keeps their order and loses some. A received frame stands at the start
of the receive buffer; what is behind it there is anything. `Joined` ties the
ends and the channels to the go-back-N protocol, once for each direction;
`joined_prefix` is what follows for two ends in service.
-/


namespace Trismedia

namespace Mtp2

open GoBackN

/-- The two ends. -/
inductive Side where
  | left
  | right
  deriving DecidableEq

/-- The other end. -/
def Side.other : Side → Side
  | .left => .right
  | .right => .left

@[simp] theorem Side.other_other (s : Side) : s.other.other = s := by cases s <;> rfl

@[simp] theorem Side.other_ne (s : Side) : s.other ≠ s := by cases s <;> simp [Side.other]

@[simp] theorem Side.ne_other (s : Side) : s ≠ s.other := s.other_ne.symm

theorem Side.eq_or (s t : Side) : t = s ∨ t = s.other := by cases s <;> cases t <;> simp [Side.other]

/-- **The two ends, and the frames of each in flight**, oldest first. -/
structure Sys where
  ends : Side → Mtp2State
  chan : Side → List (List Octet)

/-- What happens: an end takes an MSU, sends a frame or receives one, a
channel loses frames, a timer expires. -/
inductive Action where
  | queueMsu (s : Side) (sio : Octet) (sif : List Octet)
  | pickFrame (s : Side)
  | goodFrame (s : Side) (buf : ℕ → Octet) (alive : Bool)
  | lose (s : Side)
  | expire (s : Side) (t : Timer) (alive : Bool)

/-- **One step of the two ends.** -/
inductive JointStep (c : Side → Link) (x : Sys) : Action → Sys → Prop
  | queueMsu (s : Side) (sio : Octet) (sif : List Octet) (hlen : sif.length ≤ 272) :
      JointStep c x (.queueMsu s sio sif)
        ⟨Function.update x.ends s (mtp2QueueMsu (x.ends s) sio sif), x.chan⟩
  | pickFrame (s : Side) :
      JointStep c x (.pickFrame s)
        ⟨Function.update x.ends s (mtp2PickFrame (x.ends s)).1,
          Function.update x.chan s (x.chan s ++ [(mtp2PickFrame (x.ends s)).2])⟩
  | goodFrame (s : Side) (buf : ℕ → Octet) (alive : Bool) {f : List Octet}
      {rest : List (List Octet)} {m' : Mtp2State} (hf : x.chan s.other = f :: rest)
      (hb : Holds buf f) (hm : mtp2GoodFrame (c s) alive (x.ends s) buf f.length = some m') :
      JointStep c x (.goodFrame s buf alive)
        ⟨Function.update x.ends s m', Function.update x.chan s.other rest⟩
  | lose (s : Side) {l : List (List Octet)} (hl : l.Sublist (x.chan s)) :
      JointStep c x (.lose s) ⟨x.ends, Function.update x.chan s l⟩
  | expire (s : Side) (t : Timer) (alive : Bool) {m' : Mtp2State} (ht : (x.ends s).running t)
      (hm : expire (c s) alive (x.ends s) t = some m') :
      JointStep c x (.expire s t alive) ⟨Function.update x.ends s m', x.chan⟩

/-! ## Steps computed -/

/-- A step to compute: an end sends, receives the oldest frame in flight, or
its T4 expires. -/
inductive Move where
  | pick (s : Side)
  | take (s : Side)
  | t4 (s : Side)

/-- The step of a move, if it can be made. -/
def Move.step? (c : Side → Link) (x : Sys) : Move → Option (Action × Sys)
  | .pick s =>
    some (.pickFrame s,
      ⟨Function.update x.ends s (mtp2PickFrame (x.ends s)).1,
        Function.update x.chan s (x.chan s ++ [(mtp2PickFrame (x.ends s)).2])⟩)
  | .take s =>
    match x.chan s.other with
    | [] => none
    | f :: rest =>
      (mtp2GoodFrame (c s) false (x.ends s) (fun i => f.getD i 0) f.length).map fun m' =>
        (.goodFrame s (fun i => f.getD i 0) false,
          ⟨Function.update x.ends s m', Function.update x.chan s.other rest⟩)
  | .t4 s =>
    if (x.ends s).running .t4 then
      (Mtp2.expire (c s) false (x.ends s) .t4).map fun m' =>
        (.expire s .t4 false, ⟨Function.update x.ends s m', x.chan⟩)
    else none

theorem Move.step?_sound {c : Side → Link} {x y : Sys} {e : Action} (mv : Move)
    (h : mv.step? c x = some (e, y)) : JointStep c x e y := by
  cases mv with
  | pick s =>
    obtain ⟨rfl, rfl⟩ : _ ∧ _ := by simpa [Move.step?] using h
    exact .pickFrame s
  | take s =>
    cases hf : x.chan s.other with
    | nil => simp [Move.step?, hf] at h
    | cons f rest =>
      simp only [Move.step?, hf] at h
      obtain ⟨m', hm, heq⟩ := Option.map_eq_some_iff.1 h
      obtain ⟨rfl, rfl⟩ := Prod.mk.inj heq
      exact .goodFrame s _ false hf (fun _ _ => rfl) hm
  | t4 s =>
    simp only [Move.step?] at h
    split_ifs at h with ht
    obtain ⟨m', hm, heq⟩ := Option.map_eq_some_iff.1 h
    obtain ⟨rfl, rfl⟩ := Prod.mk.inj heq
    exact .expire s .t4 false ht hm

/-- A move where its step meets `ok`. -/
def makeMove (c : Side → Link) (ok : Sys → Action → Sys → Bool) (x : Sys) (mv : Move) :
    Option Sys :=
  (mv.step? c x).bind fun p => if ok x p.1 p.2 then some p.2 else none

theorem makeMove_sound {c : Side → Link} {ok : Sys → Action → Sys → Bool} {x y : Sys} {mv : Move}
    (h : makeMove c ok x mv = some y) : ∃ e, JointStep c x e y ∧ ok x e y = true := by
  obtain ⟨⟨e, z⟩, hp, hz⟩ := Option.bind_eq_some_iff.1 h
  dsimp only at hz
  split_ifs at hz with hok
  obtain rfl := Option.some.inj hz
  exact ⟨e, mv.step?_sound hp, hok⟩

/-! ## The ends and the protocol -/

variable {c : Side → Link} {base : Side → Base} {d : Side → Dir Msu} {g g' : Side → List Gram}
variable {x y : Sys} {s : Side} {e : Action} {m' : Mtp2State} {out' inn' : Dir Msu}
variable {f : List Octet}

/-- **The two ends and the protocol**, with the directions `d` and the frames
`g` in flight. -/
structure Joined (base : Side → Base) (d : Side → Dir Msu) (g : Side → List Gram) (x : Sys) :
    Prop where
  chan : ∀ s, x.chan s = (g s).map (Gram.octets (base s) (base s.other))
  inv : ∀ s, Inv 127 (d s) (units (g s)) (acks (g s.other))
  ends : ∀ s, EndOk (base s) (base s.other) (x.ends s) (d s) (d s.other)
  lssu : ∀ s f, Gram.lssu f ∈ g s → IsLssu f

/-- The directions after the end `s` moved: the one it sends and the one it
receives. -/
def moved (s : Side) (out inn : Dir Msu) (t : Side) : Dir Msu := if t = s then out else inn

@[simp] theorem moved_self (s : Side) (out inn : Dir Msu) : moved s out inn s = out := if_pos rfl

@[simp] theorem moved_other (s : Side) (out inn : Dir Msu) : moved s out inn s.other = inn :=
  if_neg s.other_ne

namespace Joined

/-- The messages in flight have a label. -/
theorem long (h : Joined base d g x) {u : DataUnit Msu} {k : Ack} (hu : Gram.su u k ∈ g s) :
    ∀ a, u.body = some a → 4 ≤ a.sif.length := by
  intro a ha
  have hmem : u ∈ units (g s) := List.mem_filterMap.2 ⟨_, hu, rfl⟩
  have hlog := (h.inv s).line_log u hmem a ha
  exact (h.ends s).long a (List.mem_of_getElem? hlog)

/-- **One end moves.** The other keeps what it has. -/
theorem update (h : Joined base d g x) (s : Side) {chan' : Side → List (List Octet)}
    (hchan : ∀ t, chan' t = (g' t).map (Gram.octets (base t) (base t.other)))
    (hout : Inv 127 out' (units (g' s)) (acks (g' s.other)))
    (hinn : Inv 127 inn' (units (g' s.other)) (acks (g' s)))
    (hend : EndOk (base s) (base s.other) m' out' inn')
    (hi : inn'.log = (d s.other).log ∧ inn'.acked = (d s.other).acked ∧
      inn'.sent = (d s.other).sent ∧ inn'.phase = (d s.other).phase)
    (ho : out'.got = (d s).got ∧ out'.asked = (d s).asked ∧ (d s).log <+: out'.log)
    (hlssu : ∀ t f, Gram.lssu f ∈ g' t → IsLssu f) :
    Joined base (moved s out' inn') g' ⟨Function.update x.ends s m', chan'⟩ := by
  refine ⟨hchan, fun t => ?_, fun t => ?_, hlssu⟩
  · rcases s.eq_or t with rfl | rfl
    · simpa using hout
    · simpa using hinn
  · rcases s.eq_or t with rfl | rfl
    · simpa using hend
    · have hle : (d s).got ≤ (d s).log.length := by
        have h1 := (h.inv s).got_le
        have h2 := (h.inv s).sent_le
        omega
      have hpeer := h.ends s.other
      rw [Side.other_other] at hpeer
      simpa using hpeer.peer hi ho hle

theorem inv_other (h : Joined base d g x) (s : Side) :
    Inv 127 (d s.other) (units (g s.other)) (acks (g s)) := by
  have hinv := h.inv s.other
  rwa [Side.other_other] at hinv

/-! ### Losses -/

theorem lose (h : Joined base d g x) {l : List (List Octet)} (hl : l.Sublist (x.chan s)) :
    ∃ g', (∀ t, (g' t).Sublist (g t)) ∧
      Joined base d g' ⟨x.ends, Function.update x.chan s l⟩ := by
  rw [h.chan s] at hl
  obtain ⟨gs, hsub, rfl⟩ := List.sublist_map_iff.1 hl
  have hle : ∀ t, (Function.update g s gs t).Sublist (g t) := fun t => by
    rcases s.eq_or t with rfl | rfl
    · simpa using hsub
    · simp
  refine ⟨Function.update g s gs, hle, fun t => ?_, fun t => ?_, h.ends, fun t f hf => ?_⟩
  · rcases s.eq_or t with rfl | rfl
    · simp
    · simpa using h.chan s.other
  · exact (h.inv t).lose ((hle t).filterMap _) ((hle t.other).filterMap _)
  · exact h.lssu t f ((hle t).subset hf)

/-! ### The oldest frame in flight -/

/-- What a channel loses when its oldest frame is received. -/
theorem chan_tail (h : Joined base d g x) {rest : List (List Octet)}
    (hf : x.chan s.other = f :: rest) :
    ∃ gr gs, g s.other = gr :: gs ∧ f = gr.octets (base s.other) (base s) ∧
      ∀ t, Function.update x.chan s.other rest t =
        (Function.update g s.other gs t).map (Gram.octets (base t) (base t.other)) := by
  rw [h.chan s.other, Side.other_other] at hf
  obtain ⟨gr, gs, hg, hgr, hgs⟩ := List.map_eq_cons_iff.1 hf
  refine ⟨gr, gs, hg, hgr.symm, fun t => ?_⟩
  rcases s.eq_or t with rfl | rfl
  · simpa using h.chan t
  · simp [hgs]

theorem lssu_tail (h : Joined base d g x) {gr : Gram} {gs : List Gram}
    (hg : g s.other = gr :: gs) (t : Side) (f : List Octet)
    (hf : Gram.lssu f ∈ Function.update g s.other gs t) : IsLssu f := by
  rcases s.eq_or t with rfl | rfl
  · exact h.lssu t f (by simpa using hf)
  · refine h.lssu s.other f ?_
    rw [hg]
    exact List.mem_cons_of_mem _ (by simpa using hf)

/-- **A frame of the protocol is heard.** -/
theorem hear (h : Joined base d g x) {u : DataUnit Msu} {k : Ack} {gs : List Gram}
    (hg : g s.other = .su u k :: gs) {chan' : Side → List (List Octet)}
    (hchan : ∀ t, chan' t =
      (Function.update g s.other gs t).map (Gram.octets (base t) (base t.other)))
    (hext : Extends (d s) out' (units (g s)) (acks gs))
    (hend : EndOk (base s) (base s.other) m' out' ((d s.other).hear u)) :
    Joined base (moved s out' ((d s.other).hear u)) (Function.update g s.other gs)
      ⟨Function.update x.ends s m', chan'⟩ := by
  refine h.update s hchan ?_ ?_ hend (log_hear (d s.other) u) hext.2 (h.lssu_tail hg)
  · simpa using hext.1
  · have hinv := h.inv_other s
    rw [hg, units_su] at hinv
    simpa using hinv.hear

/-- **A frame is passed over.** -/
theorem skip (h : Joined base d g x) {gr : Gram} {gs : List Gram} (hg : g s.other = gr :: gs)
    {chan' : Side → List (List Octet)}
    (hchan : ∀ t, chan' t =
      (Function.update g s.other gs t).map (Gram.octets (base t) (base t.other)))
    (hend : EndOk (base s) (base s.other) m' (d s) (d s.other)) :
    Joined base (moved s (d s) (d s.other)) (Function.update g s.other gs)
      ⟨Function.update x.ends s m', chan'⟩ := by
  have hsub : gs.Sublist (g s.other) := by
    rw [hg]
    exact List.sublist_cons_self gr gs
  refine h.update s hchan ?_ ?_ hend ⟨rfl, rfl, rfl, rfl⟩ ⟨rfl, rfl, List.prefix_refl _⟩
    (h.lssu_tail hg)
  · have hinv : Inv 127 (d s) (units (g s)) (acks gs) :=
      (h.inv s).lose (List.Sublist.refl _) (hsub.filterMap _)
    simpa using hinv
  · have hinv : Inv 127 (d s.other) (units gs) (acks (g s)) :=
      (h.inv_other s).lose (hsub.filterMap _) (List.Sublist.refl _)
    simpa using hinv

/-! ### A frame put on the line -/

theorem chan_concat (h : Joined base d g x) (gr : Gram)
    (hf : f = gr.octets (base s) (base s.other)) (t : Side) :
    Function.update x.chan s (x.chan s ++ [f]) t =
      (Function.update g s (g s ++ [gr]) t).map (Gram.octets (base t) (base t.other)) := by
  rcases s.eq_or t with rfl | rfl
  · simp [h.chan t, hf]
  · simpa using h.chan s.other

/-- A unit put on the line is no status unit. -/
theorem lssu_concat_su {u : DataUnit Msu} {k : Ack} {t : Side}
    (hf : Gram.lssu f ∈ Function.update g s (g s ++ [.su u k]) t) : Gram.lssu f ∈ g t := by
  rcases s.eq_or t with rfl | rfl
  · simpa using hf
  · simpa using hf

/-- **An end in service sends.** -/
theorem pick_su (h : Joined base d g x) (s : Side) (hlive : (x.ends s).fails = 0)
    (hserv : (x.ends s).state = .inservice ∨ (x.ends s).state = .ready) :
    ∃ u k n, Joined base (moved s { d s with sent := n } (d s.other))
        (Function.update g s (g s ++ [.su u k]))
        ⟨Function.update x.ends s (mtp2PickFrame (x.ends s)).1,
          Function.update x.chan s (x.chan s ++ [(mtp2PickFrame (x.ends s)).2])⟩ := by
  obtain ⟨u, n, hframe, hinv, hend, -⟩ := (h.ends s).pickFrame_su hlive hserv (h.inv s)
  refine ⟨u, ⟨(d s.other).got, (d s.other).asked⟩, n, h.update s (h.chan_concat _ hframe) ?_ ?_ hend
    ⟨rfl, rfl, rfl, rfl⟩ ⟨rfl, rfl, List.prefix_refl _⟩ fun t f hf => ?_⟩
  · simpa [units_concat_su] using hinv
  · simpa [acks_concat_su] using (h.inv_other s).answer
  · exact h.lssu t f (lssu_concat_su hf)

/-- **An end out of service sends.** -/
theorem pick_lssu (h : Joined base d g x) (s : Side)
    (hout : (x.ends s).state ≠ .ready ∧ (x.ends s).state ≠ .inservice) :
    ∃ status, (mtp2PickFrame (x.ends s)).1 = x.ends s ∧
      (mtp2PickFrame (x.ends s)).2 = lssuFrame (x.ends s) status ∧
      Joined base d (Function.update g s (g s ++ [.lssu (lssuFrame (x.ends s) status)]))
        ⟨x.ends, Function.update x.chan s (x.chan s ++ [(mtp2PickFrame (x.ends s)).2])⟩ := by
  obtain ⟨hsame, status, hframe⟩ := pickFrame_lssu hout
  refine ⟨status, hsame, hframe, h.chan_concat (.lssu _) hframe, fun t => ?_, h.ends, ?_⟩
  · have hu : ∀ t, units (Function.update g s (g s ++ [.lssu (lssuFrame (x.ends s) status)]) t) =
        units (g t) := fun t => by
      rcases s.eq_or t with rfl | rfl
      · simp [units_concat_lssu]
      · simp
    have ha : ∀ t, acks (Function.update g s (g s ++ [.lssu (lssuFrame (x.ends s) status)]) t) =
        acks (g t) := fun t => by
      rcases s.eq_or t with rfl | rfl
      · simp [acks_concat_lssu]
      · simp
    rw [hu, ha]
    exact h.inv t
  · intro t f hf
    rcases s.eq_or t with rfl | rfl
    · simp only [Function.update_self, List.mem_append, List.mem_singleton] at hf
      rcases hf with hf | hf
      · exact h.lssu t f hf
      · rw [Gram.lssu.injEq] at hf
        rw [hf]
        exact isLssu_lssuFrame _ _
    · exact h.lssu s.other f (by simpa using hf)

/-! ### An MSU queued -/

/-- An end that took messages for the direction it sends. -/
theorem extend (h : Joined base d g x) (s : Side)
    (hext : Extends (d s) out' (units (g s)) (acks (g s.other)))
    (hend : EndOk (base s) (base s.other) m' out' (d s.other)) :
    Joined base (moved s out' (d s.other)) g ⟨Function.update x.ends s m', x.chan⟩ :=
  h.update s h.chan hext.1 (h.inv_other s) hend ⟨rfl, rfl, rfl, rfl⟩ hext.2 h.lssu

end Joined

end Mtp2

end Trismedia
