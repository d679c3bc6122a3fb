import Trismedia.Mtp2.Joint
/-!
# Two ends in service

From two ends in service with agreeing counters, with frames lost anywhere
and no timer expiring, each end hands over in order what the other accepted,
and never finds a BSN illegal. An end may still fail on the way, for an
invalid SLTA; it then sends only status units, and is not ready again.
-/


namespace Trismedia

namespace Mtp2

open GoBackN

variable {c : Side → Link} {base : Side → Base} {x y : Sys} {s : Side} {e : Action}

/-- **Two ends in service that agree**: all that was sent is acknowledged,
nothing is to be retransmitted, no frame is in flight. The history starts
here. -/
structure Agreed (x : Sys) : Prop where
  state : ∀ s, (x.ends s).state = .inservice
  seq_lt : ∀ s, (x.ends s).retransLastSent < 128
  acked : ∀ s, (x.ends s).retransLastAcked = (x.ends s).retransLastSent
  bsn : ∀ s, (x.ends s.other).sendBsn = (x.ends s).retransLastSent
  bib : ∀ s, (x.ends s.other).sendBib = (x.ends s).sendFib
  idle : ∀ s, (x.ends s).retransSeq = none
  chan : ∀ s, x.chan s = []
  history : ∀ s, (x.ends s).accepted = [] ∧ (x.ends s).handed = [] ∧ (x.ends s).fails = 0

/-- The steps without timers, of MSUs with a label. -/
def Untimed : Action → Prop
  | .queueMsu _ _ sif => 4 ≤ sif.length
  | .expire _ _ _ => False
  | _ => True

/-- **What holds throughout**: the ends are joined, and each is in service or
failed. -/
def Serving (base : Side → Base) (x : Sys) : Prop :=
  ∃ d g, Joined base d g x ∧
    ∀ s, (x.ends s).fails = 0 ∧ (x.ends s).state = .inservice ∨ Out (x.ends s)

/-- The direction that starts with an agreed end. -/
def startDir : Dir Msu := ⟨[], 0, 0, 0, 0, 0⟩

theorem Agreed.serving (h : Agreed x) :
    Serving (fun s => ⟨(x.ends s).retransLastSent, (x.ends s).sendFib⟩) x := by
  refine ⟨fun _ => startDir, fun _ => [], ⟨fun s => h.chan s, fun s => .start 127 0, fun s => ?_,
    fun s f hf => absurd hf List.not_mem_nil⟩, fun s => .inl ⟨(h.history s).2.2, h.state s⟩⟩
  have hzero : ∀ t, Base.number ⟨(x.ends t).retransLastSent, (x.ends t).sendFib⟩ 0 =
      (x.ends t).retransLastSent := fun t => by
    have := h.seq_lt t
    simp only [Base.number]
    omega
  have hbit : ∀ t, Base.indicator ⟨(x.ends t).retransLastSent, (x.ends t).sendFib⟩ 0 =
      (x.ends t).sendFib := fun t => by simp [Base.indicator, bitOf]
  have hbsn := h.bsn s.other
  have hbib := h.bib s.other
  rw [Side.other_other] at hbsn hbib
  refine ⟨(h.history s).1, (h.history s).2.1, fun a ha => absurd ha List.not_mem_nil, fun _ =>
    ⟨⟨(hzero s).symm, ?_, h.idle s, (hbit s).symm, fun n _ a ha => by simp [startDir] at ha⟩,
      ⟨?_, ?_⟩⟩⟩
  · rw [h.acked s]
    exact (hzero s).symm
  · rw [hbsn]
    exact (hzero s.other).symm
  · rw [hbib]
    exact (hbit s.other).symm

/-- The other end stays as it is. -/
theorem inService_update {m' : Mtp2State}
    (h : ∀ t, (x.ends t).fails = 0 ∧ (x.ends t).state = .inservice ∨ Out (x.ends t))
    (hm : m'.fails = 0 ∧ m'.state = .inservice ∨ Out m') (t : Side) :
    (Function.update x.ends s m' t).fails = 0 ∧ (Function.update x.ends s m' t).state = .inservice ∨
      Out (Function.update x.ends s m' t) := by
  rcases s.eq_or t with rfl | rfl
  · simpa using hm
  · simpa using h s.other

/-- An end in service stays there, or fails. -/
theorem inService_of_same {m m' : Mtp2State} (h : m.fails = 0 ∧ m.state = .inservice)
    (hst : Same m m' ∨ Out m') : m'.fails = 0 ∧ m'.state = .inservice ∨ Out m' :=
  hst.imp_left fun hs => ⟨hs.fails.trans h.1, hs.state.trans h.2⟩

/-- An MSU at a failed link is discarded. -/
theorem mtp2QueueMsu_of_out {m : Mtp2State} (h : Out m) (sio : Octet) (sif : List Octet) :
    mtp2QueueMsu m sio sif = m :=
  mtp2QueueMsu_of_not_accepts fun hacc => hacc.1.elim h.2.2 h.2.1

/-- **One step.** -/
theorem Serving.step (h : Serving base x) (hstep : JointStep c x e y) (he : Untimed e) :
    Serving base y := by
  obtain ⟨d, g, hj, hserv⟩ := h
  cases hstep with
  | queueMsu s sio sif hlen =>
    rcases hserv s with hlive | hout
    · obtain ⟨ms, hinv, hend⟩ := (hj.ends s).mtp2QueueMsu sio hlive.1 (hj.inv s) he
      exact ⟨_, g, hj.extend s (extends_grown hinv) hend, inService_update hserv
        (inService_of_same hlive (.inl (same_mtp2QueueMsu _ _ _)))⟩
    · rw [mtp2QueueMsu_of_out hout, Function.update_eq_self]
      exact ⟨d, g, hj, hserv⟩
  | pickFrame s =>
    rcases hserv s with hlive | hout
    · obtain ⟨u, k, n, hj'⟩ := hj.pick_su s hlive.1 (.inl hlive.2)
      obtain ⟨rs, hrs⟩ := mtp2PickFrame_frame (x.ends s)
      refine ⟨_, _, hj', inService_update hserv (.inl ?_)⟩
      rw [hrs]
      exact hlive
    · obtain ⟨status, hsame, -, hj'⟩ := hj.pick_lssu s ⟨hout.2.1, hout.2.2⟩
      rw [hsame, Function.update_eq_self]
      exact ⟨d, _, hj', hserv⟩
  | @goodFrame s buf alive f rest m' hf hb hm =>
    obtain ⟨gr, gs, hg, rfl, hchan⟩ := hj.chan_tail hf
    rcases hserv s with hlive | hout
    · cases gr with
      | su u k =>
        have hlong := hj.long (s := s.other) (u := u) (k := k) (by rw [hg]; exact List.mem_cons_self)
        have hinn := hj.inv_other s
        have hinv := hj.inv s
        rw [hg] at hinn hinv
        obtain ⟨out', hext, hend, hst⟩ :=
          (hj.ends s).goodFrame_su hlive.1 hlive.2 hinv hinn hb hlong hm
        exact ⟨_, _, hj.hear hg hchan hext hend, inService_update hserv (inService_of_same hlive hst)⟩
      | lssu f =>
        have hlssu := hj.lssu s.other f (by rw [hg]; exact List.mem_cons_self)
        obtain ⟨hend, hst⟩ := (hj.ends s).goodFrame_lssu hlive.2 hb hlssu hm
        exact ⟨_, _, hj.skip hg hchan hend, inService_update hserv (inService_of_same hlive hst)⟩
    · obtain ⟨ha, hh, hout'⟩ := keepsOut_mtp2GoodFrame hout hm
      exact ⟨_, _, hj.skip hg hchan ((hj.ends s).of_history ha hh hout'.1),
        inService_update hserv (.inr hout')⟩
  | @lose s l hl =>
    obtain ⟨g', -, hj'⟩ := hj.lose hl
    exact ⟨d, g', hj', hserv⟩
  | expire s t alive ht hm => exact absurd he id

/-- **What two joined ends handed over** is in order what they accepted. -/
theorem Joined.handed_prefix {d : Side → Dir Msu} {g : Side → List Gram}
    (h : Joined base d g x) (s : Side) : (x.ends s).handed <+: (x.ends s.other).accepted := by
  rw [(h.ends s).handed, (h.ends s.other).accepted]
  exact List.take_prefix _ _

/-- A frame of the protocol has no illegal BSN. -/
theorem Joined.legal {d : Side → Dir Msu} {g : Side → List Gram} (h : Joined base d g x)
    (hlive : (x.ends s).fails = 0) {f : List Octet} {rest : List (List Octet)} {buf : ℕ → Octet}
    (hf : x.chan s.other = f :: rest) (hb : Holds buf f)
    (hli : ¬ (liOf buf = 1 ∨ liOf buf = 2)) : ¬ illegalBsn (x.ends s) (bsnOf buf) := by
  obtain ⟨gr, gs, hg, rfl, -⟩ := h.chan_tail hf
  cases gr with
  | su u k =>
    have hinv := h.inv s
    rw [hg] at hinv
    exact ((h.ends s).live hlive).1.not_illegalBsn hinv hb.bsnOf.1
  | lssu f =>
    have hlssu := h.lssu s.other f (by rw [hg]; exact List.mem_cons_self)
    exact absurd (hb.lssu hlssu) hli

/-- **Two ends in service.** In every run without timers, from agreeing ends,
each end has handed over a prefix of what the other accepted, and finds no
BSN of a unit illegal. -/
theorem joint_service (c : Side → Link) (evs : List Action) (hx : Agreed x)
    (hrun : Trace (fun x e y => JointStep c x e y ∧ Untimed e) x evs y) :
    (∀ s, (y.ends s).handed <+: (y.ends s.other).accepted) ∧
      ∀ s f rest buf, y.chan s.other = f :: rest → Holds buf f →
        (y.ends s).state = .inservice → ¬ (liOf buf = 1 ∨ liOf buf = 2) →
        ¬ illegalBsn (y.ends s) (bsnOf buf) := by
  obtain ⟨d, g, hj, hserv⟩ :=
    hrun.inv_state hx.serving fun _ _ _ hs hstep => hs.step hstep.1 hstep.2
  refine ⟨hj.handed_prefix, fun s f rest buf hf hb hst hli => ?_⟩
  rcases hserv s with hlive | hout
  · exact hj.legal hlive.1 hf hb hli
  · exact absurd hst hout.2.2

/-- A link in service that has sent nothing. -/
def freshEnd : Mtp2State := { mtpInitLinkData none with state := .inservice }

/-- Two of them. -/
def freshSys : Sys := ⟨fun _ => freshEnd, fun _ => []⟩

theorem agreed_freshSys : Agreed freshSys where
  state := fun _ => rfl
  seq_lt := fun _ => show 127 < 128 by decide
  acked := fun _ => rfl
  bsn := fun _ => rfl
  bib := fun _ => rfl
  idle := fun _ => rfl
  chan := fun _ => rfl
  history := fun _ => ⟨rfl, rfl, rfl⟩

/-- An MSU queued at one end, sent, and received at the other. -/
theorem joint_service_one :
    ∃ (c : Side → Link) (evs : List Action) (y : Sys),
      Trace (fun x e y => JointStep c x e y ∧ Untimed e) freshSys evs y ∧
        (y.ends .right).handed = [⟨5, [1, 2, 3, 4]⟩] ∧
        (y.ends .right).handed <+: (y.ends .left).accepted := by
  let c : Side → Link := fun _ => ⟨.itu, 1, 2, 0, false⟩
  let m1 := mtp2QueueMsu freshEnd 5 [1, 2, 3, 4]
  let f := (mtp2PickFrame m1).2
  let buf : ℕ → Octet := fun i => f.getD i 0
  have hsome : (mtp2GoodFrame (c .right) false freshEnd buf f.length).isSome = true := by decide
  let m2 := (mtp2GoodFrame (c .right) false freshEnd buf f.length).getD freshEnd
  have hm2 : mtp2GoodFrame (c .right) false freshEnd buf f.length = some m2 :=
    (Option.some_get hsome).symm.trans (congrArg some (Option.get_eq_getD _))
  let x1 : Sys := ⟨Function.update freshSys.ends .left m1, freshSys.chan⟩
  let x2 : Sys := ⟨Function.update x1.ends .left (mtp2PickFrame (x1.ends .left)).1,
    Function.update x1.chan .left (x1.chan .left ++ [(mtp2PickFrame (x1.ends .left)).2])⟩
  let x3 : Sys := ⟨Function.update x2.ends .right m2, Function.update x2.chan .left []⟩
  have h1 : JointStep c freshSys (.queueMsu .left 5 [1, 2, 3, 4]) x1 :=
    .queueMsu .left 5 [1, 2, 3, 4] (by decide)
  have h2 : JointStep c x1 (.pickFrame .left) x2 := .pickFrame .left
  have hchan : x2.chan (Side.other .right) = [f] := rfl
  have h3 : JointStep c x2 (.goodFrame .right buf false) x3 :=
    .goodFrame .right buf false hchan (fun _ _ => rfl) hm2
  have hrun : Trace (fun x e y => JointStep c x e y ∧ Untimed e) freshSys
      (([] ++ [.queueMsu .left 5 [1, 2, 3, 4]]) ++ [.pickFrame .left] ++
        [.goodFrame .right buf false]) x3 :=
    ((Trace.nil.snoc ⟨h1, by simp [Untimed]⟩).snoc ⟨h2, trivial⟩).snoc ⟨h3, trivial⟩
  have hhanded : m2.handed = [⟨5, [1, 2, 3, 4]⟩] := by decide
  exact ⟨c, _, x3, hrun, hhanded, (joint_service c _ agreed_freshSys hrun).1 .right⟩

end Mtp2

end Trismedia
