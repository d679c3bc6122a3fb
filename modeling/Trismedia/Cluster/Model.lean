import Mathlib.Algebra.Group.Nat.Defs
import Mathlib.Data.List.Count
import Mathlib.Logic.Function.Basic
import Mathlib.Tactic.SplitIfs
import Trismedia.Common.Trace
/-!
# The cluster

A host sends what its links receive and what is to be forwarded to the other
hosts, `channels/ss7/cluster.c`. It may have several connections to one of
them: a link has a receiver, and a receiver has targets, each an interface of
some host. A packet goes to all targets connected. The host that gets it drops
what has a number not above the last one it has seen from the sender, on
whichever connection.

There is one sender here, and the other hosts keep a number for it. What is
written to a connection arrives, in order; a packet is read as a whole.
-/


namespace Trismedia

namespace Cluster

/-- The types of packets that `cluster_thread_main` sends on, and
`MTP_EVENT_ALIVE`. -/
inductive Typ where
  | reqIsup
  | reqIsupForward
  | eventAlive
  | eventIsup
  deriving DecidableEq

/-- A packet. `number` counts the packets, `seq_no` is an `unsigned long`. -/
structure Packet where
  number : ℕ
  typ : Typ
  deriving DecidableEq

def Packet.seqNo (p : Packet) : ℕ := p.number % 2 ^ 64

/-- A type that the handler is called for. -/
def Typ.handled (typ : Typ) : Bool := typ = .eventIsup ∨ typ = .reqIsupForward

/-- Of `receiver_stats` what belongs to a target: the connection if it is
connected, and a count for the statistics. -/
structure TargetStat where
  connected : Option ℕ
  forwards : ℕ

/-- `this_host->receivers` -/
structure Config where
  nReceivers : ℕ
  /-- The hosts of the targets of a receiver. -/
  targets : ℕ → List ℕ

/-- `receiver_stats` and what is on the connections. -/
structure Lines where
  stat : ℕ → ℕ → TargetStat
  queue : ℕ → List Packet

/-- A packet sent to the targets of a receiver, and the hosts connected
then. -/
structure Sent where
  packet : Packet
  hosts : List ℕ

/-- The sender, the connections, and by host what it keeps and was passed to
its handler; and the history of what was sent and what has arrived, ever and
since the last accept. -/
structure State where
  sequenceNumber : ℕ
  lines : Lines
  connHost : ℕ → ℕ
  accepted : ℕ → Bool
  connections : ℕ
  hostLastSeqNo : ℕ → ℕ
  passed : ℕ → List Packet
  sent : List Sent
  arrived : ℕ → List Packet
  recent : ℕ → List Packet

/-! ## The sender -/

/-- `cluster_send_packet` -/
def clusterSendPacket (l : Lines) (receiverix targetix : ℕ) (p : Packet) : Lines :=
  match (l.stat receiverix targetix).connected with
  | none => l
  | some fd => { l with queue := Function.update l.queue fd (l.queue fd ++ [p]) }

/-- A forward is counted. -/
def countForward (l : Lines) (receiverix targetix : ℕ) : Lines :=
  let stat := l.stat receiverix targetix
  { l with
    stat := Function.update l.stat receiverix
      (Function.update (l.stat receiverix) targetix { stat with forwards := stat.forwards + 1 }) }

/-- The loop of `cluster_send_packets` over the targets left, with the host of
`firstsendix`. Only the count is subject to the test for forwards. -/
def sendTargets (receiverix : ℕ) (p : Packet) : List (ℕ × ℕ) → Option ℕ → Lines → Lines
  | [], _, l => l
  | (host, targetix) :: rest, first, l =>
    if (l.stat receiverix targetix).connected.isSome then
      let firstHost := first.getD host
      let l :=
        if p.typ ≠ .reqIsupForward ∨ p.typ = .reqIsupForward ∧ host = firstHost then
          if p.typ = .reqIsupForward then countForward l receiverix targetix else l
        else l
      sendTargets receiverix p rest (some firstHost) (clusterSendPacket l receiverix targetix p)
    else sendTargets receiverix p rest first l

/-- The hosts a receiver has a target connected to. -/
def connectedHosts (c : Config) (l : Lines) (receiverix : ℕ) : List ℕ :=
  ((c.targets receiverix).zipIdx.filter fun t => (l.stat receiverix t.2).connected.isSome).map
    Prod.fst

/-- `cluster_send_packets` -/
def clusterSendPackets (c : Config) (x : State) (receiverix : ℕ) (typ : Typ) : State :=
  let p : Packet := ⟨x.sequenceNumber, typ⟩
  { x with
    sequenceNumber := x.sequenceNumber + 1
    lines := sendTargets receiverix p (c.targets receiverix).zipIdx none x.lines
    sent := x.sent ++ [⟨p, connectedHosts c x.lines receiverix⟩] }

/-- `cluster_send_keep_alive`; `due` are the targets with nothing sent for
some time. -/
def clusterSendKeepAlive (c : Config) (x : State) (due : ℕ → ℕ → Bool) : State :=
  let p : Packet := ⟨x.sequenceNumber, .eventAlive⟩
  { x with
    sequenceNumber := x.sequenceNumber + 1
    lines := (List.range c.nReceivers).foldl
      (fun l receiverix => (c.targets receiverix).zipIdx.foldl
        (fun l t => if due receiverix t.2 then clusterSendPacket l receiverix t.2 p else l) l)
      x.lines }

/-! ## The other hosts -/

/-- `cluster_receive_packet` at a host: the number it keeps, and whether the
handler is called. -/
def clusterReceivePacket (lastSeqNo : ℕ) (p : Packet) : ℕ × Bool :=
  if lastSeqNo ≥ p.seqNo then (lastSeqNo, false) else (p.seqNo, p.typ.handled)

/-- A packet arrives at a host. -/
def State.receive (x : State) (host : ℕ) (p : Packet) : State :=
  let r := clusterReceivePacket (x.hostLastSeqNo host) p
  { x with
    hostLastSeqNo := Function.update x.hostLastSeqNo host r.1
    passed := if r.2 then Function.update x.passed host (x.passed host ++ [p]) else x.passed
    arrived := Function.update x.arrived host (x.arrived host ++ [p])
    recent := Function.update x.recent host (x.recent host ++ [p]) }

/-! ## Runs -/

/-- What happens: a packet of a link is sent, keep alives are due, a target is
connected, its connection is closed; a connection is accepted, the next packet
of one is read. -/
inductive Event where
  | send (receiverix : ℕ) (typ : Typ)
  | keepAlive (due : ℕ → ℕ → Bool)
  | connect (receiverix targetix : ℕ)
  | disconnect (receiverix targetix : ℕ)
  | accept (fd : ℕ)
  | arrive (fd : ℕ)

/-- The stat of a target with another connection. -/
def Lines.connect (l : Lines) (receiverix targetix : ℕ) (fd : Option ℕ) : Lines :=
  { l with
    stat := Function.update l.stat receiverix
      (Function.update (l.stat receiverix) targetix
        { l.stat receiverix targetix with connected := fd }) }

/-- One event. Packets are read from a connection once it is accepted; the
number kept for the sender is then 0. -/
def step (c : Config) (x : State) : Event → Option State
  | .send receiverix typ =>
    if typ ≠ .eventAlive then some (clusterSendPackets c x receiverix typ) else none
  | .keepAlive due => some (clusterSendKeepAlive c x due)
  | .connect receiverix targetix =>
    match (c.targets receiverix)[targetix]?, (x.lines.stat receiverix targetix).connected with
    | some host, none =>
      some
        { x with
          lines := x.lines.connect receiverix targetix (some x.connections)
          connHost := Function.update x.connHost x.connections host
          connections := x.connections + 1 }
    | _, _ => none
  | .disconnect receiverix targetix =>
    some { x with lines := x.lines.connect receiverix targetix none }
  | .accept fd =>
    if fd < x.connections ∧ x.accepted fd = false then
      some
        { x with
          accepted := Function.update x.accepted fd true
          hostLastSeqNo := Function.update x.hostLastSeqNo (x.connHost fd) 0
          recent := Function.update x.recent (x.connHost fd) [] }
    else none
  | .arrive fd =>
    match x.accepted fd, x.lines.queue fd with
    | true, p :: rest =>
      some
        ({ x with lines := { x.lines with queue := Function.update x.lines.queue fd rest } }.receive
          (x.connHost fd) p)
    | _, _ => none

/-- Nothing sent yet. -/
def State.init : State where
  sequenceNumber := 0
  lines := ⟨fun _ _ => ⟨none, 0⟩, fun _ => []⟩
  connHost := fun _ => 0
  accepted := fun _ => false
  connections := 0
  hostLastSeqNo := fun _ => 0
  passed := fun _ => []
  sent := []
  arrived := fun _ => []
  recent := fun _ => []

end Cluster

/-!
## Packets passed once

A host passes a packet to its handler exactly once if the first copy of each
packet arrives before all those with larger numbers, on whatever connection,
and no further copy arrives as the first since an accept. Numbers begin at 0,
which no host takes. A packet to be forwarded goes to every host connected, as
the test for the one host to forward it guards the count only.
-/

namespace Cluster

variable {c : Config} {x y : State} {l l' : Lines} {p q : Packet} {e : Event} {h fd : ℕ}

/-! ## What is wanted -/

/-- A copy of the packet is on its way to the host. -/
def State.InFlight (x : State) (host : ℕ) (p : Packet) : Prop :=
  ∃ fd, x.connHost fd = host ∧ p ∈ x.lines.queue fd

/-- **A packet passed once**: an event at each host that was connected, a
packet to be forwarded at one of them; at no other, and not twice. If no copy
is on its way any more it has been passed. -/
structure Once (x : State) (s : Sent) : Prop where
  isup : s.packet.typ = .eventIsup → ∀ host,
    (x.passed host).count s.packet ≤ (if host ∈ s.hosts then 1 else 0) ∧
      (host ∈ s.hosts → ¬ x.InFlight host s.packet → (x.passed host).count s.packet = 1)
  forward : s.packet.typ = .reqIsupForward → s.hosts ≠ [] → ∃ host ∈ s.hosts,
    (∀ other, other ≠ host → (x.passed other).count s.packet = 0) ∧
      (x.passed host).count s.packet ≤ 1 ∧
      (¬ x.InFlight host s.packet → (x.passed host).count s.packet = 1)

/-- **The order of arrivals that works.** A packet to be forwarded is sent when
one host is connected. The first copy of a packet has a number that is not 0
and larger than all that arrived since the last accept, a further copy has
not. -/
def InOrder (c : Config) (x : State) : Event → Prop
  | .send receiverix .reqIsupForward =>
    ∀ host ∈ connectedHosts c x.lines receiverix, ∀ other ∈ connectedHosts c x.lines receiverix,
      host = other
  | .arrive fd =>
    match x.lines.queue fd with
    | [] => True
    | p :: _ => p.typ.handled = true →
      if p ∈ x.arrived (x.connHost fd) then ∃ q ∈ x.recent (x.connHost fd), p.seqNo ≤ q.seqNo
      else p.seqNo ≠ 0 ∧ ∀ q ∈ x.recent (x.connHost fd), q.seqNo < p.seqNo
  | _ => True

instance : Decidable (InOrder c x e) := by
  unfold InOrder
  split
  · infer_instance
  · split <;> infer_instance
  · infer_instance

/-- An event happens. -/
def Moves (c : Config) (x : State) (e : Event) (y : State) : Prop := step c x e = some y

/-- An event happens, in order. -/
def MovesInOrder (c : Config) (x : State) (e : Event) (y : State) : Prop :=
  Moves c x e y ∧ InOrder c x e

/-! ## What the sender puts on the connections -/

/-- The packet is put on some of the connections `dest`, and nothing else
changes of them. -/
structure Puts (p : Packet) (dest : ℕ → Prop) (l l' : Lines) : Prop where
  connected : ∀ r i, (l'.stat r i).connected = (l.stat r i).connected
  keeps : ∀ fd q, q ∈ l.queue fd → q ∈ l'.queue fd
  new : ∀ fd q, q ∈ l'.queue fd → q ∈ l.queue fd ∨ q = p ∧ dest fd

variable {dest : ℕ → Prop}

theorem Puts.refl (p : Packet) (dest : ℕ → Prop) (l : Lines) : Puts p dest l l :=
  ⟨fun _ _ => rfl, fun _ _ hq => hq, fun _ _ hq => .inl hq⟩

theorem Puts.trans {m : Lines} (h : Puts p dest l m) (h' : Puts p dest m l') : Puts p dest l l' := by
  refine ⟨fun r i => (h'.connected r i).trans (h.connected r i),
    fun fd q hq => h'.keeps fd q (h.keeps fd q hq), fun fd q hq => ?_⟩
  rcases h'.new fd q hq with hm | hp
  · exact h.new fd q hm
  · exact .inr hp

theorem mem_clusterSendPacket {r i : ℕ} :
    q ∈ (clusterSendPacket l r i p).queue fd ↔
      q ∈ l.queue fd ∨ q = p ∧ (l.stat r i).connected = some fd := by
  unfold clusterSendPacket
  cases hconn : (l.stat r i).connected with
  | none => simp
  | some fd' =>
    by_cases heq : fd = fd'
    · subst heq
      simp
    · have hne : fd' ≠ fd := fun h => heq h.symm
      simp [Function.update_of_ne heq, hne]

theorem stat_clusterSendPacket (l : Lines) (r i : ℕ) (p : Packet) :
    (clusterSendPacket l r i p).stat = l.stat := by
  unfold clusterSendPacket
  cases (l.stat r i).connected <;> rfl

theorem puts_clusterSendPacket {r i : ℕ} (hto : ∀ fd, (l.stat r i).connected = some fd → dest fd) :
    Puts p dest l (clusterSendPacket l r i p) := by
  refine ⟨fun r' i' => by rw [stat_clusterSendPacket], fun fd q hq => ?_, fun fd q hq => ?_⟩
  · exact mem_clusterSendPacket.2 (.inl hq)
  · rcases mem_clusterSendPacket.1 hq with hold | ⟨rfl, hconn⟩
    · exact .inl hold
    · exact .inr ⟨rfl, hto fd hconn⟩

theorem connected_countForward (l : Lines) (r i r' i' : ℕ) :
    ((countForward l r i).stat r' i').connected = (l.stat r' i').connected := by
  unfold countForward
  by_cases hr : r' = r
  · subst hr
    by_cases hi : i' = i
    · subst hi
      simp
    · simp [Function.update_of_ne hi]
  · simp [Function.update_of_ne hr]

/-- **All targets connected get the packet**, a forward too. -/
theorem puts_sendTargets {r : ℕ} (dest : ℕ → Prop) (p : Packet) (ts : List (ℕ × ℕ)) : ∀ (first : Option ℕ) (l : Lines),
    (∀ t ∈ ts, ∀ fd, (l.stat r t.2).connected = some fd → dest fd) →
      Puts p dest l (sendTargets r p ts first l) ∧
        ∀ t ∈ ts, ∀ fd, (l.stat r t.2).connected = some fd →
          p ∈ (sendTargets r p ts first l).queue fd := by
  induction ts with
  | nil =>
    intro first l _
    exact ⟨.refl p dest l, fun t ht => absurd ht List.not_mem_nil⟩
  | cons t ts ih =>
    obtain ⟨host, i⟩ := t
    intro first l hto
    cases hconn : (l.stat r i).connected with
    | none =>
      obtain ⟨hputs, hall⟩ := ih first l fun t ht => hto t (List.mem_cons_of_mem _ ht)
      have hskip : sendTargets r p ((host, i) :: ts) first l = sendTargets r p ts first l := by
        simp [sendTargets, hconn]
      rw [hskip]
      refine ⟨hputs, fun t ht fd hfd => ?_⟩
      rcases List.mem_cons.1 ht with rfl | ht
      · rw [hconn] at hfd
        exact absurd hfd (by simp)
      · exact hall t ht fd hfd
    | some fd' =>
      -- the lines with the forward counted, or not
      obtain ⟨m, hm, hsame, hqueue⟩ : ∃ m, sendTargets r p ((host, i) :: ts) first l =
          sendTargets r p ts (some (first.getD host)) (clusterSendPacket m r i p) ∧
            (∀ r' i', (m.stat r' i').connected = (l.stat r' i').connected) ∧
              m.queue = l.queue := by
        refine ⟨_, by simp only [sendTargets, hconn, Option.isSome_some, reduceIte]; rfl, ?_, ?_⟩
        · intro r' i'
          split_ifs
          · exact connected_countForward l r i r' i'
          · rfl
          · rfl
        · split_ifs <;> rfl
      have hfirst : Puts p dest l m :=
        ⟨hsame, fun fd q hq => hqueue ▸ hq, fun fd q hq => .inl (hqueue ▸ hq)⟩
      have hsecond : Puts p dest m (clusterSendPacket m r i p) := by
        refine puts_clusterSendPacket fun fd hfd => ?_
        rw [hsame] at hfd
        exact hto (host, i) List.mem_cons_self fd hfd
      have hboth := hfirst.trans hsecond
      obtain ⟨hputs, hall⟩ := ih (some (first.getD host)) (clusterSendPacket m r i p)
        fun t ht fd hfd => hto t (List.mem_cons_of_mem _ ht) fd (hboth.connected r t.2 ▸ hfd)
      rw [hm]
      refine ⟨hboth.trans hputs, fun t ht fd hfd => ?_⟩
      rcases List.mem_cons.1 ht with rfl | ht
      · refine hputs.keeps fd p (mem_clusterSendPacket.2 (.inr ⟨rfl, ?_⟩))
        rw [hsame]
        exact hfd
      · exact hall t ht fd ((hboth.connected r t.2).trans hfd)

theorem puts_keepAlive (dest : ℕ → Prop) (c : Config) (due : ℕ → ℕ → Bool) (p : Packet) (l : Lines)
    (hto : ∀ r i fd, (l.stat r i).connected = some fd → dest fd) :
    Puts p dest l ((List.range c.nReceivers).foldl
      (fun l r => (c.targets r).zipIdx.foldl
        (fun l t => if due r t.2 then clusterSendPacket l r t.2 p else l) l) l) := by
  have hone : ∀ (r i : ℕ) (m : Lines), Puts p dest l m →
      Puts p dest l (if due r i then clusterSendPacket m r i p else m) := by
    intro r i m hm
    split_ifs
    · exact hm.trans (puts_clusterSendPacket fun fd hfd =>
        hto r i fd ((hm.connected r i).symm.trans hfd))
    · exact hm
  have htargets : ∀ (r : ℕ) (ts : List (ℕ × ℕ)) (m : Lines), Puts p dest l m → Puts p dest l
      (ts.foldl (fun l t => if due r t.2 then clusterSendPacket l r t.2 p else l) m) := by
    intro r ts
    induction ts with
    | nil => exact fun m hm => hm
    | cons t ts ih => exact fun m hm => ih _ (hone r t.2 m hm)
  have hreceivers : ∀ (rs : List ℕ) (m : Lines), Puts p dest l m → Puts p dest l
      (rs.foldl (fun l r => (c.targets r).zipIdx.foldl
        (fun l t => if due r t.2 then clusterSendPacket l r t.2 p else l) l) m) := by
    intro rs
    induction rs with
    | nil => exact fun m hm => hm
    | cons r rs ih => exact fun m hm => ih _ (htargets r _ m hm)
  exact hreceivers _ l (.refl p dest l)

/-! ## The invariant -/

/-- **What runs in order keep.** A connected target's connection leads to its
host; a packet on the way or arrived is known as sent, one sent has arrived or
is on its way; the number kept is the largest since the last accept; and
exactly the packets arrived have been passed, once. -/
structure Kept (c : Config) (x : State) : Prop where
  connHost : ∀ r i fd, (x.lines.stat r i).connected = some fd →
    fd < x.connections ∧ (c.targets r)[i]? = some (x.connHost fd)
  queued : ∀ fd p, p ∈ x.lines.queue fd → fd < x.connections
  number : ∀ s ∈ x.sent, s.packet.number < x.sequenceNumber
  unique : ∀ s ∈ x.sent, ∀ s' ∈ x.sent, s.packet = s'.packet → s = s'
  known : ∀ host p, p ∈ x.arrived host ∨ x.InFlight host p → p.typ ≠ .eventAlive →
    ∃ s ∈ x.sent, s.packet = p ∧ host ∈ s.hosts
  reaches : ∀ s ∈ x.sent, ∀ host ∈ s.hosts, s.packet ∈ x.arrived host ∨ x.InFlight host s.packet
  last : ∀ host, (∀ p ∈ x.recent host, p.seqNo ≤ x.hostLastSeqNo host) ∧
    (x.hostLastSeqNo host = 0 ∨ ∃ p ∈ x.recent host, p.seqNo = x.hostLastSeqNo host)
  passed : ∀ host p, (x.passed host).count p =
    if p ∈ x.arrived host ∧ p.typ.handled = true then 1 else 0
  forward : ∀ s ∈ x.sent, s.packet.typ = .reqIsupForward →
    ∀ host ∈ s.hosts, ∀ other ∈ s.hosts, host = other

/-- The packet is passed once. -/
theorem Kept.once (hk : Kept c x) {s : Sent} (hs : s ∈ x.sent) : Once x s := by
  have hcount : s.packet.typ.handled = true → ∀ host,
      (x.passed host).count s.packet ≤ (if host ∈ s.hosts then 1 else 0) ∧
        (host ∈ s.hosts → ¬ x.InFlight host s.packet → (x.passed host).count s.packet = 1) := by
    intro hhandled host
    have halive : s.packet.typ ≠ .eventAlive := by
      intro htyp
      rw [htyp] at hhandled
      exact absurd hhandled (by decide)
    rw [hk.passed host s.packet]
    constructor
    · by_cases harr : s.packet ∈ x.arrived host
      · obtain ⟨s', hs', hpacket, hhost⟩ := hk.known host _ (.inl harr) halive
        obtain rfl := hk.unique s' hs' s hs hpacket
        simp [harr, hhandled, hhost]
      · simp [harr]
    · intro hhost hflight
      have harr := (hk.reaches s hs host hhost).resolve_right hflight
      rw [if_pos ⟨harr, hhandled⟩]
  constructor
  · intro htyp
    exact hcount (by rw [htyp]; rfl)
  · intro htyp hne
    have hone := hcount (by rw [htyp]; rfl)
    obtain ⟨host, hhost⟩ := List.exists_mem_of_ne_nil _ hne
    refine ⟨host, hhost, fun other hother => ?_, ?_, (hone host).2 hhost⟩
    · have hnot : other ∉ s.hosts := fun hmem => hother (hk.forward s hs htyp other hmem host hhost)
      have hle := (hone other).1
      rw [if_neg hnot] at hle
      omega
    · have hle := (hone host).1
      rwa [if_pos hhost] at hle

/-! ## One event -/

/-- Lines with a new packet, sent to some hosts or not at all. -/
theorem Kept.puts (hk : Kept c x) {typ : Typ} {l : Lines} {dest : ℕ → Prop} {sent : List Sent}
    (hosts : List ℕ) (hputs : Puts ⟨x.sequenceNumber, typ⟩ dest x.lines l)
    (hdest : ∀ fd, dest fd → fd < x.connections ∧
      (typ ≠ .eventAlive → x.connHost fd ∈ hosts))
    (hsent : ∀ s, s ∈ sent ↔ s ∈ x.sent ∨ typ ≠ .eventAlive ∧ s = ⟨⟨x.sequenceNumber, typ⟩, hosts⟩)
    (hreaches : ∀ host ∈ hosts, ∃ fd, x.connHost fd = host ∧ ⟨x.sequenceNumber, typ⟩ ∈ l.queue fd)
    (hforward : typ = .reqIsupForward → ∀ host ∈ hosts, ∀ other ∈ hosts, host = other) :
    Kept c { x with sequenceNumber := x.sequenceNumber + 1, lines := l, sent := sent } := by
  have hold : ∀ s ∈ x.sent, s.packet ≠ ⟨x.sequenceNumber, typ⟩ := by
    intro s hs heq
    have hlt := hk.number s hs
    rw [heq] at hlt
    exact Nat.lt_irrefl _ hlt
  refine ⟨fun r i fd hfd => ?_, fun fd q hq => ?_, fun s hs => ?_, fun s hs s' hs' heq => ?_,
    fun host q hq halive => ?_, fun s hs host hhost => ?_, hk.last, hk.passed, fun s hs htyp => ?_⟩
  · rw [hputs.connected] at hfd
    exact hk.connHost r i fd hfd
  · rcases hputs.new fd q hq with hq | ⟨-, hfd⟩
    · exact hk.queued fd q hq
    · exact (hdest fd hfd).1
  · rcases (hsent s).1 hs with hs | ⟨-, rfl⟩
    · exact Nat.lt_succ_of_lt (hk.number s hs)
    · exact Nat.lt_succ_self _
  · rcases (hsent s).1 hs with hs | ⟨-, rfl⟩ <;> rcases (hsent s').1 hs' with hs' | ⟨-, rfl⟩
    · exact hk.unique s hs s' hs' heq
    · exact absurd heq (hold s hs)
    · exact absurd heq.symm (hold s' hs')
    · rfl
  · have hcases : (q ∈ x.arrived host ∨ x.InFlight host q) ∨
        q = ⟨x.sequenceNumber, typ⟩ ∧ ∃ fd, x.connHost fd = host ∧ dest fd := by
      rcases hq with hq | ⟨fd, hhost, hq⟩
      · exact .inl (.inl hq)
      · rcases hputs.new fd q hq with hq | ⟨hq, hfd⟩
        · exact .inl (.inr ⟨fd, hhost, hq⟩)
        · exact .inr ⟨hq, fd, hhost, hfd⟩
    rcases hcases with hq | ⟨rfl, fd, rfl, hfd⟩
    · obtain ⟨s, hs, hpacket, hhost⟩ := hk.known host q hq halive
      exact ⟨s, (hsent s).2 (.inl hs), hpacket, hhost⟩
    · exact ⟨_, (hsent _).2 (.inr ⟨halive, rfl⟩), rfl, (hdest fd hfd).2 halive⟩
  · rcases (hsent s).1 hs with hs | ⟨-, rfl⟩
    · rcases hk.reaches s hs host hhost with harr | ⟨fd, hfd, hq⟩
      · exact .inl harr
      · exact .inr ⟨fd, hfd, hputs.keeps fd _ hq⟩
    · exact .inr (hreaches host hhost)
  · rcases (hsent s).1 hs with hs | ⟨-, rfl⟩
    · exact hk.forward s hs htyp
    · exact hforward htyp

/-- The handler is called for the first copy of a packet, for no other. -/
theorem clusterReceivePacket_iff (hk : Kept c x) {rest : List Packet}
    (hq : x.lines.queue fd = p :: rest) (horder : InOrder c x (.arrive fd)) :
    (clusterReceivePacket (x.hostLastSeqNo (x.connHost fd)) p).2 = true ↔
      p.typ.handled = true ∧ p ∉ x.arrived (x.connHost fd) := by
  obtain ⟨hle, hmax⟩ := hk.last (x.connHost fd)
  by_cases hhandled : p.typ.handled = true
  · have hin := horder
    simp only [InOrder, hq] at hin
    have hin := hin hhandled
    unfold clusterReceivePacket
    by_cases harr : p ∈ x.arrived (x.connHost fd)
    · rw [if_pos harr] at hin
      obtain ⟨q, hrecent, hge⟩ := hin
      have hlast := hle q hrecent
      rw [if_pos (by omega)]
      simp [harr]
    · rw [if_neg harr] at hin
      obtain ⟨hzero, hlt⟩ := hin
      have hlast : x.hostLastSeqNo (x.connHost fd) < p.seqNo := by
        rcases hmax with hz | ⟨q, hrecent, heq⟩
        · omega
        · rw [← heq]
          exact hlt q hrecent
      rw [if_neg (by omega)]
      simp [hhandled, harr]
  · unfold clusterReceivePacket
    split_ifs <;> simp [hhandled]

/-- One more is passed if the handler is called. -/
theorem count_receive (x : State) (dest host : ℕ) (p q : Packet) :
    ((x.receive dest p).passed host).count q = (x.passed host).count q +
      if (clusterReceivePacket (x.hostLastSeqNo dest) p).2 = true ∧ host = dest ∧ q = p then 1
      else 0 := by
  simp only [State.receive]
  by_cases hcall : (clusterReceivePacket (x.hostLastSeqNo dest) p).2 = true
  · rw [if_pos hcall]
    by_cases hhost : host = dest
    · subst hhost
      rw [Function.update_self, List.count_append, List.count_singleton]
      simp only [hcall, beq_iff_eq, true_and, @eq_comm _ q p]
    · simp [hhost]
  · simp [hcall]

theorem Kept.receive (hk : Kept c x) {rest : List Packet} (hq : x.lines.queue fd = p :: rest)
    (horder : InOrder c x (.arrive fd)) :
    Kept c ({ x with lines := { x.lines with queue := Function.update x.lines.queue fd rest } }.receive
      (x.connHost fd) p) := by
  have hpassed := clusterReceivePacket_iff hk hq horder
  -- what is left on the connections, and what has arrived
  have hleft : ∀ fd' q, q ∈ Function.update x.lines.queue fd rest fd' → q ∈ x.lines.queue fd' := by
    intro fd' q hmem
    by_cases heq : fd' = fd
    · subst heq
      rw [Function.update_self] at hmem
      rw [hq]
      exact List.mem_cons_of_mem _ hmem
    · rwa [Function.update_of_ne heq] at hmem
  have hhere : ∀ fd' q, q ∈ x.lines.queue fd' →
      q ∈ Function.update x.lines.queue fd rest fd' ∨ fd' = fd ∧ q = p := by
    intro fd' q hmem
    by_cases heq : fd' = fd
    · subst heq
      rw [hq] at hmem
      rw [Function.update_self]
      rcases List.mem_cons.1 hmem with rfl | hmem
      · exact .inr ⟨rfl, rfl⟩
      · exact .inl hmem
    · rw [Function.update_of_ne heq]
      exact .inl hmem
  have harrived : ∀ host q, q ∈ Function.update x.arrived (x.connHost fd)
      (x.arrived (x.connHost fd) ++ [p]) host ↔
        q ∈ x.arrived host ∨ host = x.connHost fd ∧ q = p := by
    intro host q
    by_cases heq : host = x.connHost fd
    · subst heq
      simp
    · simp [heq]
  have hflight : x.InFlight (x.connHost fd) p := ⟨fd, rfl, by rw [hq]; exact List.mem_cons_self⟩
  refine ⟨hk.connHost, fun fd' q hmem => hk.queued fd' q (hleft fd' q hmem), hk.number, hk.unique,
    fun host q hmem halive => ?_, fun s hs host hhost => ?_, fun host => ?_, fun host q => ?_,
    hk.forward⟩
  · refine hk.known host q ?_ halive
    rcases hmem with hmem | ⟨fd', hhost, hmem⟩
    · rcases (harrived host q).1 hmem with harr | ⟨rfl, rfl⟩
      · exact .inl harr
      · exact .inr hflight
    · exact .inr ⟨fd', hhost, hleft fd' q hmem⟩
  · rcases hk.reaches s hs host hhost with harr | ⟨fd', hfd', hmem⟩
    · exact .inl ((harrived host _).2 (.inl harr))
    · rcases hhere fd' _ hmem with hmem | ⟨rfl, heq⟩
      · exact .inr ⟨fd', hfd', hmem⟩
      · exact .inl ((harrived host _).2 (.inr ⟨hfd'.symm, heq⟩))
  · simp only [State.receive, clusterReceivePacket]
    by_cases heq : host = x.connHost fd
    · subst heq
      obtain ⟨hle, hmax⟩ := hk.last (x.connHost fd)
      simp only [Function.update_self, List.mem_append, List.mem_singleton]
      split_ifs with hge
      · refine ⟨fun q hmem => ?_, ?_⟩
        · rcases hmem with hmem | rfl
          · exact hle q hmem
          · exact hge
        · rcases hmax with hz | ⟨q, hmem, heq⟩
          · exact .inl hz
          · exact .inr ⟨q, .inl hmem, heq⟩
      · refine ⟨fun q hmem => ?_, .inr ⟨p, .inr rfl, rfl⟩⟩
        rcases hmem with hmem | rfl
        · have hlast := hle q hmem
          omega
        · exact Nat.le_refl _
    · simp only [Function.update_of_ne heq]
      exact hk.last host
  · rw [count_receive]
    have hold := hk.passed host q
    simp only [State.receive, harrived] at hold ⊢
    rw [hold]
    by_cases hsame : host = x.connHost fd ∧ q = p
    · obtain ⟨rfl, rfl⟩ := hsame
      by_cases hhandled : q.typ.handled = true
      · by_cases harr : q ∈ x.arrived (x.connHost fd)
        · simp [harr, hpassed]
        · simp [harr, hhandled, hpassed]
      · simp [hhandled, hpassed]
    · have hnot : ¬ ((clusterReceivePacket (x.hostLastSeqNo (x.connHost fd)) p).2 = true ∧
          host = x.connHost fd ∧ q = p) := fun h => hsame h.2
      rw [if_neg hnot, Nat.add_zero]
      simp [hsame]

theorem mem_connectedHosts {r host : ℕ} : host ∈ connectedHosts c l r ↔
    ∃ i, (c.targets r)[i]? = some host ∧ (l.stat r i).connected.isSome = true := by
  simp only [connectedHosts, List.mem_map, List.mem_filter, Prod.exists,
    List.mk_mem_zipIdx_iff_getElem?]
  constructor
  · rintro ⟨host, i, h, rfl⟩
    exact ⟨i, h⟩
  · rintro ⟨i, h⟩
    exact ⟨host, i, h, rfl⟩

theorem Kept.send (hk : Kept c x) {r : ℕ} {typ : Typ} (htyp : typ ≠ .eventAlive)
    (horder : InOrder c x (.send r typ)) : Kept c (clusterSendPackets c x r typ) := by
  let dest : ℕ → Prop := fun fd => ∃ i, (x.lines.stat r i).connected = some fd
  obtain ⟨hputs, hall⟩ := puts_sendTargets dest ⟨x.sequenceNumber, typ⟩
    (c.targets r).zipIdx none x.lines fun t _ fd hfd => ⟨t.2, hfd⟩
  refine hk.puts (connectedHosts c x.lines r) hputs (fun fd ⟨i, hfd⟩ => ?_) (fun s => ?_) (fun host hhost => ?_) fun hforward => ?_
  · obtain ⟨hlt, htarget⟩ := hk.connHost r i fd hfd
    exact ⟨hlt, fun _ => mem_connectedHosts.2 ⟨i, htarget, by rw [hfd]; rfl⟩⟩
  · simp [htyp]
  · obtain ⟨i, htarget, hconn⟩ := mem_connectedHosts.1 hhost
    obtain ⟨fd, hfd⟩ := Option.isSome_iff_exists.1 hconn
    refine ⟨fd, ?_, hall (host, i) (List.mk_mem_zipIdx_iff_getElem?.2 htarget) fd hfd⟩
    have hhost' := (hk.connHost r i fd hfd).2
    rw [htarget] at hhost'
    exact (Option.some.inj hhost').symm
  · subst hforward
    exact horder

theorem Kept.keepAlive (hk : Kept c x) (due : ℕ → ℕ → Bool) :
    Kept c (clusterSendKeepAlive c x due) := by
  let dest : ℕ → Prop := fun fd => ∃ r i, (x.lines.stat r i).connected = some fd
  have hputs := puts_keepAlive dest c due ⟨x.sequenceNumber, .eventAlive⟩ x.lines
    fun r i fd hfd => ⟨r, i, hfd⟩
  refine hk.puts [] hputs (fun fd ⟨r, i, hfd⟩ => ⟨(hk.connHost r i fd hfd).1, ?_⟩)
    (fun s => by simp) (fun host hhost => absurd hhost List.not_mem_nil) fun htyp => ?_
  · exact fun halive => absurd rfl halive
  · exact absurd htyp (by decide)

/-- The stat of the targets when one is connected anew, or no more. -/
theorem connected_connect {r i r' i' : ℕ} {conn : Option ℕ} :
    ((l.connect r i conn).stat r' i').connected =
      if r' = r ∧ i' = i then conn else (l.stat r' i').connected := by
  unfold Lines.connect
  by_cases hr : r' = r
  · subst hr
    by_cases hi : i' = i
    · subst hi
      simp
    · simp [hi]
  · simp [hr]

theorem Kept.connect (hk : Kept c x) {r i host : ℕ} (htarget : (c.targets r)[i]? = some host) :
    Kept c { x with
      lines := x.lines.connect r i (some x.connections)
      connHost := Function.update x.connHost x.connections host
      connections := x.connections + 1 } := by
  have hsame : ∀ fd, fd < x.connections →
      Function.update x.connHost x.connections host fd = x.connHost fd := fun fd hlt =>
    Function.update_of_ne (by omega) _ _
  have hflight : ∀ host' p, State.InFlight { x with
      lines := x.lines.connect r i (some x.connections)
      connHost := Function.update x.connHost x.connections host
      connections := x.connections + 1 } host' p ↔ x.InFlight host' p := by
    refine fun host' p => ⟨fun ⟨fd, hfd, hq⟩ => ⟨fd, ?_, hq⟩, fun ⟨fd, hfd, hq⟩ => ⟨fd, ?_, hq⟩⟩
    · exact (hsame fd (hk.queued fd p hq)).symm.trans hfd
    · exact (hsame fd (hk.queued fd p hq)).trans hfd
  refine ⟨fun r' i' fd hfd => ?_, fun fd p hq => ?_, hk.number, hk.unique, fun host' p hq => ?_,
    fun s hs host' hhost => ?_, hk.last, hk.passed, hk.forward⟩
  · simp only [connected_connect] at hfd
    split_ifs at hfd with heq
    · obtain ⟨rfl, rfl⟩ := heq
      obtain rfl := Option.some.inj hfd
      simp only [Function.update_self]
      exact ⟨Nat.lt_succ_self _, htarget⟩
    · obtain ⟨hlt, hhost⟩ := hk.connHost r' i' fd hfd
      exact ⟨Nat.lt_succ_of_lt hlt, by simp only [hsame fd hlt]; exact hhost⟩
  · exact Nat.lt_succ_of_lt (hk.queued fd p hq)
  · rw [hflight] at hq
    exact hk.known host' p hq
  · rw [hflight]
    exact hk.reaches s hs host' hhost

theorem Kept.step (hk : Kept c x) (h : Moves c x e y) (horder : InOrder c x e) : Kept c y := by
  unfold Moves at h
  cases e with
  | send r typ =>
    simp only [Cluster.step] at h
    split_ifs at h with htyp
    obtain rfl := Option.some.inj h
    exact hk.send htyp horder
  | keepAlive due =>
    obtain rfl := Option.some.inj h
    exact hk.keepAlive due
  | connect r i =>
    simp only [Cluster.step] at h
    split at h
    next host htarget _ =>
      obtain rfl := Option.some.inj h
      exact hk.connect htarget
    next => exact absurd h (by simp)
  | disconnect r i =>
    obtain rfl := Option.some.inj h
    refine ⟨fun r' i' fd hfd => ?_, hk.queued, hk.number, hk.unique, hk.known, hk.reaches, hk.last,
      hk.passed, hk.forward⟩
    simp only [connected_connect] at hfd
    split_ifs at hfd
    exact hk.connHost r' i' fd hfd
  | accept fd =>
    simp only [Cluster.step] at h
    split_ifs at h
    obtain rfl := Option.some.inj h
    refine ⟨hk.connHost, hk.queued, hk.number, hk.unique, hk.known, hk.reaches, fun host => ?_,
      hk.passed, hk.forward⟩
    by_cases heq : host = x.connHost fd
    · subst heq
      simp
    · simp only [Function.update_of_ne heq]
      exact hk.last host
  | arrive fd =>
    simp only [Cluster.step] at h
    split at h
    next p rest _ hq =>
      obtain rfl := Option.some.inj h
      exact hk.receive hq horder
    next => exact absurd h (by simp)

/-- Nothing is sent yet. -/
theorem kept_init (c : Config) : Kept c .init := by
  refine ⟨?_, ?_, ?_, ?_, ?_, ?_, ?_, ?_, ?_⟩ <;> simp [State.init, State.InFlight]

/-! ## Every run -/

/-- **In every run in order** each packet is passed once. -/
theorem passed_once {evs : List Event} (h : Trace (MovesInOrder c) .init evs x) :
    ∀ s ∈ x.sent, Once x s := by
  have hk : Kept c x := h.inv_state (kept_init c) fun _ _ _ hk hstep => hk.step hstep.1 hstep.2
  exact fun s hs => hk.once hs

/-- One event, to a host with one connection. -/
def oneEvent : List Event :=
  [.connect 0 0, .accept 0, .keepAlive fun _ _ => false, .send 0 .eventIsup, .arrive 0]

def oneState : State := (oneEvent.foldlM (step ⟨1, fun _ => [1]⟩) .init).getD .init

/-- An event, if it is in order. -/
def stepInOrder (c : Config) (x : State) (e : Event) : Option State :=
  if InOrder c x e then step c x e else none

theorem trace_of_stepInOrder {evs : List Event} (h : evs.foldlM (stepInOrder c) .init = some x) :
    ∃ evs', Trace (MovesInOrder c) .init evs' x := by
  refine Trace.of_foldlM (fun x e y h => ⟨e, ?_⟩) h
  unfold stepInOrder at h
  split_ifs at h with horder
  exact ⟨h, horder⟩

theorem trace_of_step {evs : List Event} (h : evs.foldlM (step c) .init = some x) :
    ∃ evs', Trace (Moves c) .init evs' x :=
  Trace.of_foldlM (fun _ e _ h => ⟨e, h⟩) h

theorem passed_once_one :
    oneState.passed 1 = [⟨1, .eventIsup⟩] ∧ ∀ s ∈ oneState.sent, Once oneState s := by
  have hrun : oneEvent.foldlM (stepInOrder ⟨1, fun _ => [1]⟩) .init = some oneState := rfl
  obtain ⟨evs, hevs⟩ := trace_of_stepInOrder hrun
  exact ⟨rfl, passed_once hevs⟩

/-- Two connections to host 1, the second accepted when a packet has come over
the first. -/
def doubledEvents : List Event :=
  [.connect 0 0, .connect 0 1, .accept 0, .keepAlive fun _ _ => false, .send 0 .eventIsup,
    .arrive 0, .accept 1, .arrive 1]

def doubled : State := (doubledEvents.foldlM (step ⟨1, fun _ => [1, 1]⟩) .init).getD .init

/-- A packet to be forwarded, with connections to hosts 1 and 2. -/
def forwardedEvents : List Event :=
  [.connect 0 0, .connect 0 1, .accept 0, .accept 1, .keepAlive fun _ _ => false,
    .send 0 .reqIsupForward, .arrive 0, .arrive 1]

def forwarded : State := (forwardedEvents.foldlM (step ⟨1, fun _ => [1, 2]⟩) .init).getD .init

theorem not_passed_once :
    (¬ ∀ (c : Config) (evs : List Event) (x : State), Trace (Moves c) .init evs x →
      ∀ s ∈ x.sent, s.packet.typ = .eventIsup → Once x s) ∧
    (¬ ∀ (c : Config) (evs : List Event) (x : State), Trace (Moves c) .init evs x →
      ∀ s ∈ x.sent, s.packet.typ = .reqIsupForward → Once x s) := by
  refine ⟨fun hall => ?_, fun hall => ?_⟩
  · have hrun : doubledEvents.foldlM (step ⟨1, fun _ => [1, 1]⟩) .init = some doubled := rfl
    obtain ⟨evs, hevs⟩ := trace_of_step hrun
    have honce := hall _ evs _ hevs ⟨⟨1, .eventIsup⟩, [1, 1]⟩ List.mem_cons_self rfl
    exact absurd (honce.isup rfl 1).1 (by decide)
  · have hrun : forwardedEvents.foldlM (step ⟨1, fun _ => [1, 2]⟩) .init = some forwarded := rfl
    obtain ⟨evs, hevs⟩ := trace_of_step hrun
    have honce := hall _ evs _ hevs ⟨⟨1, .reqIsupForward⟩, [1, 2]⟩ List.mem_cons_self rfl
    obtain ⟨host, -, hother, -⟩ := honce.forward rfl (by decide)
    by_cases heq : host = 1
    · exact absurd (hother 2 (by omega)) (by decide)
    · exact absurd (hother 1 (Ne.symm heq)) (by decide)

end Cluster

end Trismedia
