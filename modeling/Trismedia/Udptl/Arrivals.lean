import Mathlib.Data.List.Chain
import Mathlib.Data.List.Nodup
import Trismedia.Udptl.Redundancy
/-!
# Orders of arrival

The datagrams of a session arrive in some order, a packet by its number.
In order and with no long losses, the receiver delivers what was sent, as
long as the numbers have not come round: the first datagram after that
brings nothing. In any order, it delivers a number twice exactly where two
arrivals reach it, each from the number expected before it.
-/


namespace Trismedia

namespace Udptl

variable {buflen E n r u span : ℕ} {rx rx' : UdptlRx} {tx : UdptlTx}
variable {sent ifps : List (List UInt8)} {pairs : List (List UInt8 × List UInt8)}
variable {arrivals : List ℕ} {p : ℕ × ℕ} {frames : List T38Frame}

/-- The number after the last arrival, or else `r`. -/
def nextAfter (r : ℕ) (arrivals : List ℕ) : ℕ := arrivals.foldl (fun _ n => n + 1) r

/-! ## Any order -/

/-- Each arrival: the number expected before it, and the one after it. -/
def arrivalSteps (r : ℕ) (arrivals : List ℕ) : List (ℕ × ℕ) :=
  (r :: arrivals.map (· + 1)).zip (arrivals.map (· + 1))

/-- The arrival reaches the number `x`, itself or by its redundancy. -/
def InReach (E : ℕ) (p : ℕ × ℕ) (x : ℕ) : Prop := p.1 ≤ x ∧ x < p.2 ∧ p.2 ≤ x + (E + 1)

/-- **No number is reached by two arrivals.** -/
def NoNumberTwice (E : ℕ) (arrivals : List ℕ) : Prop :=
  (arrivalSteps 0 arrivals).Pairwise fun p q => ∀ x, InReach E p x → ¬ InReach E q x

/-- What an arrival brings. -/
def brought (E : ℕ) (sent : List (List UInt8)) (p : ℕ × ℕ) : List T38Frame :=
  framesFrom sent (max p.1 (p.2 - 1 - E)) p.2

/-- **What all arrivals bring.** -/
theorem rxAll_brought (hE : E ≤ 15) (hshort : ∀ ifp ∈ sent, ifp.length ≤ localFaxMaxDatagram)
    (harr : ∀ i ∈ arrivals, i < sent.length ∧ i < 65536) (rx : UdptlRx) :
    ∃ rx', rxAll rx (arrivals.map (datagramAt E sent)) =
      some (rx', (arrivalSteps rx.rxSeqNo arrivals).flatMap (brought E sent)) := by
  induction arrivals generalizing rx with
  | nil => exact ⟨rx, rfl⟩
  | cons n arrivals ih =>
    obtain ⟨hn, hbound⟩ := harr n List.mem_cons_self
    obtain ⟨rx', hrec⟩ := ih (fun i hi => harr i (List.mem_cons_of_mem _ hi))
      { rx with rxSeqNo := n + 1 }
    refine ⟨rx', ?_⟩
    rw [List.map_cons, rxAll, rx_datagram rx hE hshort hn hbound]
    simp only [Option.bind_eq_bind, Option.bind_some, hrec]
    rfl

theorem brought_numbers (hp : p.2 ≤ 65536) : (brought E sent p).map T38Frame.seqno =
    (List.range' (max p.1 (p.2 - 1 - E)) (p.2 - max p.1 (p.2 - 1 - E))).map Nat.cast := by
  unfold brought framesFrom
  rw [List.map_map]
  refine List.map_congr_left fun x hx => ?_
  have hlt := List.mem_range'_1.1 hx
  unfold Function.comp frameAt
  rw [Nat.mod_eq_of_lt (by omega)]

/-- A number is brought where it is in reach. -/
theorem mem_brought_numbers (sent : List (List UInt8)) (hp : p.2 ≤ 65536) {z : ℤ} :
    z ∈ (brought E sent p).map T38Frame.seqno ↔ ∃ x : ℕ, InReach E p x ∧ (x : ℤ) = z := by
  rw [brought_numbers hp, List.mem_map]
  refine exists_congr fun x => and_congr_left fun _ => ?_
  rw [List.mem_range'_1]
  unfold InReach
  omega

/-- **Exactly where no number is reached twice, none is delivered twice.**
Fewer than 65536 packets arrive in any order, lost and repeated as may
be. -/
theorem no_frame_twice_iff (hE : E ≤ 15)
    (hsend : sendAll buflen (newTx .redundancy E span) ifps = some (tx, pairs))
    (hfew : pairs.length < 65536) (harr : ∀ i ∈ arrivals, i < pairs.length) :
    ∃ rx frames, rxAll newRx (received pairs arrivals) = some (rx, frames) ∧
      ((frames.map T38Frame.seqno).Nodup ↔ NoNumberTwice E arrivals) := by
  obtain ⟨hshort, hat⟩ := redundancy_datagrams hE hsend
  have harr' : ∀ i ∈ arrivals, i < (pairs.map Prod.fst).length ∧ i < 65536 := by
    intro i hi
    have hlt := harr i hi
    rw [List.length_map]
    omega
  obtain ⟨rx, hrx⟩ := rxAll_brought hE (fun ifp h => (hshort ifp h).1) harr' newRx
  rw [received_eq harr hat]
  refine ⟨rx, _, hrx, ?_⟩
  have hsmall : ∀ p ∈ arrivalSteps 0 arrivals, p.2 ≤ 65536 := by
    intro p hp
    obtain ⟨i, hi, heq⟩ := List.mem_map.1 (List.of_mem_zip hp).2
    have hlt := (harr' i hi).2
    omega
  rw [List.map_flatMap, List.nodup_flatMap]
  have hown : ∀ p ∈ arrivalSteps 0 arrivals, ((brought E (pairs.map Prod.fst) p).map
      T38Frame.seqno).Nodup := by
    intro p hp
    rw [brought_numbers (hsmall p hp)]
    exact (List.nodup_range').map fun x y hxy => Int.ofNat.inj hxy
  unfold NoNumberTwice
  constructor
  · rintro ⟨-, hdis⟩
    refine hdis.imp_of_mem fun {p q} hp hq hpq x hx hx' => ?_
    have hxp := (mem_brought_numbers (pairs.map Prod.fst) (hsmall p hp)).2 ⟨x, hx, rfl⟩
    have hxq := (mem_brought_numbers (pairs.map Prod.fst) (hsmall q hq)).2 ⟨x, hx', rfl⟩
    exact hpq hxp hxq
  · intro hapart
    refine ⟨hown, hapart.imp_of_mem fun {p q} hp hq hpq z hz hz' => ?_⟩
    obtain ⟨x, hx, rfl⟩ := (mem_brought_numbers _ (hsmall p hp)).1 hz
    obtain ⟨y, hy, hxy⟩ := (mem_brought_numbers _ (hsmall q hq)).1 hz'
    have heq : y = x := Int.ofNat.inj hxy
    exact hpq x hx (heq ▸ hy)

/-- The second packet arrives last. -/
theorem no_frame_twice_late : ∃ tx pairs rx frames,
    sendAll 400 (newTx .redundancy 3 3) [[7], [8], [9]] = some (tx, pairs) ∧
      rxAll newRx (received pairs [0, 2, 1]) = some (rx, frames) ∧
      (frames.map T38Frame.seqno).Nodup := by
  obtain ⟨tx, pairs, hsend, hlen⟩ : ∃ tx pairs,
      sendAll 400 (newTx .redundancy 3 3) [[7], [8], [9]] = some (tx, pairs) ∧ pairs.length = 3 :=
    ⟨_, _, rfl, rfl⟩
  have harr : ∀ i ∈ [0, 2, 1], i < pairs.length := by
    rw [hlen]
    decide
  have hapart : NoNumberTwice 3 [0, 2, 1] := by
    simp only [NoNumberTwice, arrivalSteps, InReach, List.map_cons, List.map_nil,
      List.zip_cons_cons, List.zip_nil_right, List.pairwise_cons, List.mem_cons, List.not_mem_nil,
      or_false, forall_eq_or_imp, forall_eq, false_imp_iff, implies_true, List.Pairwise.nil,
      and_true]
    refine ⟨⟨fun x => ?_, fun x => ?_⟩, fun x => ?_⟩ <;> omega
  obtain ⟨rx, frames, hrx, hiff⟩ := no_frame_twice_iff (by decide) hsend (by omega) harr
  exact ⟨tx, pairs, rx, frames, hsend, hrx, hiff.2 hapart⟩

/-- Packets that arrive again after a later one are delivered again. -/
theorem frame_twice_of_late : ∃ tx pairs rx frames,
    sendAll 400 (newTx .redundancy 3 3) [[7], [8], [9]] = some (tx, pairs) ∧
      rxAll newRx (received pairs [0, 1, 2, 0, 2]) = some (rx, frames) ∧
      ¬ (frames.map T38Frame.seqno).Nodup :=
  ⟨_, _, _, _, rfl, rfl, by decide⟩

/-! ## In order -/

/-- The survivors arrive in order, and no more than `E` packets in a row are
lost before one. -/
def InOrder (E r : ℕ) (arrivals : List ℕ) : Prop :=
  (r :: arrivals.map (· + 1)).IsChain fun a b => a < b ∧ b ≤ a + (E + 1)

theorem inOrder_cons : InOrder E r (n :: arrivals) ↔
    (r < n + 1 ∧ n + 1 ≤ r + (E + 1)) ∧ InOrder E (n + 1) arrivals := List.isChain_cons_cons

/-- The frames of the IFPs sent before the packet `u`. -/
def sentFrames (sent : List (List UInt8)) (u : ℕ) : List T38Frame :=
  (sent.take u).mapIdx fun i ifp => ⟨(i % 65536 : ℕ), ifp⟩

theorem sentFrames_eq (hne : ∀ ifp ∈ sent, ifp ≠ []) (hu : u ≤ sent.length) :
    sentFrames sent u = framesFrom sent 0 u := by
  unfold sentFrames framesFrom
  rw [Nat.sub_zero, ← List.range_eq_range']
  refine List.ext_getElem ?_ fun i h1 h2 => ?_
  · rw [List.length_mapIdx, List.length_take, List.length_map, List.length_range]
    omega
  · rw [List.length_map, List.length_range] at h2
    have hi : i < sent.length := by omega
    rw [List.getElem_mapIdx, List.getElem_map, List.getElem_range, List.getElem_take]
    unfold frameAt
    rw [List.getD_eq_getElem?_getD, List.getElem?_eq_getElem hi, Option.getD_some,
      payload_of_ne (hne _ (List.getElem_mem hi))]

theorem InOrder.le_nextAfter (h : InOrder E r arrivals) : r ≤ nextAfter r arrivals := by
  induction arrivals generalizing r with
  | nil => exact le_rfl
  | cons n arrivals ih =>
    obtain ⟨hstep, hrest⟩ := inOrder_cons.1 h
    have hrec : n + 1 ≤ nextAfter (n + 1) arrivals := ih hrest
    have heq : nextAfter r (n :: arrivals) = nextAfter (n + 1) arrivals := rfl
    omega

theorem InOrder.nextAfter_le (h : ∀ i ∈ arrivals, i < n) (hr : r ≤ n) : nextAfter r arrivals ≤ n := by
  induction arrivals generalizing r with
  | nil => exact hr
  | cons i arrivals ih =>
    exact ih (fun j hj => h j (List.mem_cons_of_mem _ hj)) (h i List.mem_cons_self)

theorem rxAll_returns (hE : E ≤ 15) (hshort : ∀ ifp ∈ sent, ifp.length ≤ localFaxMaxDatagram)
    (harr : ∀ i ∈ arrivals, i < sent.length) (rx : UdptlRx) :
    ∃ rx' frames, rxAll rx (arrivals.map (datagramAt E sent)) = some (rx', frames) := by
  induction arrivals generalizing rx with
  | nil => exact ⟨rx, [], rfl⟩
  | cons n arrivals ih =>
    obtain ⟨rx', frames, hrec⟩ := ih (fun i hi => harr i (List.mem_cons_of_mem _ hi))
      { rx with rxSeqNo := n % 65536 + 1 }
    rw [List.map_cons, rxAll, rx_at hE hshort (harr n List.mem_cons_self)]
    simp only [Option.bind_eq_bind, Option.bind_some, hrec]
    exact ⟨_, _, rfl⟩

/-- The first frame of a datagram: its packet, or one not long before that
was expected still. -/
theorem newFrames_head {f : T38Frame} {seq : ℕ} {bufs : List (List UInt8)} {i : ℕ} {g : T38Frame}
    (hg : g.seqno = seq) (hr : r ≤ toUnsigned seq)
    (hf : f ∈ (newFrames seq r bufs i ++ [g]).head?) :
    ∃ j ≤ i, f.seqno = (seq : ℤ) - j ∧ r ≤ toUnsigned ((seq : ℤ) - j) := by
  induction i with
  | zero =>
    obtain rfl : g = f := by simpa [newFrames] using hf
    exact ⟨0, le_rfl, by omega, by simpa using hr⟩
  | succ i ih =>
    rw [newFrames] at hf
    split at hf
    · rename_i hge
      simp only [List.cons_append, List.head?_cons, Option.mem_some_iff] at hf
      subst hf
      exact ⟨i + 1, le_rfl, rfl, hge⟩
    · obtain ⟨j, hj, hrest⟩ := ih hf
      exact ⟨j, by omega, hrest⟩

/-- **Once the numbers have come round** the first datagram brings nothing,
and the next one not what is due. -/
theorem rxAll_wrapped (hE : E ≤ 15) (hshort : ∀ ifp ∈ sent, ifp.length ≤ localFaxMaxDatagram)
    (harr : ∀ i ∈ n :: arrivals, i < sent.length) (hord : InOrder E rx.rxSeqNo (n :: arrivals))
    (hr : rx.rxSeqNo ≤ 65536) (hn : 65536 ≤ n) :
    ∃ rx' frames, rxAll rx ((n :: arrivals).map (datagramAt E sent)) = some (rx', frames) ∧
      (∀ f ∈ frames.head?, f.seqno ≠ (rx.rxSeqNo % 65536 : ℕ)) ∧
      (nextAfter rx.rxSeqNo (n :: arrivals) = 65537 → frames = []) := by
  obtain ⟨hstep, hrest⟩ := inOrder_cons.1 hord
  have hmod : n % 65536 = n - 65536 := by omega
  have hfirst := rx_at hE hshort (harr n List.mem_cons_self) rx
  rw [hmod, if_neg (by omega), if_neg (by omega), List.nil_append] at hfirst
  rw [List.map_cons, rxAll, hfirst]
  simp only [Option.bind_eq_bind, Option.bind_some]
  have harr' : ∀ i ∈ arrivals, i < sent.length := fun i hi => harr i (List.mem_cons_of_mem _ hi)
  cases arrivals with
  | nil => exact ⟨_, _, rfl, by simp, fun _ => rfl⟩
  | cons m arrivals =>
    obtain ⟨hstep', hrest'⟩ := inOrder_cons.1 hrest
    have hmod' : m % 65536 = m - 65536 := by omega
    have hsecond := rx_at hE hshort (harr' m List.mem_cons_self)
      { rx with rxSeqNo := n - 65536 + 1 }
    obtain ⟨rx', frames, hlater⟩ := rxAll_returns hE hshort
      (fun i hi => harr' i (List.mem_cons_of_mem _ hi))
      { rx with rxSeqNo := m - 65536 + 1 }
    rw [hmod', if_pos (c := n - 65536 + 1 ≤ m - 65536) (by omega)] at hsecond
    rw [List.map_cons, rxAll, hsecond]
    simp only [Option.bind_eq_bind, Option.bind_some, hlater]
    refine ⟨_, _, rfl, fun f hf => ?_, fun hlast => ?_⟩
    case refine_2 =>
      have hle := hrest'.le_nextAfter
      have heq : nextAfter rx.rxSeqNo (n :: m :: arrivals) = nextAfter (m + 1) arrivals := rfl
      omega
    have hprimary : n - 65536 + 1 ≤ toUnsigned ((m - 65536 : ℕ) : ℤ) := by
      rw [toUnsigned_natCast (by omega)]
      omega
    -- the first frame is the packet, or from its redundancy
    generalize hg : (⟨((m - 65536 : ℕ) : ℤ), payload (sent.getD m [])⟩ : T38Frame) = g at hf
    have hgseq : g.seqno = ((m - 65536 : ℕ) : ℤ) := by rw [← hg]
    have hhead : ∃ i ≤ 15, f ∈ (newFrames (m - 65536) (n - 65536 + 1)
        ((redundant E (sent.take m)).map payload) i ++ [g]).head? := by
      by_cases hgap : n - 65536 + 1 < m - 65536
      · refine ⟨min E (m % 4294967296), by omega, ?_⟩
        rw [if_pos hgap] at hf
        simpa [List.head?_append] using hf
      · refine ⟨0, by omega, ?_⟩
        rw [if_neg hgap] at hf
        simpa [newFrames, List.head?_append] using hf
    obtain ⟨i, hi, hf⟩ := hhead
    obtain ⟨j, hj, hseq, hge⟩ := newFrames_head hgseq hprimary hf
    unfold toUnsigned at hge
    omega

/-- **In order**, the receiver delivers what was sent, until the numbers
come round. -/
theorem rxAll_inOrder (rx : UdptlRx) (hE : E ≤ 15) (hshort : ∀ ifp ∈ sent, ifp.length ≤ localFaxMaxDatagram)
    (harr : ∀ i ∈ arrivals, i < sent.length) (hord : InOrder E rx.rxSeqNo arrivals)
    (hr : rx.rxSeqNo ≤ 65536) :
    ∃ rx' u late, rxAll rx (arrivals.map (datagramAt E sent)) =
        some (rx', framesFrom sent rx.rxSeqNo u ++ late) ∧
      rx.rxSeqNo ≤ u ∧ u ≤ 65536 ∧
      ((nextAfter rx.rxSeqNo arrivals = u ∧ late = []) ∨
        (65536 < nextAfter rx.rxSeqNo arrivals ∧
          (∀ f ∈ late.head?, f.seqno ≠ (u % 65536 : ℕ)) ∧
          (nextAfter rx.rxSeqNo arrivals = 65537 → late = []))) := by
  induction arrivals generalizing rx with
  | nil =>
    refine ⟨rx, rx.rxSeqNo, [], ?_, le_rfl, hr, .inl ⟨rfl, rfl⟩⟩
    unfold framesFrom
    rw [Nat.sub_self]
    rfl
  | cons n arrivals ih =>
    obtain ⟨hstep, hrest⟩ := inOrder_cons.1 hord
    by_cases hn : n < 65536
    · obtain ⟨rx', u, late, hrec, hu, hu', hcase⟩ := ih { rx with rxSeqNo := n + 1 }
        (fun i hi => harr i (List.mem_cons_of_mem _ hi)) hrest (by
          show n + 1 ≤ 65536
          omega)
      have hfirst := rx_datagram rx hE hshort (harr n List.mem_cons_self) hn
      have hmax : max rx.rxSeqNo (n - E) = rx.rxSeqNo := by omega
      have hnu : n + 1 ≤ u := hu
      refine ⟨rx', u, late, ?_, by omega, hu', hcase⟩
      rw [List.map_cons, rxAll, hfirst, hmax]
      simp only [Option.bind_eq_bind, Option.bind_some, hrec]
      rw [← framesFrom_append (a := rx.rxSeqNo) (b := n + 1) (n := u) (by omega) hnu,
        List.append_assoc]
      rfl
    · obtain ⟨rx', late, hlate, hhead, hlast⟩ := rxAll_wrapped hE hshort harr hord hr (by omega)
      refine ⟨rx', rx.rxSeqNo, late, ?_, le_rfl, hr, .inr ⟨?_, hhead, hlast⟩⟩
      · rw [hlate]
        unfold framesFrom
        rw [Nat.sub_self]
        rfl
      · have hle := hrest.le_nextAfter
        have heq : nextAfter rx.rxSeqNo (n :: arrivals) = nextAfter (n + 1) arrivals := rfl
        omega

/-- **What was sent is delivered, each packet once and in order, exactly
where no packet after the first 65536 arrives.** -/
theorem delivered_right_iff (hE : E ≤ 15)
    (hsend : sendAll buflen (newTx .redundancy E span) ifps = some (tx, pairs))
    (hne : ∀ ifp ∈ ifps, ifp ≠ []) (harr : ∀ i ∈ arrivals, i < pairs.length)
    (hord : InOrder E 0 arrivals) :
    ∃ rx frames, rxAll newRx (received pairs arrivals) = some (rx, frames) ∧
      (frames = sentFrames (pairs.map Prod.fst) (nextAfter 0 arrivals) ↔
        nextAfter 0 arrivals ≤ 65536) := by
  obtain ⟨hshort, hat⟩ := redundancy_datagrams hE hsend
  have hlen : (pairs.map Prod.fst).length = pairs.length := List.length_map ..
  obtain ⟨rx, u, late, hrx, -, hu, hcase⟩ := rxAll_inOrder newRx hE
    (fun ifp h => (hshort ifp h).1) (fun i hi => hlen ▸ harr i hi) hord (by decide)
  rw [received_eq harr hat]
  refine ⟨rx, _, hrx, ?_⟩
  have hexp := sentFrames_eq (fun ifp h => hne ifp (hshort ifp h).2)
    (InOrder.nextAfter_le (r := 0) (fun i hi => hlen ▸ harr i hi) (Nat.zero_le _))
  rw [hexp]
  have hzero : newRx.rxSeqNo = 0 := rfl
  rw [hzero] at hcase ⊢
  rcases hcase with ⟨heq, rfl⟩ | ⟨hlong, hhead, -⟩
  · rw [heq, List.append_nil]
    exact iff_of_true rfl hu
  · refine iff_of_false (fun heq => ?_) (by omega)
    rw [← framesFrom_append (Nat.zero_le u) (n := nextAfter 0 arrivals) (by omega)] at heq
    have hlate := List.append_cancel_left heq
    rw [framesFrom_cons (by omega)] at hlate
    refine hhead (frameAt (pairs.map Prod.fst) u) (by rw [hlate]; rfl) rfl

/-- The second of three packets is lost. -/
theorem delivered_right_lost : ∃ tx pairs rx,
    sendAll 400 (newTx .redundancy 3 3) [[7], [8], [9]] = some (tx, pairs) ∧
      rxAll newRx (received pairs [0, 2]) =
        some (rx, sentFrames (pairs.map Prod.fst) (nextAfter 0 [0, 2])) := by
  obtain ⟨tx, pairs, hsend, hlen⟩ : ∃ tx pairs,
      sendAll 400 (newTx .redundancy 3 3) [[7], [8], [9]] = some (tx, pairs) ∧ pairs.length = 3 :=
    ⟨_, _, rfl, rfl⟩
  have harr : ∀ i ∈ [0, 2], i < pairs.length := by
    rw [hlen]
    decide
  obtain ⟨rx, frames, hrx, hiff⟩ := delivered_right_iff (by decide) hsend (by decide) harr
    (by simp [InOrder])
  rw [hiff.2 (by decide)] at hrx
  exact ⟨tx, pairs, rx, hsend, hrx⟩

theorem inOrder_range' (E r k : ℕ) : InOrder E r (List.range' r k) := by
  induction k generalizing r with
  | zero => exact List.isChain_singleton r
  | succ k ih =>
    rw [List.range'_succ]
    exact inOrder_cons.2 ⟨⟨by omega, by omega⟩, ih (r + 1)⟩

theorem nextAfter_range' (r k : ℕ) : nextAfter r (List.range' r k) = r + k := by
  induction k generalizing r with
  | zero => rfl
  | succ k ih =>
    rw [List.range'_succ]
    have hrec : nextAfter r (r :: List.range' (r + 1) k) = r + 1 + k := ih (r + 1)
    omega

/-- 65537 packets, none of them lost: the last one is not delivered. -/
theorem not_delivered_of_wrap : ∃ tx pairs rx frames,
    sendAll 1400 (newTx .redundancy 3 3) (List.replicate 65537 [7]) = some (tx, pairs) ∧
      InOrder 3 0 (List.range' 0 65537) ∧
      rxAll newRx (received pairs (List.range' 0 65537)) = some (rx, frames) ∧
      frames.map T38Frame.data ≠ pairs.map Prod.fst := by
  generalize hifps : List.replicate 65537 ([7] : List UInt8) = ifps
  have hlen : ifps.length = 65537 := by
    rw [← hifps, List.length_replicate]
  have hall : ∀ ifp ∈ ifps, Short ifp := by
    intro ifp h
    rw [← hifps] at h
    rw [List.eq_of_mem_replicate h]
    exact ⟨by decide, by decide⟩
  obtain ⟨tx, pairs, hsend, hpairs⟩ := sendAll_fits (E := 3) (by decide)
    (newTx_ok .redundancy 3 3) ⟨rfl, rfl, rfl⟩ (by simp) hall (by decide : _ ≤ 1400)
  obtain ⟨hshort, hat⟩ := redundancy_datagrams (by decide) hsend
  have hplen : pairs.length = 65537 := by
    rw [← hlen, ← hpairs, List.length_map]
  have harr : ∀ i ∈ List.range' 0 65537, i < pairs.length := by
    intro i hi
    have hi' := List.mem_range'_1.1 hi
    omega
  have hord := inOrder_range' 3 0 65537
  obtain ⟨rx, u, late, hrx, -, hu, hcase⟩ := rxAll_inOrder newRx (E := 3) (by decide)
    (fun ifp h => (hshort ifp h).1) (fun i hi => by
      rw [List.length_map]
      exact harr i hi) hord (by decide)
  rw [← received_eq harr hat] at hrx
  refine ⟨tx, pairs, rx, _, hsend, hord, hrx, fun heq => ?_⟩
  have hnext : nextAfter newRx.rxSeqNo (List.range' 0 65537) = 65537 := nextAfter_range' 0 65537
  -- what is delivered is shorter
  have hlate : late = [] := by
    rcases hcase with ⟨-, hlate⟩ | ⟨-, -, hlate⟩
    · exact hlate
    · exact hlate hnext
  have hcount := congrArg List.length heq
  unfold framesFrom at hcount
  rw [hlate, List.append_nil, List.length_map, List.length_map, List.length_range', List.length_map,
    hplen] at hcount
  omega

end Udptl

end Trismedia
