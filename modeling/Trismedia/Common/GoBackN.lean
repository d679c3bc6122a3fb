import Mathlib.Data.List.Basic
import Mathlib.Data.List.GetD
import Mathlib.Data.Nat.Bits
import Mathlib.Data.Nat.ModEq
/-!
# Go-back-N over lossy channels

One direction of a link: a sender with the messages it took, numbered from
1, and a receiver that takes them in order. Units carry a message or, to
fill in, the number of the last one; they and the acknowledgements cross two
channels that lose but do not reorder. The receiver asks for retransmission
by counting up its phase; the sender answers by going back to the message
after the last one received and counting up its own. Numbers and phases have
no bound here; `Inv` keeps them close enough together for a code that sends
numbers modulo more than the window, and phases modulo 2.
-/


namespace GoBackN

variable {α : Type*}

/-- **A unit on the line**: a message with its number or, with no message,
the number of the last one, and the phase of the sender. -/
structure DataUnit (α : Type*) where
  seq : ℕ
  body : Option α
  phase : ℕ

/-- **An acknowledgement**: the number received and the phase asked for. -/
structure Ack where
  got : ℕ
  phase : ℕ

/-- **One direction.** Of the messages in `log` the sender knows `acked`
received and has sent those up to `sent` in this phase; the receiver has the
first `got`, and has asked for retransmission `asked` times. -/
structure Dir (α : Type*) where
  log : List α
  acked : ℕ
  sent : ℕ
  phase : ℕ
  got : ℕ
  asked : ℕ

namespace Dir

/-- A message is taken. -/
def take (d : Dir α) (a : α) : Dir α := { d with log := d.log ++ [a] }

/-- An acknowledgement arrives. One of a new phase sends the sender back to
the message after `back`. -/
def acknowledge (d : Dir α) (k : Ack) (back : ℕ) : Dir α :=
  if k.phase = d.phase then { d with acked := k.got }
  else { d with acked := k.got, phase := k.phase, sent := back }

/-- A unit arrives. One of an old phase is dropped; of those of the phase
asked for, the next message is taken, and a gap asks for retransmission. -/
def hear (d : Dir α) (u : DataUnit α) : Dir α :=
  if u.phase = d.asked then
    if u.body.isSome then
      if u.seq = d.got + 1 then { d with got := u.seq } else { d with asked := d.asked + 1 }
    else if u.seq = d.got then d
    else { d with asked := d.asked + 1 }
  else d

end Dir

/-- **What holds between the two ends**, with the window `W` and what is on
the line and on its way back, oldest first. -/
structure Inv (W : ℕ) (d : Dir α) (line : List (DataUnit α)) (back : List Ack) : Prop where
  acked_le : d.acked ≤ d.got
  got_le : d.got ≤ d.sent
  sent_le : d.sent ≤ d.log.length
  window : d.log.length ≤ d.acked + W
  phase_le : d.phase ≤ d.asked
  asked_le : d.asked ≤ d.phase + 1
  line_phase : ∀ u ∈ line, d.asked ≤ u.phase + 1 ∧ u.phase ≤ d.phase
  line_new : ∀ u ∈ line, u.phase = d.asked → d.got ≤ u.seq ∧ (u.body.isSome → d.got < u.seq)
  line_sent : ∀ u ∈ line, u.phase = d.phase → u.seq ≤ d.sent
  line_window : ∀ u ∈ line, u.seq ≤ d.got + W
  line_order : line.Pairwise fun u v =>
    u.phase ≤ v.phase ∧ (u.phase = v.phase → u.seq ≤ v.seq ∧ (v.body.isSome → u.seq < v.seq))
  line_log : ∀ u ∈ line, ∀ a, u.body = some a → d.log[u.seq - 1]? = some a
  back_order : back.Pairwise fun k l => k.got ≤ l.got ∧ k.phase ≤ l.phase
  back_got : ∀ k ∈ back, d.acked ≤ k.got ∧ k.got ≤ d.got
  back_phase : ∀ k ∈ back, d.phase ≤ k.phase ∧ k.phase ≤ d.asked
  back_asked : ∀ k ∈ back, k.phase = d.phase + 1 → k.got = d.got

namespace Inv

variable {W : ℕ} {d : Dir α} {line line' : List (DataUnit α)} {back back' : List Ack}
variable {u : DataUnit α} {k : Ack} {a : α}

/-- Both ends at the start. -/
theorem start (W : ℕ) (n : ℕ) : Inv W (⟨[], 0, 0, n, 0, n⟩ : Dir α) [] [] := by
  constructor <;> simp

/-- **Losses.** -/
theorem lose (h : Inv W d line back) (hl : line'.Sublist line) (hb : back'.Sublist back) :
    Inv W d line' back' where
  acked_le := h.acked_le
  got_le := h.got_le
  sent_le := h.sent_le
  window := h.window
  phase_le := h.phase_le
  asked_le := h.asked_le
  line_phase := fun u hu => h.line_phase u (hl.subset hu)
  line_new := fun u hu => h.line_new u (hl.subset hu)
  line_sent := fun u hu => h.line_sent u (hl.subset hu)
  line_window := fun u hu => h.line_window u (hl.subset hu)
  line_order := h.line_order.sublist hl
  line_log := fun u hu => h.line_log u (hl.subset hu)
  back_order := h.back_order.sublist hb
  back_got := fun k hk => h.back_got k (hb.subset hk)
  back_phase := fun k hk => h.back_phase k (hb.subset hk)
  back_asked := fun k hk => h.back_asked k (hb.subset hk)

/-- **A message is taken** while the window has room. -/
theorem take (h : Inv W d line back) (hroom : d.log.length < d.acked + W) :
    Inv W (d.take a) line back where
  acked_le := h.acked_le
  got_le := h.got_le
  sent_le := by
    have := h.sent_le
    simp only [Dir.take, List.length_append, List.length_cons, List.length_nil]
    omega
  window := by
    simp only [Dir.take, List.length_append, List.length_cons, List.length_nil]
    omega
  phase_le := h.phase_le
  asked_le := h.asked_le
  line_phase := h.line_phase
  line_new := h.line_new
  line_sent := h.line_sent
  line_window := h.line_window
  line_order := h.line_order
  line_log := fun u hu b hb => by
    have hold := h.line_log u hu b hb
    obtain ⟨hlt, -⟩ := List.getElem?_eq_some_iff.1 hold
    rw [Dir.take, List.getElem?_append_left hlt]
    exact hold
  back_order := h.back_order
  back_got := h.back_got
  back_phase := h.back_phase
  back_asked := h.back_asked

/-- A unit put on the line behind those there. -/
theorem order_concat (h : Inv W d line back) (hu : u.phase = d.phase)
    (hseq : d.sent ≤ u.seq ∧ (u.body.isSome → d.sent < u.seq)) :
    (line ++ [u]).Pairwise fun u v =>
      u.phase ≤ v.phase ∧
        (u.phase = v.phase → u.seq ≤ v.seq ∧ (v.body.isSome → u.seq < v.seq)) := by
  refine List.pairwise_append.2 ⟨h.line_order, List.pairwise_singleton _ _, fun v hv w hw => ?_⟩
  rw [List.mem_singleton] at hw
  subst hw
  have hphase := h.line_phase v hv
  refine ⟨by omega, fun heq => ?_⟩
  have hsent := h.line_sent v hv (by omega)
  exact ⟨by omega, fun hb => by have := hseq.2 hb; omega⟩

/-- **A message is sent**, for the first time or again. -/
theorem send (h : Inv W d line back) (ha : d.log[d.sent]? = some a) :
    Inv W { d with sent := d.sent + 1 } (line ++ [⟨d.sent + 1, some a, d.phase⟩]) back := by
  obtain ⟨hlt, -⟩ := List.getElem?_eq_some_iff.1 ha
  have hgot := h.got_le
  have hacked := h.acked_le
  have hwin := h.window
  have hph := h.phase_le
  have hask := h.asked_le
  refine
    { acked_le := h.acked_le
      got_le := by simp only; omega
      sent_le := hlt
      window := h.window
      phase_le := h.phase_le
      asked_le := h.asked_le
      line_phase := ?_
      line_new := ?_
      line_sent := ?_
      line_window := ?_
      line_order := h.order_concat rfl ⟨by simp, fun _ => by simp⟩
      line_log := ?_
      back_order := h.back_order
      back_got := h.back_got
      back_phase := h.back_phase
      back_asked := h.back_asked } <;>
    intro v hv <;> rw [List.mem_append, List.mem_singleton] at hv <;> rcases hv with hv | rfl
  · exact h.line_phase v hv
  · exact ⟨hask, Nat.le_refl _⟩
  · exact h.line_new v hv
  · exact fun _ => ⟨by simp only; omega, fun _ => by simp only; omega⟩
  · intro hp
    have := h.line_sent v hv hp
    simp only
    omega
  · exact fun _ => Nat.le_refl _
  · exact h.line_window v hv
  · simp only
    omega
  · exact h.line_log v hv
  · intro b hb
    simp only [Option.some.injEq] at hb
    simpa [← hb] using ha

/-- **A fill-in unit is sent**, with all messages sent. -/
theorem fill (h : Inv W d line back) (hall : d.sent = d.log.length) :
    Inv W d (line ++ [⟨d.sent, none, d.phase⟩]) back := by
  have hgot := h.got_le
  have hacked := h.acked_le
  have hwin := h.window
  refine
    { h with
      line_phase := ?_
      line_new := ?_
      line_sent := ?_
      line_window := ?_
      line_order := h.order_concat rfl ⟨Nat.le_refl _, fun hb => by simp at hb⟩
      line_log := ?_ } <;>
    intro v hv <;> rw [List.mem_append, List.mem_singleton] at hv <;> rcases hv with hv | rfl
  · exact h.line_phase v hv
  · exact ⟨h.asked_le, Nat.le_refl _⟩
  · exact h.line_new v hv
  · exact fun _ => ⟨hgot, fun hb => by simp at hb⟩
  · exact h.line_sent v hv
  · exact fun _ => Nat.le_refl _
  · exact h.line_window v hv
  · simp only
    omega
  · exact h.line_log v hv
  · intro b hb
    simp at hb

/-- **An acknowledgement is sent.** -/
theorem answer (h : Inv W d line back) : Inv W d line (back ++ [⟨d.got, d.asked⟩]) := by
  refine
    { h with
      back_order := ?_
      back_got := ?_
      back_phase := ?_
      back_asked := ?_ }
  · refine List.pairwise_append.2 ⟨h.back_order, List.pairwise_singleton _ _, fun v hv w hw => ?_⟩
    rw [List.mem_singleton] at hw
    subst hw
    exact ⟨(h.back_got v hv).2, (h.back_phase v hv).2⟩
  all_goals
    intro v hv
    rw [List.mem_append, List.mem_singleton] at hv
    rcases hv with hv | rfl
  · exact h.back_got v hv
  · exact ⟨h.acked_le, Nat.le_refl _⟩
  · exact h.back_phase v hv
  · exact ⟨h.phase_le, Nat.le_refl _⟩
  · exact h.back_asked v hv
  · exact fun _ => rfl

/-- **An acknowledgement arrives**, the oldest on its way. A sender that
goes back goes back to what is acknowledged, or not that far. -/
theorem acknowledge {n : ℕ} (h : Inv W d line (k :: back)) (hn : k.got ≤ n)
    (hn' : n ≤ d.log.length) : Inv W (d.acknowledge k n) line back := by
  obtain ⟨hfirst, horder⟩ := List.pairwise_cons.1 h.back_order
  have hk := h.back_got k List.mem_cons_self
  have hp := h.back_phase k List.mem_cons_self
  have hwin := h.window
  have hask := h.asked_le
  have hrest := h.lose (List.Sublist.refl line) (List.sublist_cons_self k back)
  unfold Dir.acknowledge
  split_ifs with heq
  · exact
      { hrest with
        acked_le := hk.2
        window := by simp only; omega
        back_got := fun l hl => ⟨(hfirst l hl).1, (hrest.back_got l hl).2⟩ }
  · have hnew : k.phase = d.phase + 1 := by omega
    have hgot : k.got = d.got := h.back_asked k List.mem_cons_self hnew
    exact
      { hrest with
        acked_le := hk.2
        got_le := by simp only; omega
        sent_le := hn'
        window := by simp only; omega
        phase_le := hp.2
        asked_le := by simp only; omega
        line_phase := fun v hv => by
          have := h.line_phase v hv
          simp only
          omega
        line_sent := fun v hv hv' => by
          have := h.line_phase v hv
          simp only at hv'
          omega
        back_got := fun l hl => ⟨(hfirst l hl).1, (hrest.back_got l hl).2⟩
        back_phase := fun l hl => ⟨(hfirst l hl).2, (hrest.back_phase l hl).2⟩
        back_asked := fun l hl hl' => by
          have := hrest.back_phase l hl
          simp only at hl'
          omega }

/-- The receiver asks for retransmission; the unit was of its phase. -/
theorem ask (h : Inv W d (u :: line) back) (hu : u.phase = d.asked) :
    Inv W { d with asked := d.asked + 1 } line back := by
  have hph := h.line_phase u List.mem_cons_self
  have hle := h.phase_le
  have hrest := h.lose (List.sublist_cons_self u line) (List.Sublist.refl back)
  obtain ⟨hfirst, -⟩ := List.pairwise_cons.1 h.line_order
  exact
    { hrest with
      phase_le := by simp only; omega
      asked_le := by simp only; omega
      line_phase := fun v hv => by
        have := (hfirst v hv).1
        have := hrest.line_phase v hv
        simp only
        omega
      line_new := fun v hv hv' => by
        have := hrest.line_phase v hv
        simp only at hv'
        omega
      back_phase := fun l hl => by
        have := hrest.back_phase l hl
        simp only
        omega
      back_asked := fun l hl hl' => by
        have := hrest.back_phase l hl
        simp only at hl'
        omega }

/-- **A unit arrives**, the oldest on the line. -/
theorem hear (h : Inv W d (u :: line) back) : Inv W (d.hear u) line back := by
  have hrest := h.lose (List.sublist_cons_self u line) (List.Sublist.refl back)
  obtain ⟨hfirst, -⟩ := List.pairwise_cons.1 h.line_order
  unfold Dir.hear
  split_ifs with hu hbody hseq hseq
  · have hph := h.line_phase u List.mem_cons_self
    have hle := h.phase_le
    have hsent := h.line_sent u List.mem_cons_self (by omega)
    have hacked := h.acked_le
    exact
      { hrest with
        acked_le := by simp only; omega
        got_le := hsent
        line_new := fun v hv hv' => (hfirst v hv).2 (by simp only at hv'; omega)
        line_window := fun v hv => by
          have := hrest.line_window v hv
          simp only
          omega
        back_got := fun l hl => by
          have := hrest.back_got l hl
          simp only
          omega
        back_asked := fun l hl hl' => by
          have := hrest.back_phase l hl
          simp only at hl'
          omega }
  · exact h.ask hu
  · exact hrest
  · exact h.ask hu
  · exact hrest

/-! ## What the numbers on the wire tell -/

/-- The oldest acknowledgement is inside the window. -/
theorem ack_window (h : Inv W d line (k :: back)) :
    d.acked ≤ k.got ∧ k.got ≤ d.log.length ∧ d.log.length ≤ d.acked + W := by
  have := h.back_got k List.mem_cons_self
  have := h.got_le
  have := h.sent_le
  have := h.window
  omega

/-- It is of the phase of the sender or the one after. -/
theorem ack_phase (h : Inv W d line (k :: back)) : k.phase = d.phase ∨ k.phase = d.phase + 1 := by
  have := h.back_phase k List.mem_cons_self
  have := h.asked_le
  omega

/-- The oldest unit is of the phase asked for or the one before. -/
theorem unit_phase (h : Inv W d (u :: line) back) :
    u.phase = d.asked ∨ u.phase + 1 = d.asked := by
  have := h.line_phase u List.mem_cons_self
  have := h.phase_le
  omega

/-- In the phase asked for it is not behind what is received. -/
theorem unit_window (h : Inv W d (u :: line) back) (hu : u.phase = d.asked) :
    d.got ≤ u.seq ∧ (u.body.isSome → d.got < u.seq) ∧ u.seq ≤ d.got + W :=
  ⟨(h.line_new u List.mem_cons_self hu).1, (h.line_new u List.mem_cons_self hu).2,
    h.line_window u List.mem_cons_self⟩

/-- The message of the oldest unit is the one of its number. -/
theorem unit_log (h : Inv W d (u :: line) back) (ha : u.body = some a) :
    d.log[u.seq - 1]? = some a := h.line_log u List.mem_cons_self a ha

end Inv

/-- Numbers that go round after `M` tell apart less than `M` of them. -/
theorem mod_inj {s M m n : ℕ} (hle : m ≤ n) (hlt : n < m + M)
    (heq : (s + n) % M = (s + m) % M) : n = m := by
  have hdvd : M ∣ (s + n) - (s + m) := (Nat.modEq_iff_dvd' (by omega)).1 heq.symm
  have hzero : (s + n) - (s + m) = 0 := Nat.eq_zero_of_dvd_of_lt hdvd (by omega)
  omega

/-- A bit turned at each phase. -/
def bitOf (b : Bool) (n : ℕ) : Bool := b ^^ n.bodd

theorem bitOf_succ (b : Bool) (n : ℕ) : bitOf b (n + 1) = !bitOf b n := by
  simp [bitOf, Nat.bodd_succ]

theorem bitOf_succ_ne (b : Bool) (n : ℕ) : bitOf b (n + 1) ≠ bitOf b n := by
  rw [bitOf_succ]
  exact Bool.not_ne_self _

end GoBackN
