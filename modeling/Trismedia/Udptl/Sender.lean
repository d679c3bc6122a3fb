import Trismedia.Udptl.Coding
/-!
# The circular buffer of the sender

Whatever the error correction, the last fifteen IFPs that were sent stand
in the circular buffer, each at its own number. A refused IFP is written
into the place of the next one, and nothing else refers to that.
-/


namespace Trismedia

namespace Udptl

variable {buflen i n : ℕ} {s s' : UdptlTx} {tx : ℕ → UdptlFecTx} {buf ifp : List UInt8}
variable {sent ifps : List (List UInt8)} {pairs : List (List UInt8 × List UInt8)}

/-- The last fifteen IFPs, in their places. -/
def SlotsOk (tx : ℕ → UdptlFecTx) (sent : List (List UInt8)) : Prop :=
  ∀ i ifp, sent[i]? = some ifp → sent.length < i + 16 → tx (i % 16) = ⟨ifp.length, ifp⟩

/-- **The sender** after the IFPs `sent`. -/
structure TxOk (s : UdptlTx) (sent : List (List UInt8)) : Prop where
  seq : s.txSeqNo = sent.length % 4294967296
  slots : SlotsOk s.tx sent
  short : ∀ ifp ∈ sent, ifp.length ≤ localFaxMaxDatagram

theorem mask_natCast (n : ℕ) : mask n = n % 16 := by
  unfold mask
  omega

theorem newTx_ok (scheme : T38EcMode) (entries span : ℕ) : TxOk (newTx scheme entries span) [] where
  seq := rfl
  slots := fun i ifp h => by simp at h
  short := by simp

/-- The place of the next IFP is none of the last fifteen. -/
theorem SlotsOk.update (h : SlotsOk tx sent) (x : UdptlFecTx) :
    SlotsOk (Function.update tx (sent.length % 16) x) sent := by
  intro i ifp hi hlt
  have hlen := (List.getElem?_eq_some_iff.1 hi).1
  rw [Function.update_of_ne (by omega)]
  exact h i ifp hi hlt

/-- The next IFP is one of the last fifteen. -/
theorem SlotsOk.push (h : SlotsOk tx sent) (ifp : List UInt8) :
    SlotsOk (Function.update tx (sent.length % 16) ⟨ifp.length, ifp⟩) (sent ++ [ifp]) := by
  intro i ifp' hi hlt
  rw [List.length_append, List.length_singleton] at hlt
  rcases lt_trichotomy i sent.length with hlen | rfl | hlen
  · rw [List.getElem?_append_left hlen] at hi
    exact h.update _ i ifp' hi (by omega)
  · rw [List.getElem?_concat_length] at hi
    cases hi
    exact Function.update_self ..
  · have hnone : (sent ++ [ifp])[i]? = none := by
      rw [List.getElem?_eq_none_iff, List.length_append, List.length_singleton]
      omega
    rw [hnone] at hi
    cases hi

/-- The state in which the error recovery is written. -/
def saved (s : UdptlTx) (n : ℕ) (ifp : List UInt8) : UdptlTx :=
  { s with tx := Function.update s.tx (n % 16) ⟨ifp.length, ifp⟩ }

/-- The number of a packet, and its place. -/
theorem TxOk.number (hs : TxOk s sent) :
    s.txSeqNo &&& 0xFFFF = sent.length % 65536 ∧
      mask ((sent.length % 65536 : ℕ) : ℤ) = sent.length % 16 := by
  refine ⟨?_, ?_⟩
  · rw [hs.seq]
    have hand := Nat.and_two_pow_sub_one_eq_mod (sent.length % 4294967296) 16
    have hmod : sent.length % 4294967296 % 65536 = sent.length % 65536 := by omega
    exact hand.trans hmod
  · rw [mask_natCast]
    omega

/-- **`udptl_build_packet`, up to the error recovery.** -/
theorem build_eq (hs : TxOk s sent) {res : Option (List UInt8)}
    (h : udptlBuildPacket buflen s ifp = some (s', res)) :
    ifp.length ≤ localFaxMaxDatagram ∧
      ((res = none ∧ s' = saved s sent.length ifp) ∨
        ∃ buf, res = some buf ∧
          encodeErrorRecovery buflen (saved s sent.length ifp) (sent.length % 65536)
            (sent.length % 16) (seqOctets (sent.length % 65536) ++ openType ifp) =
              some (some buf) ∧
          s' = { saved s sent.length ifp with txSeqNo := (s.txSeqNo + 1) % 4294967296 }) := by
  obtain ⟨hseq, hentry⟩ := hs.number
  unfold udptlBuildPacket at h
  simp only [hseq, hentry] at h
  split at h
  · cases h
  rename_i hshort
  have hlen : ifp.length ≤ localFaxMaxDatagram := not_lt.1 hshort
  refine ⟨hlen, ?_⟩
  obtain ⟨buf₁, h1, h⟩ := Option.bind_eq_some_iff.1 h
  obtain ⟨buf₂, h2, h⟩ := Option.bind_eq_some_iff.1 h
  obtain ⟨open₁, h3, h⟩ := Option.bind_eq_some_iff.1 h
  have hocts : buf₂ = seqOctets (sent.length % 65536) := by
    have hhi : ((sent.length % 65536) >>> 8) &&& 0xFF = sent.length % 65536 / 256 := by
      rw [Nat.shiftRight_eq_div_pow]
      have hand := Nat.and_two_pow_sub_one_eq_mod (sent.length % 65536 / 256) 8
      exact hand.trans (by omega)
    have hlo : (sent.length % 65536) &&& 0xFF = sent.length % 65536 % 256 :=
      Nat.and_two_pow_sub_one_eq_mod _ 8
    rw [putOctet_some h2, putOctet_some h1, hhi, hlo]
    rfl
  subst hocts
  cases open₁ with
  | none =>
    cases h
    exact .inl ⟨rfl, rfl⟩
  | some buf₃ =>
    have hlt : ifp.length < 0x4000 := by
      unfold localFaxMaxDatagram at hlen
      omega
    have hbuf₃ := encodeOpenType_some hlt h3
    subst hbuf₃
    obtain ⟨rec, h4, h⟩ := Option.bind_eq_some_iff.1 h
    cases rec with
    | none =>
      cases h
      exact .inl ⟨rfl, rfl⟩
    | some buf =>
      cases h
      exact .inr ⟨buf, rfl, h4, rfl⟩

/-- A refused IFP leaves the sender as it was. -/
theorem TxOk.refused (hs : TxOk s sent) (ifp : List UInt8) : TxOk (saved s sent.length ifp) sent where
  seq := hs.seq
  slots := hs.slots.update _
  short := hs.short

theorem TxOk.pushed (hs : TxOk s sent) (hlen : ifp.length ≤ localFaxMaxDatagram) :
    TxOk { saved s sent.length ifp with txSeqNo := (s.txSeqNo + 1) % 4294967296 }
      (sent ++ [ifp]) where
  seq := by
    simp only [hs.seq, List.length_append, List.length_singleton]
    omega
  slots := hs.slots.push ifp
  short := by
    intro ifp' h
    rcases List.mem_append.1 h with h | h
    · exact hs.short ifp' h
    · rw [List.mem_singleton.1 h]
      exact hlen

/-! ## A session -/

/-- The error correction of two senders is the same. -/
def SameMode (s s' : UdptlTx) : Prop :=
  s'.errorCorrectionScheme = s.errorCorrectionScheme ∧
    s'.errorCorrectionEntries = s.errorCorrectionEntries ∧
    s'.errorCorrectionSpan = s.errorCorrectionSpan

/-- **All the datagrams of a session** are what one packet makes of the IFPs
before it. -/
theorem sendAll_spec {s₀ : UdptlTx} (datagram : List (List UInt8) → List UInt8 → List UInt8)
    (hdatagram : ∀ s sent ifp buf, TxOk s sent → SameMode s₀ s → sent.length < n →
      encodeErrorRecovery buflen (saved s sent.length ifp) (sent.length % 65536)
        (sent.length % 16) (seqOctets (sent.length % 65536) ++ openType ifp) = some (some buf) →
      buf = datagram sent ifp)
    (hs : TxOk s sent) (hmode : SameMode s₀ s)
    (h : sendAll buflen s ifps = some (s', pairs)) (hn : sent.length + pairs.length ≤ n) :
    (∀ i p, pairs[i]? = some p →
      p.2 = datagram (sent ++ (pairs.map Prod.fst).take i) p.1 ∧
        p.1.length ≤ localFaxMaxDatagram) ∧
      ∀ p ∈ pairs, p.1 ∈ ifps := by
  induction ifps generalizing s sent pairs with
  | nil =>
    cases h
    simp
  | cons ifp ifps ih =>
    obtain ⟨⟨s₁, res⟩, h1, hrest⟩ := Option.bind_eq_some_iff.1 h
    obtain ⟨⟨s₂, later⟩, h2, hret⟩ := Option.bind_eq_some_iff.1 hrest
    obtain ⟨hlen, ⟨rfl, rfl⟩ | ⟨buf, rfl, hrec, rfl⟩⟩ := build_eq hs h1
    · cases hret
      obtain ⟨hat, hmem⟩ := ih (hs.refused ifp) hmode h2 hn
      exact ⟨hat, fun p hp => List.mem_cons_of_mem _ (hmem p hp)⟩
    · cases hret
      rw [List.length_cons] at hn
      obtain ⟨hat, hmem⟩ := ih (hs.pushed hlen) hmode h2 (by
        rw [List.length_append, List.length_singleton]
        omega)
      refine ⟨fun i p hp => ?_, fun p hp => ?_⟩
      · cases i with
        | zero =>
          cases hp
          simp only [List.take_zero, List.append_nil]
          exact ⟨hdatagram s sent ifp buf hs hmode (by omega) hrec, hlen⟩
        | succ i =>
          have hpi := hat i p hp
          rw [List.append_assoc] at hpi
          exact hpi
      · rcases List.mem_cons.1 hp with rfl | hp
        · exact List.mem_cons_self
        · exact List.mem_cons_of_mem _ (hmem p hp)

/-- The datagrams that arrive. -/
def received (pairs : List (List UInt8 × List UInt8)) (arrivals : List ℕ) : List (List UInt8) :=
  arrivals.filterMap fun i => (pairs[i]?).map Prod.snd

theorem received_eq {arrivals : List ℕ} {datagram : ℕ → List UInt8}
    (harr : ∀ i ∈ arrivals, i < pairs.length)
    (hat : ∀ i < pairs.length, (pairs[i]?).map Prod.snd = some (datagram i)) :
    received pairs arrivals = arrivals.map datagram := by
  induction arrivals with
  | nil => rfl
  | cons i arrivals ih =>
    have hrec := ih fun j hj => harr j (List.mem_cons_of_mem _ hj)
    unfold received at hrec ⊢
    rw [List.filterMap_cons, hat i (harr i List.mem_cons_self), hrec]
    rfl

/-- **The datagrams of a session**, each made of the IFPs before it. -/
theorem sendAll_datagrams {s₀ : UdptlTx} (datagram : List (List UInt8) → List UInt8 → List UInt8)
    (hdatagram : ∀ s sent ifp buf, TxOk s sent → SameMode s₀ s → sent.length < pairs.length →
      encodeErrorRecovery buflen (saved s sent.length ifp) (sent.length % 65536)
        (sent.length % 16) (seqOctets (sent.length % 65536) ++ openType ifp) = some (some buf) →
      buf = datagram sent ifp)
    (hs : TxOk s₀ []) (h : sendAll buflen s₀ ifps = some (s', pairs)) :
    (∀ ifp ∈ pairs.map Prod.fst, ifp.length ≤ localFaxMaxDatagram ∧ ifp ∈ ifps) ∧
      ∀ i < pairs.length, (pairs[i]?).map Prod.snd =
        some (datagram ((pairs.map Prod.fst).take i) ((pairs.map Prod.fst).getD i [])) := by
  obtain ⟨hat, hmem⟩ := sendAll_spec datagram hdatagram hs ⟨rfl, rfl, rfl⟩ h (by simp)
  refine ⟨fun ifp hifp => ?_, fun i hi => ?_⟩
  · obtain ⟨p, hp, rfl⟩ := List.mem_map.1 hifp
    obtain ⟨i, hi⟩ := List.getElem?_of_mem hp
    exact ⟨(hat i p hi).2, hmem p hp⟩
  · have hget : pairs[i]? = some pairs[i] := List.getElem?_eq_getElem hi
    rw [hget, Option.map_some, (hat i _ hget).1]
    rw [List.nil_append, List.getD_eq_getElem?_getD, List.getElem?_map, hget]
    rfl

theorem rxAll_concat {ur ur₁ ur₂ : UdptlRx} {bufs : List (List UInt8)} {frames frames' : List T38Frame}
    (h : rxAll ur bufs = some (ur₁, frames))
    (hlast : udptlRxPacket ur₁ buf = some (ur₂, some frames')) :
    rxAll ur (bufs ++ [buf]) = some (ur₂, frames ++ frames') := by
  induction bufs generalizing ur frames with
  | nil =>
    cases h
    rw [List.nil_append, rxAll, hlast]
    simp [rxAll]
  | cons b bufs ih =>
    obtain ⟨⟨ur', first⟩, h1, hrest⟩ := Option.bind_eq_some_iff.1 h
    obtain ⟨⟨ur'', later⟩, h2, hret⟩ := Option.bind_eq_some_iff.1 hrest
    cases hret
    rw [List.cons_append, rxAll, h1]
    simp only [Option.bind_eq_bind, Option.bind_some, ih h2]
    rw [List.append_assoc]
    rfl

end Udptl

end Trismedia
