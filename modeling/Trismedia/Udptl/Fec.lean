import Trismedia.Common.Parity
import Trismedia.Udptl.Sender
/-!
# FEC, the sender

Every datagram from the span on carries some entries, each the parity of
one packet in every few. `groupNumbers` are the packets under an entry;
the sender and the receiver find them by the same loop round the circular
buffer.
-/


namespace Trismedia

namespace Udptl

open Parity

variable {buflen s e n p m t c i j x left fuel : ℕ} {a b buf buf' ifp : List UInt8}
variable {tx : ℕ → UdptlFecTx} {sent ds : List (List UInt8)} {st : UdptlTx}

/-- The entries of the packet `n`. -/
def entriesAt (s e n : ℕ) : ℕ := if n < s * e then n / s else e

/-- The span of the packet `n`. -/
def spanAt (s e n : ℕ) : ℕ := if n < s * e ∧ n < s then 0 else s

/-- **The packets under the entry `m`** of the packet `p`. -/
def groupNumbers (s e p m : ℕ) : List ℕ :=
  (List.range s).map fun i => p + m - entriesAt s e p * s + entriesAt s e p * i

/-- The parameters of a session. -/
structure FecParams (s e : ℕ) : Prop where
  span : 1 ≤ s
  entries : 1 ≤ e
  few : e ≤ maxFecEntries
  ring : s * e < 16

theorem entriesAt_le (s e n : ℕ) : entriesAt s e n ≤ e := by
  unfold entriesAt
  split
  · rename_i hlt
    exact (Nat.div_lt_of_lt_mul hlt).le
  · exact le_rfl

/-- An entry reaches back over packets that were sent. -/
theorem reach_le (s e n : ℕ) : entriesAt s e n * s ≤ n := by
  unfold entriesAt
  split
  · exact Nat.div_mul_le_self n s
  · rw [Nat.mul_comm]
    omega

theorem spanAt_eq (h : s ≤ n) : spanAt s e n = s := by
  unfold spanAt
  rw [if_neg (by omega)]

theorem entriesAt_mono (h : n ≤ p) : entriesAt s e n ≤ entriesAt s e p := by
  by_cases hlt : p < s * e
  · unfold entriesAt
    rw [if_pos (by omega), if_pos hlt]
    exact Nat.div_le_div_right h
  · have hle := entriesAt_le s e n
    unfold entriesAt at hle ⊢
    rw [if_neg hlt]
    exact hle

/-- The packets of a group come before the packet, and not long before. -/
theorem group_bounds (hm : m < entriesAt s e p) (hx : x ∈ groupNumbers s e p m) :
    p - entriesAt s e p * s ≤ x ∧ x < p := by
  obtain ⟨i, hi, rfl⟩ := List.mem_map.1 hx
  have hstep := Nat.mul_le_mul_left (entriesAt s e p) (List.mem_range.1 hi)
  have hreach := reach_le s e p
  rw [Nat.mul_succ] at hstep
  omega

section Params

variable (hp : FecParams s e)
include hp

theorem FecParams.reach_lt : entriesAt s e n * s < 16 := by
  have hle := Nat.mul_le_mul_right s (entriesAt_le s e n)
  have hring := hp.ring
  rw [Nat.mul_comm e s] at hle
  omega

/-- There are entries from the span on. -/
theorem FecParams.entriesAt_pos (h : s ≤ n) : 1 ≤ entriesAt s e n := by
  unfold entriesAt
  split
  · exact Nat.div_pos h hp.span
  · exact hp.entries

theorem FecParams.entriesAt_zero (h : n < s) : entriesAt s e n = 0 := by
  have hle : s * 1 ≤ s * e := Nat.mul_le_mul_left s hp.entries
  unfold entriesAt
  rw [if_pos (by omega), Nat.div_eq_of_lt h]

theorem FecParams.spanAt_zero (h : n < s) : spanAt s e n = 0 := by
  have hle : s * 1 ≤ s * e := Nat.mul_le_mul_left s hp.entries
  unfold spanAt
  rw [if_pos ⟨by omega, h⟩]

theorem FecParams.group_nodup (hm : m < entriesAt s e p) :
    ((groupNumbers s e p m).map (· % 16)).Nodup := by
  unfold groupNumbers
  rw [List.map_map]
  refine List.Nodup.map_on ?_ List.nodup_range
  intro i hi j hj heq
  have hbi := group_bounds hm (List.mem_map.2 ⟨i, hi, rfl⟩)
  have hbj := group_bounds hm (List.mem_map.2 ⟨j, hj, rfl⟩)
  have hlt := hp.reach_lt (n := p)
  simp only [Function.comp] at heq
  have hmul : entriesAt s e p * i = entriesAt s e p * j := by omega
  exact Nat.eq_of_mul_eq_mul_left (by omega) hmul

end Params

/-! ## The loop over a group -/

/-- The loop goes from packet to packet. -/
theorem ringLoop_eq (ht : 1 ≤ t) (hc : t * c < 16) (hfuel : c ≤ fuel) (n : ℕ) :
    ringLoop ((n + t * c) % 16) t fuel (n % 16) =
      some ((List.range c).map fun i => (n + t * i) % 16) := by
  induction c generalizing n fuel with
  | zero =>
    rw [Nat.mul_zero, Nat.add_zero]
    cases fuel with
    | zero =>
      rw [ringLoop, if_neg (by simp)]
      rfl
    | succ fuel =>
      rw [ringLoop, if_neg (by simp)]
      rfl
  | succ c ih =>
    rw [Nat.mul_succ] at hc ⊢
    obtain ⟨fuel, rfl⟩ : ∃ k, fuel = k + 1 := ⟨fuel - 1, by omega⟩
    have hrec := ih (by omega) (by omega : c ≤ fuel) (n + t)
    have hlimit : n + t + t * c = n + (t * c + t) := by omega
    have hnext : mask (((n % 16 : ℕ) : ℤ) + t) = (n + t) % 16 := by
      unfold mask
      omega
    rw [hlimit] at hrec
    rw [ringLoop, if_pos (by omega), hnext, hrec, List.range_succ_eq_map, List.map_cons,
      List.map_map]
    have hmap : (List.range c).map (fun i => (n + t + t * i) % 16) =
        (List.range c).map ((fun i => (n + t * i) % 16) ∘ Nat.succ) := by
      refine List.map_congr_left fun i _ => ?_
      simp only [Function.comp, Nat.mul_succ]
      congr 1
      omega
    rw [hmap, Nat.mul_zero, Nat.add_zero]
    rfl

/-- **The group of an entry** in the circular buffer. -/
theorem fecGroup_eq (hp : FecParams s e) (hm : m < entriesAt s e p) :
    fecGroup ((p + m) % 16) s (entriesAt s e p) =
      some ((groupNumbers s e p m).map (· % 16)) := by
  have hle := reach_le s e p
  have hlt := hp.reach_lt (n := p)
  have hfuel : s ≤ 16 := by
    have hs := Nat.mul_le_mul_right s (by omega : 1 ≤ entriesAt s e p)
    omega
  have hcast : (s : ℤ) * (entriesAt s e p : ℤ) = ((entriesAt s e p * s : ℕ) : ℤ) := by
    rw [Nat.mul_comm]
    exact (Int.natCast_mul _ _).symm
  have hstart : mask ((((p + m) % 16 : ℕ) : ℤ) - (s : ℤ) * (entriesAt s e p : ℤ)) =
      (p + m - entriesAt s e p * s) % 16 := by
    rw [hcast]
    unfold mask
    omega
  have hlimit : (p + m) % 16 = (p + m - entriesAt s e p * s + entriesAt s e p * s) % 16 := by
    rw [Nat.sub_add_cancel (by omega)]
  unfold fecGroup groupNumbers
  rw [hstart, hlimit, ringLoop_eq (by omega) hlt hfuel, List.map_map]
  rfl

/-! ## An entry -/

theorem xorInto_length (a b : List UInt8) : (xorInto a b).length = max a.length b.length := by
  unfold xorInto
  split
  · rw [List.length_append, List.length_zipWith, List.length_drop]
    omega
  · rw [List.length_append, List.length_zipWith, List.length_drop]
    omega

theorem zipWith_getD (h : j < min a.length b.length) :
    (List.zipWith (· ^^^ ·) a b)[j]? = some (a.getD j 0 ^^^ b.getD j 0) := by
  rw [List.getElem?_zipWith, List.getD_eq_getElem?_getD, List.getD_eq_getElem?_getD,
    List.getElem?_eq_getElem (by omega), List.getElem?_eq_getElem (by omega)]
  rfl

theorem getD_of_le (h : a.length ≤ j) : a.getD j 0 = 0 := by
  rw [List.getD_eq_getElem?_getD, List.getElem?_eq_none h]
  rfl

/-- A packet that is shorter counts as filled up with zeros. -/
theorem xorInto_getD (a b : List UInt8) (j : ℕ) :
    (xorInto a b).getD j 0 = a.getD j 0 ^^^ b.getD j 0 := by
  unfold xorInto
  by_cases hlt : a.length < b.length
  · rw [if_pos hlt, List.getD_eq_getElem?_getD]
    have hlen : (List.zipWith (· ^^^ ·) a b).length = a.length := by
      rw [List.length_zipWith]
      omega
    by_cases hj : j < a.length
    · rw [List.getElem?_append_left (by omega), zipWith_getD (by omega)]
      rfl
    · rw [List.getElem?_append_right (by omega), hlen, List.getElem?_drop,
        getD_of_le (not_lt.1 hj), UInt8.zero_xor, List.getD_eq_getElem?_getD]
      congr 2
      omega
  · rw [if_neg hlt, List.getD_eq_getElem?_getD]
    have hlen : (List.zipWith (· ^^^ ·) a b).length = b.length := by
      rw [List.length_zipWith]
      omega
    by_cases hj : j < b.length
    · rw [List.getElem?_append_left (by omega), zipWith_getD (by omega)]
      rfl
    · rw [List.getElem?_append_right (by omega), hlen, List.getElem?_drop,
        getD_of_le (not_lt.1 hj), UInt8.xor_zero, List.getD_eq_getElem?_getD]
      congr 2
      omega

/-- Some packets in one entry. -/
def block (ds : List (List UInt8)) : List UInt8 := ds.foldl xorInto []

/-- **The octets of an entry** are the parities of the packets' octets. -/
theorem block_getD (ds : List (List UInt8)) (j : ℕ) :
    (block ds).getD j 0 = parity (· ^^^ ·) 0 (fun d => d.getD j 0) ds := by
  have hstart : ∀ a : List UInt8, (ds.foldl xorInto a).getD j 0 =
      ds.foldl (fun b d => b ^^^ d.getD j 0) (a.getD j 0) := by
    induction ds with
    | nil => exact fun a => rfl
    | cons d ds ih =>
      intro a
      rw [List.foldl_cons, ih, xorInto_getD, List.foldl_cons]
  exact hstart []

/-- An entry is as long as the longest packet. -/
theorem block_length (ds : List (List UInt8)) :
    (∀ d ∈ ds, d.length ≤ (block ds).length) ∧
      ∀ k, (∀ d ∈ ds, d.length ≤ k) → (block ds).length ≤ k := by
  have hstart : ∀ a : List UInt8, a.length ≤ (ds.foldl xorInto a).length ∧
      (∀ d ∈ ds, d.length ≤ (ds.foldl xorInto a).length) ∧
      ∀ k, a.length ≤ k → (∀ d ∈ ds, d.length ≤ k) → (ds.foldl xorInto a).length ≤ k := by
    induction ds with
    | nil => exact fun a => ⟨le_rfl, by simp, fun k ha _ => ha⟩
    | cons d ds ih =>
      intro a
      obtain ⟨hacc, hall, hup⟩ := ih (xorInto a d)
      rw [xorInto_length] at hacc hup
      refine ⟨by rw [List.foldl_cons]; omega, fun d' hd => ?_, fun k ha hk => ?_⟩
      · rw [List.foldl_cons]
        rcases List.mem_cons.1 hd with rfl | hd
        · omega
        · exact hall d' hd
      · rw [List.foldl_cons]
        have hd := hk d List.mem_cons_self
        exact hup k (by omega) fun d' hd' => hk d' (List.mem_cons_of_mem _ hd')
  obtain ⟨-, hall, hup⟩ := hstart []
  exact ⟨hall, fun k hk => hup k (Nat.zero_le k) hk⟩

/-- The entry `m` of the packet `p`. -/
def fecEntry (s e : ℕ) (sent : List (List UInt8)) (p m : ℕ) : List UInt8 :=
  block ((groupNumbers s e p m).map fun x => sent.getD x [])

theorem getD_mem (hx : x < sent.length) : sent[x]? = some (sent.getD x []) := by
  rw [List.getD_eq_getElem?_getD, List.getElem?_eq_getElem hx]
  rfl

theorem fecEntry_length (hm : m < entriesAt s e p) (hpn : p ≤ sent.length)
    (hshort : ∀ ifp ∈ sent, ifp.length ≤ localFaxMaxDatagram) :
    (fecEntry s e sent p m).length ≤ localFaxMaxDatagram := by
  refine (block_length _).2 _ fun d hd => ?_
  obtain ⟨x, hx, rfl⟩ := List.mem_map.1 hd
  have hlt := (group_bounds hm hx).2
  exact hshort _ (List.mem_of_getElem? (getD_mem (by omega)))

/-- Every packet of a group is no longer than the entry. -/
theorem le_fecEntry_length (sent : List (List UInt8)) (hx : x ∈ groupNumbers s e p m) :
    (sent.getD x []).length ≤ (fecEntry s e sent p m).length :=
  (block_length _).1 _ (List.mem_map.2 ⟨x, hx, rfl⟩)

/-! ## The sender -/

/-- The group as the sender reads it. -/
theorem xorGroup_eq (hp : FecParams s e) (hslots : SlotsOk tx sent)
    (hm : m < entriesAt s e sent.length) :
    xorGroup tx ((groupNumbers s e sent.length m).map (· % 16)) =
      fecEntry s e sent sent.length m := by
  unfold xorGroup fecEntry block
  rw [List.foldl_map, List.foldl_map]
  refine List.foldl_ext _ _ _ fun fec x hx => ?_
  obtain ⟨hlow, hlt⟩ := group_bounds hm hx
  have hreach := hp.reach_lt (n := sent.length)
  rw [hslots x _ (getD_mem hlt) (by omega)]
  simp only [Int.toNat_natCast, List.take_length]

/-- The entries, one after the other. -/
theorem encodeFec_some (hp : FecParams s e) (hslots : SlotsOk tx sent)
    (hshort : ∀ ifp ∈ sent, ifp.length ≤ localFaxMaxDatagram)
    (hleft : left ≤ entriesAt s e sent.length)
    (h : encodeFec buflen tx (sent.length % 16) s (entriesAt s e sent.length) left buf =
      some (some buf')) :
    buf' = buf ++ openTypes (((List.range (entriesAt s e sent.length)).drop
      (entriesAt s e sent.length - left)).map (fecEntry s e sent sent.length)) := by
  induction left generalizing buf with
  | zero =>
    cases h
    rw [Nat.sub_zero, List.drop_eq_nil_of_le (by rw [List.length_range])]
    simp [openTypes]
  | succ left ih =>
    have hm : entriesAt s e sent.length - (left + 1) < entriesAt s e sent.length := by omega
    have hlimit : mask (((sent.length % 16 : ℕ) : ℤ) +
        ((entriesAt s e sent.length - (left + 1) : ℕ) : ℤ)) =
        (sent.length + (entriesAt s e sent.length - (left + 1))) % 16 := by
      unfold mask
      omega
    rw [encodeFec, hlimit, fecGroup_eq hp hm] at h
    simp only [Option.bind_eq_bind, Option.bind_some] at h
    rw [xorGroup_eq hp hslots hm] at h
    obtain ⟨res, h1, hrest⟩ := Option.bind_eq_some_iff.1 h
    cases res with
    | none => cases hrest
    | some buf₁ =>
      have hlen := fecEntry_length hm le_rfl hshort
      unfold localFaxMaxDatagram at hlen
      have hbuf₁ := encodeOpenType_some (by omega) h1
      have hrec := ih (by omega) hrest
      have hidx : entriesAt s e sent.length - (left + 1) + 1 = entriesAt s e sent.length - left := by
        omega
      have hdrop : (List.range (entriesAt s e sent.length)).drop
          (entriesAt s e sent.length - (left + 1)) = (entriesAt s e sent.length - (left + 1)) ::
            (List.range (entriesAt s e sent.length)).drop (entriesAt s e sent.length - left) := by
        rw [List.drop_eq_getElem_cons (by rwa [List.length_range]), List.getElem_range, hidx]
      rw [hrec, hbuf₁, hdrop, List.map_cons]
      unfold openTypes
      rw [List.flatMap_cons, List.append_assoc]

/-- **The datagram** of an IFP after the IFPs `sent`. -/
def fecDatagram (s e : ℕ) (sent : List (List UInt8)) (ifp : List UInt8) : List UInt8 :=
  seqOctets (sent.length % 65536) ++ openType ifp ++ 0x80 :: 1 ::
    UInt8.ofNat (spanAt s e sent.length) :: UInt8.ofNat (entriesAt s e sent.length) ::
    openTypes ((List.range (entriesAt s e sent.length)).map (fecEntry s e sent sent.length))

/-- **What the sender sends**, as long as the numbers have not come round. -/
theorem fec_sent (hp : FecParams s e) (hs : TxOk st sent) (hmode : SameMode (newTx .fec e s) st)
    (hfew : sent.length < 65536)
    (h : encodeErrorRecovery buflen (saved st sent.length ifp) (sent.length % 65536)
      (sent.length % 16) (seqOctets (sent.length % 65536) ++ openType ifp) = some (some buf)) :
    buf = fecDatagram s e sent ifp := by
  obtain ⟨hscheme, hentries, hspan⟩ := hmode
  have hscheme' : (saved st sent.length ifp).errorCorrectionScheme = .fec := hscheme
  have hentries' : (saved st sent.length ifp).errorCorrectionEntries = e := hentries
  have hspan' : (saved st sent.length ifp).errorCorrectionSpan = s := hspan
  unfold encodeErrorRecovery at h
  rw [hscheme'] at h
  simp only [hentries', hspan', Nat.mod_eq_of_lt hfew] at h
  obtain ⟨buf₁, h1, h⟩ := Option.bind_eq_some_iff.1 h
  obtain ⟨buf₂, h2, h⟩ := Option.bind_eq_some_iff.1 h
  obtain ⟨buf₃, h3, h⟩ := Option.bind_eq_some_iff.1 h
  obtain ⟨buf₄, h4, h⟩ := Option.bind_eq_some_iff.1 h
  have hhead : buf₄ = seqOctets sent.length ++ openType ifp ++ [0x80, 1,
      UInt8.ofNat (spanAt s e sent.length), UInt8.ofNat (entriesAt s e sent.length)] := by
    rw [putOctet_some h4, putOctet_some h3, putOctet_some h2, putOctet_some h1]
    simp [spanAt, entriesAt]
  have hslots : SlotsOk (saved st sent.length ifp).tx sent := hs.slots.update _
  have hfec : encodeFec buflen (saved st sent.length ifp).tx (sent.length % 16)
      (spanAt s e sent.length) (entriesAt s e sent.length) (entriesAt s e sent.length) buf₄ =
        some (some buf) := h
  have hbuf : buf = buf₄ ++ openTypes ((List.range (entriesAt s e sent.length)).map
      (fecEntry s e sent sent.length)) := by
    by_cases hlt : sent.length < s
    · rw [hp.entriesAt_zero hlt] at hfec ⊢
      cases hfec
      simp [openTypes]
    · rw [spanAt_eq (not_lt.1 hlt)] at hfec
      have henc := encodeFec_some hp hslots hs.short le_rfl hfec
      rwa [Nat.sub_self, List.drop_zero] at henc
  unfold fecDatagram
  rw [hbuf, hhead, Nat.mod_eq_of_lt hfew]
  simp

end Udptl

end Trismedia
