import Trismedia.Isup.Fields
/-!
# What is received

A message that `decode_isup_msg` has accepted goes to `process_isup_message`
with its header and the union that was decoded. A number in it is a string in
its place, whatever its octets were.
-/


namespace Trismedia

namespace Isup

namespace Union

open Mtp2 Memory

/-- `struct isup_msg` -/
structure Received where
  header : Header
  typ : MsgType
  union : ℕ → Octet

/-- A message that is decoded; `none` is one that is not accepted, or not
without octets behind it. -/
def received (variant : Ss7Variant) (buf : List Octet) : Option Received :=
  (decodeHeader variant buf).bind fun h =>
    (MsgType.ofCode h.1.typ).bind fun typ =>
      (decodeParams typ h.2).bind fun d =>
        if d.ok then some ⟨h.1, typ, stored d.writes⟩ else none

instance : Zero Octet := ⟨0⟩

/-- The place of `num` in a `struct isup_phonenum`, and of `complete`. -/
def offsetofNum : ℕ := 12

def offsetofComplete : ℕ := 8

/-- The string in `num`. -/
def numAt (m : ℕ → Octet) (phonenum : ℕ) : List Octet :=
  strFrom m (phonenumMax + 1) (phonenum + offsetofNum)

variable {variant : Ss7Variant} {buf : List Octet} {r : Received}

/-- What was received is what the decoders have written. -/
theorem received_eq_some (h : received variant buf = some r) :
    ∃ params d, caseOf variant buf = some (r.typ, params) ∧ decodeParams r.typ params = some d ∧
      d.ok = true ∧ r.union = stored d.writes := by
  obtain ⟨hdr, hhdr, h⟩ := Option.bind_eq_some_iff.1 h
  obtain ⟨typ, htyp, h⟩ := Option.bind_eq_some_iff.1 h
  obtain ⟨d, hd, h⟩ := Option.bind_eq_some_iff.1 h
  by_cases hok : d.ok = true
  · rw [if_pos hok] at h
    obtain rfl := Option.some.inj h
    refine ⟨hdr.2, d, ?_, hd, hok, rfl⟩
    rw [caseOf, hhdr, Option.bind_some, htyp]
    rfl
  · rw [if_neg hok] at h
    exact absurd h (Option.some_ne_none _).symm

/-! ## Numbers -/

/-- The last octet of `num` is a zero if it was. -/
theorem numWrites_last (data : ℕ) :
    NumWrites data fun w => ∀ m : ℕ → Octet, m (data + 32) = 0 →
      store m w.address w.octets (data + 32) = 0 := by
  have hint : ∀ k v, k ≤ 8 → ∀ m : ℕ → Octet, m (data + 32) = 0 →
      store m (putInt (data + k) v).address (putInt (data + k) v).octets (data + 32) = 0 := by
    intro k v hk m hm
    rw [store_after, hm]
    show data + k + 4 ≤ data + 32
    omega
  refine ⟨fun v => hint 0 v (by omega), fun v => hint 4 v (by omega), fun v => hint 8 v (by omega),
    ?_, ?_, ?_⟩
  · intro m _
    have hplace : data + 32 - (data + 12) = 20 := by omega
    show store m (data + 12) (List.replicate (phonenumMax + 1) 0) (data + 32) = 0
    rw [store, if_pos (by omega), hplace]
    rfl
  · intro i c hi m hm
    rw [store_after, hm]
    show data + 12 + i + 1 ≤ data + 32
    omega
  · intro i hi m hm
    show store m (data + 12 + i) [0] (data + 32) = 0
    rcases Nat.lt_or_ge i 20 with hlt | hge
    · rw [store_after, hm]
      show data + 12 + i + 1 ≤ data + 32
      omega
    · obtain rfl : i = 20 := by omega
      rw [store, if_pos (by omega), Nat.sub_self]
      rfl

/-- The decoders of the number dialled, and of what comes after it. -/
theorem entry_num (typ : MsgType) (htyp : typ = .iam ∨ typ = .sam) :
    ∀ e ∈ decodersOf typ.signature, (e.data = 0 ∧ (e.decoder = .dni ∨ e.decoder = .sni)) ∨
      36 ≤ e.data + e.decoder.span.base := by
  rcases htyp with rfl | rfl <;> decide

/-- **A number ends in its place.** -/
theorem num_terminated (h : received variant buf = some r) (htyp : r.typ = .iam ∨ r.typ = .sam) :
    ∃ l, StrAt r.union offsetofNum l ∧ l.length ≤ phonenumMax := by
  obtain ⟨params, d, -, hd, -, hunion⟩ := received_eq_some h
  refine exists_strAt ?_
  rw [hunion]
  refine storeAll_keeps (P := fun m => m 32 = 0) ?_ rfl
  intro w hw m hm
  obtain ⟨v, hv, rfl⟩ := List.mem_map.1 hw
  obtain ⟨e, he, p, ok, ws, -, hrun, hmem⟩ := mem_writes_run hd hv
  rcases entry_num r.typ htyp e he with ⟨hdata, hdec⟩ | hapart
  · have hkeeps : ∃ ok ws, e.decoder.run e.data p = some (ok, ws) ∧ ∀ w ∈ ws,
        ∀ m : ℕ → Octet, m 32 = 0 → store m w.address w.octets 32 = 0 := by
      have hnum := numWrites_last 0
      rw [Nat.zero_add] at hnum
      rw [hdata]
      rcases hdec with hdec | hdec <;> rw [hdec]
      · exact hnum.decodePhonenum false
      · exact hnum.decodeSni
    obtain ⟨ok', ws', hrun', hall⟩ := hkeeps
    obtain ⟨-, rfl⟩ := Prod.mk.inj (Option.some.inj (hrun.symm.trans hrun'))
    exact hall v.2 hmem m hm
  · obtain ⟨ok', ws', hrun', hin⟩ := e.run_inside p
    obtain ⟨-, rfl⟩ := Prod.mk.inj (Option.some.inj (hrun.symm.trans hrun'))
    have hbase : 36 ≤ v.2.address := Nat.le_trans hapart (hin v.2 hmem).1
    rw [store_before (by omega), hm]

end Union

end Isup

end Trismedia
