import Mathlib.Algebra.GroupWithZero.Nat
import Trismedia.Udptl.Fec
import Trismedia.Udptl.Returns
/-!
# UDPTL — the layout of a packet

A packet that is sent is a row of items: single octets, written without a
look at the room, and open types, whose length is written without a look
and whose octets only if they fit. So `udptl_build_packet` stays inside
its buffer exactly where every item that is come to has the room for what
is not checked.
-/


namespace Trismedia

namespace Udptl

/-- The octets of an open type that is `n` long: at least one. -/
def paid (n : ℕ) : ℕ := if n = 0 then 1 else n

/-- The octets of a length. -/
def lengthSize (n : ℕ) : ℕ := if n < 0x80 then 1 else if n < 0x4000 then 2 else 1

/-- A part of a packet. -/
inductive Item
  | octet
  | openType (n : ℕ)

/-- What of an item is written without a look at the room. -/
def Item.head : Item → ℕ
  | .octet => 1
  | .openType n => lengthSize (paid n)

/-- The octets of an item. -/
def Item.size : Item → ℕ
  | .octet => 1
  | .openType n => lengthSize (paid n) + paid n

@[simp] theorem Item.size_openType (n : ℕ) : (openType n).size = lengthSize (paid n) + paid n := rfl

/-- **The items fit** from `len` on: what is not checked has room, up to the
item that is refused. -/
def ItemsFit (buflen : ℕ) : List Item → ℕ → Prop
  | [], _ => True
  | item :: items, len =>
    len + item.head ≤ buflen ∧ (len + item.size ≤ buflen → ItemsFit buflen items (len + item.size))

instance decidableItemsFit (buflen : ℕ) :
    ∀ items len, Decidable (ItemsFit buflen items len)
  | [], _ => isTrue trivial
  | item :: items, len => by
    have := decidableItemsFit buflen items (len + item.size)
    exact inferInstanceAs (Decidable (_ ∧ (_ → _)))

/-- All the octets of some items. -/
def total (items : List Item) : ℕ := (items.map Item.size).sum

variable {buflen len n entries left : ℕ} {items : List Item} {item : Item}
variable {buf buf' data ifp : List UInt8}

theorem Item.head_le_size (item : Item) : item.head ≤ item.size := by
  cases item with
  | octet => exact Nat.le_refl 1
  | openType n => exact Nat.le_add_right _ _

/-- What fits as a whole fits. -/
theorem itemsFit_of_total (h : len + total items ≤ buflen) : ItemsFit buflen items len := by
  induction items generalizing len with
  | nil => trivial
  | cons item items ih =>
    have hsum : total (item :: items) = item.size + total items := by
      simp only [total, List.map_cons, List.sum_cons]
    have hhead := item.head_le_size
    exact ⟨by omega, fun _ => ih (by omega)⟩

/-! ## Writing an item -/

/-- What comes of writing some items: outside, refused, or written. -/
def Written (buflen : ℕ) (items : List Item) (buf : List UInt8)
    (r : Option (Option (List UInt8))) : Prop :=
  (¬ ItemsFit buflen items buf.length ∧ r = none) ∨
    (ItemsFit buflen items buf.length ∧ buflen < buf.length + total items ∧ r = some none) ∨
    (buf.length + total items ≤ buflen ∧
      ∃ buf', r = some (some buf') ∧ buf'.length = buf.length + total items)

theorem putOctet_full (h : buflen ≤ buf.length) (b : UInt8) : putOctet buflen buf b = none :=
  if_neg (by omega)

/-- The octets of `encode_length`. -/
theorem encodeLength_written (buflen : ℕ) (buf : List UInt8) (n : ℕ) :
    (buflen < buf.length + lengthSize n ∧ encodeLength buflen buf n = none) ∨
      (buf.length + lengthSize n ≤ buflen ∧ ∃ buf' enclen,
        encodeLength buflen buf n = some (buf', enclen) ∧
        buf'.length = buf.length + lengthSize n ∧ (n < 0x4000 → enclen = n) ∧
        (0x10000 ≤ n → enclen = 0x10000)) := by
  unfold encodeLength lengthSize
  by_cases hone : n < 0x80
  · rw [if_pos hone, if_pos hone]
    by_cases hroom : buf.length < buflen
    · refine .inr ⟨hroom, buf ++ [UInt8.ofNat n], n, ?_, ?_, fun _ => rfl, fun h => by omega⟩
      · rw [putOctet_fits hroom]
        rfl
      · rw [List.length_append, List.length_singleton]
    · refine .inl ⟨by omega, ?_⟩
      rw [putOctet_full (by omega)]
      rfl
  rw [if_neg hone, if_neg hone]
  by_cases htwo : n < 0x4000
  · rw [if_pos htwo, if_pos htwo]
    by_cases hfirst : buf.length < buflen
    · rw [putOctet_fits hfirst]
      simp only [Option.bind_eq_bind, Option.bind_some]
      unfold putOctet
      rw [List.length_append, List.length_singleton]
      by_cases hsecond : buf.length + 1 < buflen
      · rw [if_pos hsecond]
        refine .inr ⟨hsecond, _, n, rfl, ?_, fun _ => rfl, fun h => by omega⟩
        rw [List.length_append, List.length_append, List.length_singleton, List.length_singleton]
      · rw [if_neg hsecond]
        exact .inl ⟨by omega, rfl⟩
    · refine .inl ⟨by omega, ?_⟩
      rw [putOctet_full (by omega)]
      rfl
  · rw [if_neg htwo, if_neg htwo]
    by_cases hroom : buf.length < buflen
    · simp only [putOctet_fits hroom, Option.bind_eq_bind, Option.bind_some]
      refine .inr ⟨hroom, _, _, rfl, ?_, fun h => absurd h htwo, fun hbig => ?_⟩
      · rw [List.length_append, List.length_singleton]
      · show (if n < 0x10000 then n >>> 14 else 4) <<< 14 = _
        rw [if_neg (by omega)]
        rfl
    · have hfull : buflen ≤ buf.length := by omega
      simp only [putOctet_full hfull, Option.bind_eq_bind, Option.bind_none]
      exact .inl ⟨by omega, trivial⟩

/-- What comes of one open type. -/
def WroteOpenType (buflen n : ℕ) (buf : List UInt8) (r : Option (Option (List UInt8))) : Prop :=
  (buflen < buf.length + lengthSize (paid n) ∧ r = none) ∨
    (buf.length + lengthSize (paid n) ≤ buflen ∧
      buflen < buf.length + (lengthSize (paid n) + paid n) ∧ r = some none) ∨
    (buf.length + (lengthSize (paid n) + paid n) ≤ buflen ∧ ∃ buf', r = some (some buf') ∧
      buf'.length = buf.length + (lengthSize (paid n) + paid n))

theorem encodeOpenTypeLoop_written {fuel : ℕ} (hpos : 0 < n) (hbuf : buflen < 0x10000)
    (h : (n < 0x4000 ∧ data.length = n) ∨ 0x10000 ≤ n) :
    WroteOpenType buflen n buf (encodeOpenTypeLoop buflen (fuel + 1) buf data n) := by
  have hpaid : paid n = n := if_neg (by omega)
  unfold WroteOpenType
  rw [hpaid, encodeOpenTypeLoop]
  rcases encodeLength_written buflen buf n with ⟨hfull, hnone⟩ | ⟨hroom, buf', enclen, hsome, hlen,
    hsmall, hbig⟩
  · rw [hnone]
    exact .inl ⟨hfull, rfl⟩
  · rw [hsome]
    simp only [Option.bind_eq_bind, Option.bind_some]
    rcases h with ⟨hn, hdata⟩ | hn
    · obtain rfl := hsmall hn
      by_cases hover : enclen + buf'.length > buflen
      · rw [if_pos hover]
        exact .inr (.inl ⟨hroom, by omega, rfl⟩)
      · rw [if_neg hover, if_neg (by omega), if_pos (Nat.le_refl _)]
        refine .inr (.inr ⟨by omega, _, rfl, ?_⟩)
        rw [List.length_append, List.length_take, hdata, Nat.min_self]
        omega
    · have henc := hbig hn
      rw [if_pos (by omega)]
      exact .inr (.inl ⟨hroom, by omega, rfl⟩)

/-- **What comes of an open type.** Its octets are there, or its length is
that of a slot that was never filled. -/
theorem encodeOpenType_written (hbuf : buflen < 0x10000)
    (h : (n < 0x4000 ∧ data.length = n) ∨ 0x10000 ≤ n) :
    WroteOpenType buflen n buf (encodeOpenType buflen buf data n) := by
  unfold encodeOpenType
  by_cases hzero : n = 0
  · rw [if_pos hzero, hzero]
    have hone : WroteOpenType buflen 1 buf (encodeOpenTypeLoop buflen 1 buf [0] 1) :=
      encodeOpenTypeLoop_written (by decide) hbuf (.inl ⟨by decide, rfl⟩)
    exact hone
  · rw [if_neg hzero]
    exact encodeOpenTypeLoop_written (by omega) hbuf h

/-! ## One item after the other -/

variable {f : List UInt8 → Option (Option (List UInt8))}

theorem total_cons (item : Item) (items : List Item) :
    total (item :: items) = item.size + total items := by
  simp only [total, List.map_cons, List.sum_cons]

theorem written_nil (h : buf.length ≤ buflen) : Written buflen [] buf (some (some buf)) :=
  .inr (.inr ⟨h, buf, rfl, rfl⟩)

/-- A single octet, and what follows. -/
theorem written_octet
    (hf : ∀ buf', buf'.length ≤ buflen → Written buflen items buf' (f buf')) (b : UInt8) : Written buflen (.octet :: items) buf ((putOctet buflen buf b).bind f) := by
  unfold Written
  rw [total_cons, ← Nat.add_assoc]
  by_cases hroom : buf.length < buflen
  · rw [putOctet_fits hroom, Option.bind_some]
    have hlen : (buf ++ [b]).length = buf.length + 1 := by
      rw [List.length_append, List.length_singleton]
    have hfits : ItemsFit buflen (.octet :: items) buf.length ↔
        ItemsFit buflen items (buf.length + 1) :=
      ⟨fun h => h.2 hroom, fun h => ⟨hroom, fun _ => h⟩⟩
    have hrest := hf (buf ++ [b]) (by omega)
    unfold Written at hrest
    rw [hlen] at hrest
    rw [hfits]
    exact hrest
  · rw [putOctet_full (by omega), Option.bind_none]
    exact .inl ⟨fun h => hroom h.1, rfl⟩

/-- A count, and what follows. -/
theorem written_count (hn : n < 0x80)
    (hf : ∀ buf', buf'.length ≤ buflen → Written buflen items buf' (f buf')) :
    Written buflen (.octet :: items) buf ((encodeLength buflen buf n).bind fun r => f r.1) := by
  have heq : (encodeLength buflen buf n).bind (fun r => f r.1) =
      (putOctet buflen buf (UInt8.ofNat n)).bind f := by
    unfold encodeLength
    rw [if_pos hn]
    cases putOctet buflen buf (UInt8.ofNat n) <;> rfl
  rw [heq]
  exact written_octet hf _

/-- What `encode_open_type` is followed by. -/
def ifWritten (f : List UInt8 → Option (Option (List UInt8))) :
    Option (List UInt8) → Option (Option (List UInt8))
  | none => some none
  | some buf => f buf

/-- An open type, and what follows if it is not refused. -/
theorem written_openType {r : Option (Option (List UInt8))} (h : WroteOpenType buflen n buf r)
    (hf : ∀ buf', buf'.length ≤ buflen → Written buflen items buf' (f buf')) :
    Written buflen (.openType n :: items) buf (r.bind (ifWritten f)) := by
  unfold Written
  rw [total_cons, ← Nat.add_assoc, Item.size_openType]
  rcases h with ⟨hfull, rfl⟩ | ⟨hroom, hover, rfl⟩ | ⟨hroom, buf', rfl, hlen⟩
  · exact .inl ⟨fun h => by
      have hhead : _ + lengthSize (paid n) ≤ buflen := h.1
      omega, rfl⟩
  · refine .inr (.inl ⟨⟨hroom, fun h => ?_⟩, by omega, rfl⟩)
    have hsize : _ + (lengthSize (paid n) + paid n) ≤ buflen := h
    omega
  · have hfits : ItemsFit buflen (.openType n :: items) buf.length ↔
        ItemsFit buflen items (buf.length + (lengthSize (paid n) + paid n)) :=
      ⟨fun h => h.2 hroom, fun h => ⟨show _ + lengthSize (paid n) ≤ _ by omega, fun _ => h⟩⟩
    have hrest := hf buf' (by omega)
    unfold Written at hrest
    rw [hlen] at hrest
    rw [hfits]
    exact hrest

/-! ## The packet -/

/-- The copies that are sent along: the last `left` of them. -/
def copyItems (tx : ℕ → UdptlFecTx) (entry entries : ℕ) : ℕ → List Item
  | 0 => []
  | left + 1 =>
    let i := entries - (left + 1)
    .openType (toUnsigned (tx (mask ((entry : ℤ) - i - 1))).bufLen) :: copyItems tx entry entries left

/-- The longest packet of a group. -/
def highTide (tx : ℕ → UdptlFecTx) (group : List ℕ) : ℕ :=
  group.foldl (fun tide i => max tide (tx i).bufLen.toNat) 0

/-- The FEC entries: the last `left` of them. -/
def fecItems (tx : ℕ → UdptlFecTx) (entry span entries : ℕ) : ℕ → List Item
  | 0 => []
  | left + 1 =>
    let m := entries - (left + 1)
    let group := (fecGroup (mask ((entry : ℤ) + m)) span entries).getD []
    .openType (highTide tx group) :: fecItems tx entry span entries left

/-- **The error recovery** of a packet, from its mode octet on. -/
def recoveryItems (s : UdptlTx) (seq entry : ℕ) : List Item :=
  match s.errorCorrectionScheme with
  | .none => [.octet, .octet]
  | .redundancy =>
    let entries :=
      if s.txSeqNo > s.errorCorrectionEntries then s.errorCorrectionEntries else s.txSeqNo
    .octet :: .octet :: copyItems s.tx entry entries entries
  | .fec =>
    let windUp := seq < s.errorCorrectionSpan * s.errorCorrectionEntries
    let entries := if windUp then seq / s.errorCorrectionSpan else s.errorCorrectionEntries
    let span :=
      if windUp ∧ seq < s.errorCorrectionSpan then 0 else s.errorCorrectionSpan
    .octet :: .octet :: .octet :: .octet :: fecItems s.tx entry span entries entries

/-- The session once the message is saved. -/
def saveIfp (s : UdptlTx) (ifp : List UInt8) : UdptlTx :=
  { s with tx := Function.update s.tx (mask ((s.txSeqNo &&& 0xFFFF : ℕ) : ℤ)) ⟨ifp.length, ifp⟩ }

/-- **A packet**: the number, the primary packet and the error recovery. -/
def packetItems (s : UdptlTx) (ifp : List UInt8) : List Item :=
  let seq := s.txSeqNo &&& 0xFFFF
  .octet :: .octet :: .openType ifp.length :: recoveryItems (saveIfp s ifp) seq (mask seq)

/-- **A slot** holds a message, or was never filled. -/
def SlotFilled (slot : UdptlFecTx) : Prop :=
  (slot.bufLen = slot.buf.length ∧ slot.buf.length ≤ localFaxMaxDatagram) ∨
    (slot.bufLen = -1 ∧ slot.buf = [])

variable {tx : ℕ → UdptlFecTx} {entry span : ℕ} {s : UdptlTx}

theorem SlotFilled.openType {slot : UdptlFecTx} (h : SlotFilled slot) :
    (toUnsigned slot.bufLen < 0x4000 ∧ slot.buf.length = toUnsigned slot.bufLen) ∨
      0x10000 ≤ toUnsigned slot.bufLen := by
  unfold toUnsigned
  rcases h with ⟨hlen, hle⟩ | ⟨hlen, -⟩
  · refine .inl ?_
    unfold localFaxMaxDatagram at hle
    rw [hlen]
    omega
  · refine .inr ?_
    rw [hlen]
    decide

theorem encodeRedundancy_written (hbuf : buflen < 0x10000) (htx : ∀ x, SlotFilled (tx x))
    (hroom : buf.length ≤ buflen) :
    Written buflen (copyItems tx entry entries left) buf
      (encodeRedundancy buflen tx entry entries left buf) := by
  induction left generalizing buf with
  | zero => exact written_nil hroom
  | succ left ih =>
    have hopen := (htx (mask ((entry : ℤ) - (entries - (left + 1) : ℕ) - 1))).openType
    exact written_openType (encodeOpenType_written hbuf hopen) fun buf' hroom' => ih hroom'

theorem xorGroup_length (htx : ∀ x, SlotFilled (tx x)) (group : List ℕ) :
    (xorGroup tx group).length = highTide tx group := by
  have hslot : ∀ x, ((tx x).buf.take (tx x).bufLen.toNat).length = (tx x).bufLen.toNat := by
    intro x
    rw [List.length_take]
    rcases htx x with ⟨hlen, -⟩ | ⟨hlen, hnil⟩
    · rw [hlen]
      omega
    · rw [hlen, hnil]
      rfl
  have hfold : ∀ (g : List ℕ) (fec : List UInt8) (tide : ℕ), fec.length = tide →
      (g.foldl (fun fec i => xorInto fec ((tx i).buf.take (tx i).bufLen.toNat)) fec).length =
        g.foldl (fun tide i => max tide (tx i).bufLen.toNat) tide := by
    intro g
    induction g with
    | nil => exact fun _ _ h => h
    | cons i g ih =>
      intro fec tide h
      refine ih _ _ ?_
      rw [xorInto_length, hslot, h]
  exact hfold group [] 0 rfl

theorem highTide_le (htx : ∀ x, SlotFilled (tx x)) (group : List ℕ) :
    highTide tx group ≤ localFaxMaxDatagram := by
  have hslot : ∀ x, (tx x).bufLen.toNat ≤ localFaxMaxDatagram := by
    intro x
    rcases htx x with ⟨hlen, hle⟩ | ⟨hlen, -⟩
    · rw [hlen]
      exact hle
    · rw [hlen]
      exact Nat.zero_le _
  have hfold : ∀ (g : List ℕ) (tide : ℕ), tide ≤ localFaxMaxDatagram →
      g.foldl (fun tide i => max tide (tx i).bufLen.toNat) tide ≤ localFaxMaxDatagram := by
    intro g
    induction g with
    | nil => exact fun _ h => h
    | cons i g ih => exact fun tide h => ih _ (max_le h (hslot i))
  exact hfold group 0 (Nat.zero_le _)

theorem encodeFec_written (hbuf : buflen < 0x10000) (htx : ∀ x, SlotFilled (tx x))
    (hroom : buf.length ≤ buflen) :
    Written buflen (fecItems tx entry span entries left) buf
      (encodeFec buflen tx entry span entries left buf) := by
  induction left generalizing buf with
  | zero => exact written_nil hroom
  | succ left ih =>
    obtain ⟨group, hgroup⟩ := fecGroup_returns (entry + (entries - (left + 1))) span entries
    rw [Int.natCast_add] at hgroup
    have htide := highTide_le htx group
    have hopen : (highTide tx group < 0x4000 ∧ (xorGroup tx group).length = highTide tx group) ∨
        0x10000 ≤ highTide tx group := by
      unfold localFaxMaxDatagram at htide
      exact .inl ⟨by omega, xorGroup_length htx group⟩
    rw [fecItems, encodeFec]
    simp only [hgroup, Option.getD_some, Option.bind_eq_bind, Option.bind_some, xorGroup_length htx]
    exact written_openType (encodeOpenType_written hbuf hopen) fun buf' hroom' => ih hroom'

theorem encodeErrorRecovery_written (hbuf : buflen < 0x10000) (htx : ∀ x, SlotFilled (s.tx x))
    (hentries : s.errorCorrectionEntries < 0x80) (seq entry : ℕ) (buf : List UInt8) :
    Written buflen (recoveryItems s seq entry) buf (encodeErrorRecovery buflen s seq entry buf) := by
  unfold recoveryItems encodeErrorRecovery
  cases s.errorCorrectionScheme with
  | none =>
    refine written_octet (fun buf₁ h₁ => ?_) 0x00
    exact written_count (by decide) fun buf₂ h₂ => written_nil h₂
  | redundancy =>
    refine written_octet (fun buf₁ h₁ => ?_) 0x00
    refine written_count ?_ fun buf₂ h₂ => encodeRedundancy_written hbuf htx h₂
    split_ifs
    · exact hentries
    · omega
  | fec =>
    refine written_octet (fun buf₁ h₁ => ?_) 0x80
    refine written_octet (fun buf₂ h₂ => ?_) 1
    refine written_octet (fun buf₃ h₃ => ?_) _
    refine written_octet (fun buf₄ h₄ => ?_) _
    exact encodeFec_written hbuf htx h₄

theorem saveIfp_filled (htx : ∀ x, SlotFilled (s.tx x)) (hlen : ifp.length ≤ localFaxMaxDatagram) :
    ∀ x, SlotFilled ((saveIfp s ifp).tx x) := by
  intro x
  show SlotFilled (Function.update s.tx _ _ x)
  by_cases hx : x = mask ((s.txSeqNo &&& 0xFFFF : ℕ) : ℤ)
  · rw [hx, Function.update_self]
    exact .inl ⟨rfl, hlen⟩
  · rw [Function.update_of_ne hx]
    exact htx x

/-- **What comes of a packet.** -/
theorem udptlBuildPacket_written (hbuf : buflen < 0x10000) (htx : ∀ x, SlotFilled (s.tx x))
    (hentries : s.errorCorrectionEntries < 0x80) (hlen : ifp.length ≤ localFaxMaxDatagram) :
    Written buflen (packetItems s ifp) [] ((udptlBuildPacket buflen s ifp).map Prod.snd) := by
  have hopen : (ifp.length < 0x4000 ∧ ifp.length = ifp.length) ∨ 0x10000 ≤ ifp.length := by
    unfold localFaxMaxDatagram at hlen
    exact .inl ⟨by omega, rfl⟩
  have hsaved := saveIfp_filled htx hlen
  have heq : (udptlBuildPacket buflen s ifp).map Prod.snd =
      (putOctet buflen [] (UInt8.ofNat (((s.txSeqNo &&& 0xFFFF) >>> 8) &&& 0xFF))).bind fun buf =>
        (putOctet buflen buf (UInt8.ofNat ((s.txSeqNo &&& 0xFFFF) &&& 0xFF))).bind fun buf =>
          (encodeOpenType buflen buf ifp ifp.length).bind (ifWritten fun buf =>
            encodeErrorRecovery buflen (saveIfp s ifp) (s.txSeqNo &&& 0xFFFF)
              (mask ((s.txSeqNo &&& 0xFFFF : ℕ) : ℤ)) buf) := by
    unfold udptlBuildPacket
    simp only [Option.bind_eq_bind]
    rw [if_neg (Nat.not_lt_of_le hlen), Option.map_bind]
    refine congrArg (Option.bind _) (funext fun buf₁ => ?_)
    show Option.map Prod.snd (Option.bind _ _) = _
    rw [Option.map_bind]
    refine congrArg (Option.bind _) (funext fun buf₂ => ?_)
    show Option.map Prod.snd (Option.bind _ _) = _
    rw [Option.map_bind]
    refine congrArg (Option.bind _) (funext fun open₁ => ?_)
    cases open₁ with
    | none => rfl
    | some buf₃ =>
      show Option.map Prod.snd (Option.bind (encodeErrorRecovery buflen (saveIfp s ifp)
        (s.txSeqNo &&& 0xFFFF) (mask ((s.txSeqNo &&& 0xFFFF : ℕ) : ℤ)) buf₃) _) =
          encodeErrorRecovery buflen (saveIfp s ifp) _ _ buf₃
      cases encodeErrorRecovery buflen (saveIfp s ifp) (s.txSeqNo &&& 0xFFFF)
          (mask ((s.txSeqNo &&& 0xFFFF : ℕ) : ℤ)) buf₃ with
      | none => rfl
      | some res =>
        cases res
        · rfl
        · rfl
  rw [heq]
  unfold packetItems
  refine written_octet (fun buf₁ h₁ => ?_) _
  refine written_octet (fun buf₂ h₂ => ?_) _
  refine written_openType (encodeOpenType_written hbuf hopen) fun buf₃ _ => ?_
  exact encodeErrorRecovery_written hbuf hsaved hentries _ _ buf₃

/-- **`udptl_build_packet` stays inside** exactly where its items fit. -/
theorem udptlBuildPacket_some_iff (hbuf : buflen < 0x10000) (htx : ∀ x, SlotFilled (s.tx x))
    (hentries : s.errorCorrectionEntries < 0x80) :
    (∃ r, udptlBuildPacket buflen s ifp = some r) ↔
      ifp.length ≤ localFaxMaxDatagram ∧ ItemsFit buflen (packetItems s ifp) 0 := by
  by_cases hlen : ifp.length ≤ localFaxMaxDatagram
  · have hw := udptlBuildPacket_written hbuf htx hentries hlen
    rw [and_iff_right hlen]
    cases hr : udptlBuildPacket buflen s ifp with
    | none =>
      rw [hr] at hw
      refine iff_of_false (by simp) ?_
      rcases hw with ⟨hno, -⟩ | ⟨-, -, h⟩ | ⟨-, buf', h, -⟩
      · exact hno
      · cases h
      · cases h
    | some r =>
      rw [hr] at hw
      refine iff_of_true ⟨r, rfl⟩ ?_
      rcases hw with ⟨-, h⟩ | ⟨hfits, -, -⟩ | ⟨hroom, -⟩
      · cases h
      · exact hfits
      · exact itemsFit_of_total hroom
  · refine iff_of_false ?_ fun h => hlen h.1
    rintro ⟨r, hr⟩
    unfold udptlBuildPacket at hr
    simp only at hr
    rw [if_pos (Nat.lt_of_not_le hlen)] at hr
    cases hr

/-- **What a packet leaves**: the message in its slot, and the parameters as
they were. -/
theorem udptlBuildPacket_leaves {s' : UdptlTx} {res : Option (List UInt8)}
    (h : udptlBuildPacket buflen s ifp = some (s', res)) :
    ifp.length ≤ localFaxMaxDatagram ∧ s'.tx = (saveIfp s ifp).tx ∧
      s'.errorCorrectionScheme = s.errorCorrectionScheme ∧
      s'.errorCorrectionEntries = s.errorCorrectionEntries ∧
      s'.errorCorrectionSpan = s.errorCorrectionSpan := by
  unfold udptlBuildPacket at h
  simp only [Option.bind_eq_bind] at h
  by_cases hlen : ifp.length > localFaxMaxDatagram
  · rw [if_pos hlen] at h
    cases h
  rw [if_neg hlen] at h
  refine ⟨Nat.le_of_not_gt hlen, ?_⟩
  obtain ⟨buf₁, -, h⟩ := Option.bind_eq_some_iff.1 h
  obtain ⟨buf₂, -, h⟩ := Option.bind_eq_some_iff.1 h
  obtain ⟨open₁, -, h⟩ := Option.bind_eq_some_iff.1 h
  cases open₁ with
  | none =>
    obtain ⟨rfl, -⟩ := Prod.mk.inj (Option.some.inj h)
    exact ⟨rfl, rfl, rfl, rfl⟩
  | some buf₃ =>
    obtain ⟨rec, -, h⟩ := Option.bind_eq_some_iff.1 h
    cases rec with
    | none =>
      obtain ⟨rfl, -⟩ := Prod.mk.inj (Option.some.inj h)
      exact ⟨rfl, rfl, rfl, rfl⟩
    | some buf =>
      obtain ⟨rfl, -⟩ := Prod.mk.inj (Option.some.inj h)
      exact ⟨rfl, rfl, rfl, rfl⟩

end Udptl

end Trismedia
