import Trismedia.Udptl.Model
/-!
# What is written is what is read

`lengthOctets` and `openType` are what the encoders write, and the decoders
read them back. All is below `0x4000` octets, so that there are no
fragments.
-/


namespace Trismedia

namespace Udptl

variable {n m value buflen seq : ℕ} {buf buf' data rest : List UInt8} {b : UInt8}
variable {r : Option (List UInt8)}

/-- A length below `0x4000`. -/
def lengthOctets (n : ℕ) : List UInt8 :=
  if n < 0x80 then [UInt8.ofNat n] else [UInt8.ofNat (0x80 ||| n >>> 8), UInt8.ofNat (n % 256)]

/-- What is sent for an open type: of zero length it is a zero byte. -/
def payload (data : List UInt8) : List UInt8 := if data = [] then [0] else data

/-- An open type below `0x4000` octets. -/
def openType (data : List UInt8) : List UInt8 := lengthOctets (payload data).length ++ payload data

theorem payload_of_ne (h : data ≠ []) : payload data = data := if_neg h

theorem payload_length_lt (h : data.length < 0x4000) : (payload data).length < 0x4000 := by
  unfold payload
  split
  · simp
  · exact h

/-! ## Octets -/

theorem short_octet : ∀ n < 128, UInt8.ofNat n &&& 0x80 = 0 ∧ (UInt8.ofNat n).toNat = n := by
  decide +kernel

theorem long_octet : ∀ n < 64, UInt8.ofNat (0x80 ||| n) &&& 0x80 ≠ 0 ∧
    UInt8.ofNat (0x80 ||| n) &&& 0x40 = 0 ∧ (UInt8.ofNat (0x80 ||| n) &&& 0x3F).toNat = n := by
  decide +kernel

theorem toNat_ofNat_mod (n : ℕ) : (UInt8.ofNat (n % 256)).toNat = n % 256 := by
  rw [UInt8.toNat_ofNat']
  omega

/-- Two octets make a number again. -/
theorem two_octets (h : n / 256 = m) : (m <<< 8) ||| (n % 256) = n := by
  have hlt : n % 256 < 2 ^ 8 := Nat.mod_lt _ (by decide)
  rw [← Nat.shiftLeft_add_eq_or_of_lt hlt, Nat.shiftLeft_eq]
  omega

/-- The octets of a sequence number. -/
def seqOctets (seq : ℕ) : List UInt8 := [UInt8.ofNat (seq / 256), UInt8.ofNat (seq % 256)]

theorem seqOctets_value (h : seq < 65536) :
    ((UInt8.ofNat (seq / 256)).toNat <<< 8) ||| (UInt8.ofNat (seq % 256)).toNat = seq := by
  have hhi : (UInt8.ofNat (seq / 256)).toNat = seq / 256 := by
    rw [UInt8.toNat_ofNat']
    omega
  rw [hhi, toNat_ofNat_mod]
  exact two_octets rfl

/-! ## Decoding -/

theorem decodeLength_octets (h : n < 0x4000) :
    decodeLength (lengthOctets n ++ rest) = some (false, n, rest) := by
  unfold lengthOctets
  by_cases hn : n < 0x80
  · obtain ⟨h1, h2⟩ := short_octet n hn
    rw [if_pos hn, List.singleton_append]
    unfold decodeLength
    simp only
    rw [if_pos h1, h2]
  · have hhi : n >>> 8 = n / 256 := Nat.shiftRight_eq_div_pow n 8
    obtain ⟨h1, h2, h3⟩ := long_octet (n >>> 8) (by omega)
    rw [if_neg hn, List.cons_append, List.singleton_append]
    unfold decodeLength
    simp only
    rw [if_neg h1, if_pos h2]
    simp only [h3, toNat_ofNat_mod]
    rw [two_octets hhi.symm]

/-- **An open type is read back.** -/
theorem decodeOpenType_openType (h : data.length < 0x4000) :
    decodeOpenType (openType data ++ rest) = some (.ok (payload data, rest)) := by
  have hlen := payload_length_lt h
  have hpos : 0 < (payload data).length := by
    unfold payload
    split
    · simp
    · exact List.length_pos_of_ne_nil ‹_›
  unfold decodeOpenType openType
  rw [decodeOpenTypeLoop, List.append_assoc, decodeLength_octets hlen]
  simp only
  rw [if_pos hpos, if_neg (by simp), if_neg (by simp), if_neg (by simp), List.take_left,
    List.drop_left]

/-! ## Encoding -/

theorem putOctet_some (h : putOctet buflen buf b = some buf') : buf' = buf ++ [b] := by
  unfold putOctet at h
  split at h
  · exact (Option.some.inj h).symm
  · cases h

theorem encodeLength_some (hn : n < 0x4000) (h : encodeLength buflen buf n = some (buf', value)) :
    buf' = buf ++ lengthOctets n ∧ value = n := by
  unfold encodeLength at h
  unfold lengthOctets
  by_cases hshort : n < 0x80
  · rw [if_pos hshort] at h ⊢
    obtain ⟨buf₁, h1, h2⟩ := Option.bind_eq_some_iff.1 h
    cases h2
    exact ⟨putOctet_some h1, rfl⟩
  · rw [if_neg hshort, if_pos hn] at h
    rw [if_neg hshort]
    obtain ⟨buf₁, h1, h2⟩ := Option.bind_eq_some_iff.1 h
    obtain ⟨buf₂, h3, h4⟩ := Option.bind_eq_some_iff.1 h2
    cases h4
    have hhi : ((0x8000 ||| n) >>> 8) &&& 0xFF = 0x80 ||| n >>> 8 := by
      have hlt : 0x80 ||| n >>> 8 < 2 ^ 8 := by
        refine Nat.or_lt_two_pow (by decide) ?_
        rw [Nat.shiftRight_eq_div_pow]
        omega
      rw [Nat.shiftRight_or_distrib]
      exact (Nat.and_two_pow_sub_one_eq_mod _ 8).trans (Nat.mod_eq_of_lt hlt)
    have hlo : n &&& 0xFF = n % 256 := Nat.and_two_pow_sub_one_eq_mod n 8
    rw [putOctet_some h3, putOctet_some h1, hhi, hlo, List.append_assoc]
    exact ⟨rfl, rfl⟩

theorem encodeOpenTypeLoop_some {fuel : ℕ} (hn : data.length < 0x4000)
    (h : encodeOpenTypeLoop buflen (fuel + 1) buf data data.length = some (some buf')) :
    buf' = buf ++ lengthOctets data.length ++ data := by
  rw [encodeOpenTypeLoop] at h
  obtain ⟨⟨buf₁, enclen⟩, h1, h2⟩ := Option.bind_eq_some_iff.1 h
  obtain ⟨rfl, rfl⟩ := encodeLength_some hn h1
  simp only [lt_self_iff_false, if_false, gt_iff_lt, ge_iff_le, le_refl, if_true,
    List.take_length] at h2
  split at h2
  · cases h2
  · cases h2
    rfl

/-- **An open type is written**, unless it does not fit. -/
theorem encodeOpenType_some (hn : data.length < 0x4000)
    (h : encodeOpenType buflen buf data data.length = some (some buf')) :
    buf' = buf ++ openType data := by
  unfold encodeOpenType at h
  unfold openType payload
  by_cases hnil : data = []
  · subst hnil
    rw [List.length_nil, if_pos rfl] at h
    rw [if_pos rfl]
    have hloop := encodeOpenTypeLoop_some (by decide) h
    rw [hloop, List.append_assoc]
  · rw [if_neg (by simpa using hnil)] at h
    rw [if_neg hnil, ← List.append_assoc]
    exact encodeOpenTypeLoop_some hn h

/-! ## What fits is written -/

theorem putOctet_fits (h : buf.length < buflen) : putOctet buflen buf b = some (buf ++ [b]) :=
  if_pos h

theorem encodeLength_short (hn : n < 0x80) (h : buf.length < buflen) :
    encodeLength buflen buf n = some (buf ++ lengthOctets n, n) := by
  unfold encodeLength lengthOctets
  rw [if_pos hn, if_pos hn, putOctet_fits h]
  rfl

/-- **A short open type that fits is written.** -/
theorem encodeOpenType_fits (hne : data ≠ []) (hn : data.length < 0x80)
    (h : buf.length + data.length < buflen) :
    encodeOpenType buflen buf data data.length = some (some (buf ++ openType data)) := by
  have hpos := List.length_pos_of_ne_nil hne
  unfold encodeOpenType openType
  rw [if_neg (by omega), encodeOpenTypeLoop, encodeLength_short hn (by omega), payload_of_ne hne]
  simp only [Option.bind_eq_bind, Option.bind_some]
  have hone : (lengthOctets data.length).length = 1 := by
    unfold lengthOctets
    rw [if_pos hn]
    rfl
  rw [if_neg (by
    rw [List.length_append, hone]
    omega), if_neg (by omega), if_pos le_rfl, List.take_length, List.append_assoc]
  rfl

/-! ## Runs of open types -/

/-- Open types one after the other. -/
def openTypes (ds : List (List UInt8)) : List UInt8 := ds.flatMap openType

theorem openTypes_cons {ds : List (List UInt8)} :
    openTypes (data :: ds) ++ rest = openType data ++ (openTypes ds ++ rest) := by
  unfold openTypes
  rw [List.flatMap_cons, List.append_assoc]

end Udptl

end Trismedia
