import Trismedia.Isup.Decode
import Trismedia.Isup.Number
/-!
# What is read of a number

The digits written are packed behind the first two octets, and what was in the
array stands behind them. A decoder takes the digits of its octets, the low
half first, until it has as many as it counts or comes to an ST.
-/


namespace Trismedia

namespace Isup

open Mtp2 CString

/-! ## The digits of an octet -/

/-- Digits, two in an octet. -/
def pack : List ℕ → List Octet
  | [] => []
  | [a] => [UInt8.ofNat a]
  | a :: b :: ds => UInt8.ofNat (a + b * 16) :: pack ds

/-- The digits in octets. -/
def halves (p : List Octet) : List ℕ := p.flatMap fun o => [o.toNat % 16, o.toNat / 16]

theorem halves_cons (o : Octet) (p : List Octet) :
    halves (o :: p) = o.toNat % 16 :: o.toNat / 16 :: halves p := rfl

theorem halves_append (p q : List Octet) : halves (p ++ q) = halves p ++ halves q :=
  List.flatMap_append

theorem length_halves (p : List Octet) : (halves p).length = 2 * p.length := by
  induction p with
  | nil => rfl
  | cons o p ih =>
    rw [halves_cons, List.length_cons, List.length_cons, List.length_cons, ih]
    omega

theorem length_pack (ds : List ℕ) : (pack ds).length = (ds.length + 1) / 2 := by
  induction ds using pack.induct with
  | case1 => rfl
  | case2 a => simp [pack]
  | case3 a b ds ih =>
    simp only [pack, List.length_cons, ih]
    omega

/-- **What was packed is there**, with a 0 where there was nothing. -/
theorem halves_pack {ds : List ℕ} (h : ∀ d ∈ ds, d < 16) :
    halves (pack ds) = ds ++ List.replicate (ds.length % 2) 0 := by
  induction ds using pack.induct with
  | case1 => rfl
  | case2 a =>
    have ha : (UInt8.ofNat a).toNat = a :=
      Nat.mod_eq_of_lt (by have := h a List.mem_cons_self; omega)
    have hlt := h a List.mem_cons_self
    have hlow : a % 16 = a := Nat.mod_eq_of_lt hlt
    have hhigh : a / 16 = 0 := Nat.div_eq_of_lt hlt
    simp [pack, halves, ha, hlow, hhigh]
  | case3 a b ds ih =>
    obtain ⟨ha, hb, hds⟩ : a < 16 ∧ b < 16 ∧ ∀ d ∈ ds, d < 16 := by simpa using h
    have hab : (UInt8.ofNat (a + b * 16)).toNat = a + b * 16 := Nat.mod_eq_of_lt (by omega)
    have hlow : (a + b * 16) % 16 = a := by omega
    have hhigh : (a + b * 16) / 16 = b := by omega
    have hlen : (a :: b :: ds).length % 2 = ds.length % 2 := by
      simp only [List.length_cons]
      omega
    rw [pack, halves_cons, hab, hlow, hhigh, ih hds, hlen]
    rfl

/-! ## What is written -/

variable {ds : List ℕ} {param q : List Octet} {number digits : CString} {k m left : ℕ}

/-- Digits written one after the other from the `i`-th on. -/
def putDigits : List ℕ → ℕ → List Octet → List Octet
  | [], _, param => param
  | d :: ds, i, param => putDigits ds (i + 1) (putDigit param i d)

theorem isupPhonenumDigits_eq (addSt : Bool) : ∀ {number : CString} {ds : List ℕ} (i : ℕ)
    (param : List Octet), number.mapM digitOf = some ds →
      isupPhonenumDigits addSt number i param =
        some (putDigits (ds ++ if addSt then [0xf] else []) i param) := by
  intro number
  induction number with
  | nil =>
    intro ds i param h
    obtain rfl : [] = ds := by simpa using h
    cases addSt <;> rfl
  | cons c number ih =>
    intro ds i param h
    rw [List.mapM_cons] at h
    obtain ⟨d, hd, h⟩ := Option.bind_eq_some_iff.1 h
    obtain ⟨rest, hrest, h⟩ := Option.bind_eq_some_iff.1 h
    obtain rfl : d :: rest = ds := by simpa using h
    rw [isupPhonenumDigits, hd, Option.bind_some, ih _ _ hrest]
    rfl

theorem putDigit_two {a b : ℕ} (ha : a < 16) (hroom : 2 + k < param.length) :
    putDigit (putDigit param (2 * k) a) (2 * k + 1) b =
      param.set (2 + k) (UInt8.ofNat (a + b * 16)) := by
  have heven : 2 * k % 2 = 0 := by omega
  have hodd : ¬(2 * k + 1) % 2 = 0 := by omega
  have hplace : 2 + 2 * k / 2 = 2 + k := by omega
  have hplace' : 2 + (2 * k + 1 - 1) / 2 = 2 + k := by omega
  have hor : UInt8.ofNat a ||| UInt8.ofNat (b <<< 4) = UInt8.ofNat (a + b * 16) := by
    have hsum : a ||| (b <<< 4) = a + b * 16 := @or_shiftLeft a 4 b ha
    rw [← hsum, UInt8.ofNat_or]
  unfold putDigit
  rw [if_pos heven, if_neg hodd, hplace, hplace']
  simp only [List.set_set, List.getD_eq_getElem?_getD, List.getElem?_set_self hroom,
    Option.getD_some, hor]

/-- **The digits in the array**, with the rest of it as it was. -/
theorem putDigits_eq (ds : List ℕ) : ∀ (k : ℕ) (param : List Octet), (∀ d ∈ ds, d < 16) →
    2 + k + (ds.length + 1) / 2 ≤ param.length →
      putDigits ds (2 * k) param =
        param.take (2 + k) ++ (pack ds ++ param.drop (2 + k + (ds.length + 1) / 2)) := by
  induction ds using pack.induct with
  | case1 =>
    intro k param _ _
    simp [putDigits, pack]
  | case2 a =>
    intro k param _ hroom
    have hroom' : 2 + k < param.length := by
      simp only [List.length_singleton] at hroom
      omega
    have hplace : 2 + 2 * k / 2 = 2 + k := by omega
    have heven : 2 * k % 2 = 0 := by omega
    rw [putDigits, putDigits, putDigit, if_pos heven, hplace, List.set_eq_take_append_cons_drop,
      if_pos hroom']
    simp [pack]
  | case3 a b ds ih =>
    intro k param hlt hroom
    obtain ⟨ha, -, hds⟩ : a < 16 ∧ b < 16 ∧ ∀ d ∈ ds, d < 16 := by simpa using hlt
    have hlen : (a :: b :: ds).length = ds.length + 2 := rfl
    rw [hlen] at hroom ⊢
    have hroom' : 2 + k < param.length := by omega
    have hnext : 2 * k + 1 + 1 = 2 * (k + 1) := by omega
    have hrest : 2 + k < 2 + (k + 1) + (ds.length + 1) / 2 := by omega
    have hend : 2 + (k + 1) + (ds.length + 1) / 2 = 2 + k + (ds.length + 2 + 1) / 2 := by omega
    have htake : (param.set (2 + k) (UInt8.ofNat (a + b * 16))).take (2 + (k + 1)) =
        param.take (2 + k) ++ [UInt8.ofNat (a + b * 16)] := by
      have hset : 2 + k < (param.set (2 + k) (UInt8.ofNat (a + b * 16))).length := by
        rw [List.length_set]
        omega
      have hsucc : 2 + (k + 1) = 2 + k + 1 := by omega
      rw [hsucc, List.take_succ_eq_append_getElem hset, List.getElem_set_self,
        List.take_set_of_le (le_refl _)]
    rw [putDigits, putDigits, putDigit_two ha hroom', hnext, ih _ _ hds (by
      rw [List.length_set]
      omega), List.drop_set_of_lt hrest, htake, hend, pack, List.append_assoc]
    rfl

/-! ## What is read -/

/-- **The decoders' loop** takes digits up to an ST, and says if it comes to one. -/
theorem decodeDigits_eq (p : List Octet) : ∀ left j : ℕ, left ≤ 2 * (p.length - j) →
    decodeDigits p left j =
      ((((halves (p.drop j)).take left).takeWhile (· ≠ 0xf)).map digitChar,
        decide (0xf ∈ (halves (p.drop j)).take left)) := by
  have hand : ∀ n : ℕ, n &&& 0x0f = n % 16 := fun n => Nat.and_two_pow_sub_one_eq_mod n 4
  have hhigh : ∀ o : Octet, (o.toNat >>> 4) &&& 0xf = o.toNat / 16 := by
    intro o
    have hlt := o.toNat_lt
    rw [hand, Nat.shiftRight_eq_div_pow]
    omega
  -- the octet that is read next
  have hnext : ∀ left j, left + 1 ≤ 2 * (p.length - j) →
      p.drop j = p.getD j 0 :: p.drop (j + 1) := by
    intro left j h
    have hj : j < p.length := by omega
    rw [List.drop_eq_getElem_cons hj, List.getD_eq_getElem?_getD, List.getElem?_eq_getElem hj,
      Option.getD_some]
  intro left
  induction left using Nat.twoStepInduction with
  | zero => exact fun j _ => rfl
  | one =>
    intro j h
    rw [decodeDigits, hnext 0 j h, halves_cons, hand]
    generalize p.getD j 0 = o
    by_cases hlow : o.toNat % 16 = 0xf
    · simp [hlow]
    · simp [hlow, Ne.symm hlow]
  | more left ih _ =>
    intro j h
    have hrest := ih (j + 1) (by omega)
    rw [decodeDigits, hnext (left + 1) j h, halves_cons, hand, hhigh, List.take_succ_cons,
      List.take_succ_cons]
    generalize p.getD j 0 = o
    by_cases hlow : o.toNat % 16 = 0xf
    · simp [hlow]
    · by_cases hst : o.toNat / 16 = 0xf
      · simp [hlow, hst]
      · simp [hlow, hst, Ne.symm hlow, Ne.symm hst, hrest]

/-- Digits that are not an ST. -/
theorem takeWhile_digits {tail : List ℕ} (hds : ∀ d ∈ ds, d < 15) :
    (ds ++ tail).takeWhile (· ≠ 0xf) = ds ++ tail.takeWhile (· ≠ 0xf) := by
  refine List.takeWhile_append_of_pos fun d hd => ?_
  have hlt := hds d hd
  exact decide_eq_true (by omega)

/-- **Up to an ST** the digits are read. -/
theorem read_st {tail : List ℕ} (hds : ∀ d ∈ ds, d < 15) (hle : ds.length ≤ left) :
    ((ds ++ 0xf :: tail).take left).takeWhile (· ≠ 0xf) = ds := by
  rw [List.take_append, List.take_of_length_le hle, takeWhile_digits hds]
  rcases Nat.eq_zero_or_pos (left - ds.length) with hzero | hpos
  · rw [hzero]
    simp
  · obtain ⟨n, hn⟩ := Nat.exists_eq_succ_of_ne_zero (Nat.pos_iff_ne_zero.1 hpos)
    rw [hn]
    simp

/-- **Without one**, the zeros counted are read as well. -/
theorem read_zeros {n : ℕ} (hds : ∀ d ∈ ds, d < 15) (hle : ds.length ≤ left)
    (hn : left ≤ ds.length + n) :
    ((ds ++ List.replicate n 0).take left).takeWhile (· ≠ 0xf) =
      ds ++ List.replicate (left - ds.length) 0 := by
  have hmin : min (left - ds.length) n = left - ds.length := by omega
  rw [List.take_append, List.take_of_length_le hle, takeWhile_digits hds, List.take_replicate, hmin]
  have hall : (List.replicate (left - ds.length) 0).takeWhile (fun d : ℕ => decide (d ≠ 0xf)) =
      List.replicate (left - ds.length) 0 := by
    rw [List.takeWhile_replicate, if_pos (by decide)]
  rw [hall]

/-! ## Numbers of decimal digits -/

/-- A decimal digit. -/
def IsDigit (c : CChar) : Prop := (chr '0').toNat ≤ c.toNat ∧ c.toNat ≤ (chr '9').toNat

instance (c : CChar) : Decidable (IsDigit c) := inferInstanceAs (Decidable (_ ∧ _))

/-- The digits of a number. -/
def valuesOf (number : CString) : List ℕ := number.map fun c => c.toNat - (chr '0').toNat

theorem length_valuesOf (number : CString) : (valuesOf number).length = number.length :=
  List.length_map _

theorem valuesOf_lt (h : ∀ c ∈ number, IsDigit c) : ∀ d ∈ valuesOf number, d < 15 := by
  intro d hd
  obtain ⟨c, hc, rfl⟩ := List.mem_map.1 hd
  have hle := (h c hc).2
  have hnine : (chr '9').toNat = 57 := rfl
  have hzero : (chr '0').toNat = 48 := rfl
  omega

theorem mapM_digitOf (h : ∀ c ∈ number, IsDigit c) :
    number.mapM digitOf = some (valuesOf number) := by
  induction number with
  | nil => rfl
  | cons c number ih =>
    obtain ⟨hc, hrest⟩ := List.forall_mem_cons.1 h
    have hd : digitOf c = some (c.toNat - (chr '0').toNat) := if_pos hc
    rw [List.mapM_cons, ih hrest, hd]
    rfl

theorem digitChar_eq : ∀ d < 10, digitChar d = BitVec.ofNat 8 ((chr '0').toNat + d) := by
  decide

/-- **The characters come back.** -/
theorem map_digitChar (h : ∀ c ∈ number, IsDigit c) :
    (valuesOf number).map digitChar = number := by
  have hone : ∀ c ∈ number, digitChar (c.toNat - (chr '0').toNat) = c := by
    intro c hc
    obtain ⟨hge, hle⟩ := h c hc
    have hzero : (chr '0').toNat = 48 := rfl
    have hnine : (chr '9').toNat = 57 := rfl
    have hsum : (chr '0').toNat + (c.toNat - (chr '0').toNat) = c.toNat := by omega
    rw [digitChar_eq _ (by omega), hsum, BitVec.ofNat_toNat, BitVec.setWidth_eq]
  rw [valuesOf, List.map_map]
  exact (List.map_congr_left hone).trans number.map_id

/-! ## Numbers encoded -/

variable {isMd addSt isInternational : Bool} {counted nature : ℕ} {second : Octet}

theorem halves_zeros {p : List Octet} (h : ∀ o ∈ p, o = 0) :
    halves p = List.replicate (2 * p.length) 0 := by
  induction p with
  | nil => rfl
  | cons o p ih =>
    obtain ⟨rfl, hp⟩ := List.forall_mem_cons.1 h
    rw [halves_cons, ih hp]
    rfl

/-- The first octet of a number. -/
def firstOctet (odd nature : ℕ) : Octet := UInt8.ofNat ((odd <<< 7) ||| nature)

/-- The nature of address that is sent. -/
def natureSent (isMd isInternational : Bool) : ℕ :=
  if isInternational then 4 else if isMd then 1 else 3

theorem length_of_mapM (hds : digits.mapM digitOf = some ds) : ds.length = digits.length := by
  induction digits generalizing ds with
  | nil =>
    obtain rfl : [] = ds := by simpa using hds
    rfl
  | cons c digits ih =>
    rw [List.mapM_cons] at hds
    obtain ⟨d, -, hds⟩ := Option.bind_eq_some_iff.1 hds
    obtain ⟨rest, hrest, hds⟩ := Option.bind_eq_some_iff.1 hds
    obtain rfl : d :: rest = ds := by simpa using hds
    exact congrArg Nat.succ (ih hrest)

/-- **A number encoded**: the digits, and an ST if there is one, in front of
what was in the array. -/
theorem phonenumEncode_eq (hcheck : isupPhonenumCheck (some number) = some (digits, isInternational))
    (hds : digits.mapM digitOf = some ds) (hlt : ∀ d ∈ ds, d < 15)
    (hst : addSt = true → counted = 1) (hparam : param.length = 22)
    (hfew : digits.length ≤ 17) (hcounted : counted ≤ 1) :
    phonenumEncode isMd addSt counted second (some number) param =
      some (firstOctet ((digits.length + counted) % 2) (natureSent isMd isInternational) :: second ::
        (pack (ds ++ if addSt then [0xf] else []) ++
          param.drop (2 + ((ds ++ if addSt then [0xf] else []).length + 1) / 2)).take
            ((digits.length + counted + 1) / 2)) := by
  have hlength := length_of_mapM hds
  generalize hall : ds ++ (if addSt then [0xf] else []) = all
  have hsmall : ∀ d ∈ all, d < 16 := by
    intro d hd
    rw [← hall, List.mem_append] at hd
    rcases hd with hd | hd
    · have := hlt d hd
      omega
    · cases addSt <;> simp_all
  have hlen : all.length ≤ digits.length + 1 := by
    rw [← hall, List.length_append, hlength]
    cases addSt <;> simp
  obtain ⟨a, b, rest, rfl⟩ : ∃ a b rest, param = a :: b :: rest :=
    match param, hparam with
    | a :: b :: rest, _ => ⟨a, b, rest, rfl⟩
  simp only [phonenumEncode, hcheck, Option.bind_some, hparam]
  rw [if_neg (by omega), isupPhonenumDigits_eq addSt 0 _ hds, hall, Option.map_some]
  generalize hfirst : firstOctet ((digits.length + counted) % 2)
    (natureSent isMd isInternational) = first
  have hput := putDigits_eq all 0 (first :: second :: rest) hsmall (by
    simp only [List.length_cons] at hparam ⊢
    omega)
  have hdrop : ∀ x y, (x :: y :: rest).drop (2 + (all.length + 1) / 2) =
      rest.drop ((all.length + 1) / 2) := by
    intro x y
    rw [Nat.add_comm]
    rfl
  have htwo : 2 + (digits.length + counted + 1) / 2 = (digits.length + counted + 1) / 2 + 1 + 1 := by
    omega
  have hwhole : (putDigits all 0 (first :: second :: rest)).take
      (2 + (digits.length + counted + 1) / 2) =
        first :: second :: (pack all ++ rest.drop ((all.length + 1) / 2)).take
          ((digits.length + counted + 1) / 2) := by
    rw [Nat.mul_zero] at hput
    rw [hput, Nat.add_zero, hdrop, htwo]
    rfl
  rw [hdrop, ← hwhole, ← hfirst]
  rfl

/-- With an ST. -/
theorem phonenumEncode_st (hcheck : isupPhonenumCheck (some number) = some (digits, isInternational))
    (hds : digits.mapM digitOf = some ds) (hlt : ∀ d ∈ ds, d < 15) (hparam : param.length = 22)
    (hfew : digits.length ≤ 17) :
    phonenumEncode isMd true 1 second (some number) param =
        some (firstOctet ((digits.length + 1) % 2) (natureSent isMd isInternational) ::
          second :: pack (ds ++ [0xf])) ∧
      (pack (ds ++ [0xf])).length = (digits.length + 1 + 1) / 2 ∧
        ∃ tail, halves (pack (ds ++ [0xf])) = ds ++ 0xf :: tail := by
  have hencode := @phonenumEncode_eq ds param number digits isMd true isInternational 1 second hcheck
    hds hlt (fun _ => rfl) hparam hfew le_rfl
  have hlen : (pack (ds ++ [0xf])).length = (digits.length + 1 + 1) / 2 := by
    rw [length_pack, List.length_append, length_of_mapM hds]
    rfl
  have hsmall : ∀ d ∈ ds ++ [0xf], d < 16 := by
    intro d hd
    rcases List.mem_append.1 hd with hd | hd
    · have := hlt d hd
      omega
    · rw [List.mem_singleton.1 hd]
      decide
  simp only [reduceIte] at hencode
  rw [← hlen, List.take_left] at hencode
  exact ⟨hencode, hlen, _, (halves_pack hsmall).trans (List.append_assoc _ _ _)⟩

/-- Without one: zeros stand behind the digits if the array is clear, or if
none is counted. -/
theorem phonenumEncode_noSt
    (hcheck : isupPhonenumCheck (some number) = some (digits, isInternational))
    (hds : digits.mapM digitOf = some ds) (hlt : ∀ d ∈ ds, d < 15) (hparam : param.length = 22)
    (hfew : digits.length ≤ 17) (hcounted : counted ≤ 1)
    (hclear : counted = 0 ∨ ∀ o ∈ param, o = 0) :
    ∃ q n, phonenumEncode isMd false counted second (some number) param =
        some (firstOctet ((digits.length + counted) % 2) (natureSent isMd isInternational) ::
          second :: q) ∧
      q.length = (digits.length + counted + 1) / 2 ∧ halves q = ds ++ List.replicate n 0 ∧
        (counted = 0 → q = pack ds) := by
  have hencode := @phonenumEncode_eq ds param number digits isMd false isInternational counted second
    hcheck hds hlt (fun h => absurd h Bool.false_ne_true) hparam hfew hcounted
  simp only [Bool.false_eq_true, reduceIte, List.append_nil] at hencode
  have hlength := length_of_mapM hds
  have hlen : (pack ds).length = (digits.length + 1) / 2 := by
    rw [length_pack, hlength]
  have hsmall : ∀ d ∈ ds, d < 16 := by
    intro d hd
    have := hlt d hd
    omega
  -- what goes out of the array as it was
  generalize hz : (param.drop (2 + (ds.length + 1) / 2)).take
    ((digits.length + counted + 1) / 2 - (pack ds).length) = z
  have htake : (pack ds ++ param.drop (2 + (ds.length + 1) / 2)).take
      ((digits.length + counted + 1) / 2) = pack ds ++ z := by
    rw [List.take_append, hz, List.take_of_length_le (by omega)]
  have hnone : counted = 0 → z = [] := by
    rintro rfl
    rw [← hz, hlen, Nat.add_zero, Nat.sub_self, List.take_zero]
  have hzeros : ∀ o ∈ z, o = 0 := by
    intro o ho
    rcases hclear with hzero | hclear
    · rw [hnone hzero] at ho
      exact absurd ho List.not_mem_nil
    · rw [← hz] at ho
      exact hclear o (List.mem_of_mem_drop (List.mem_of_mem_take ho))
  have hzlen : (pack ds ++ z).length = (digits.length + counted + 1) / 2 := by
    rw [← htake, List.length_take, List.length_append, List.length_drop, hlen, hlength, hparam]
    omega
  rw [htake] at hencode
  have hhalves : halves (pack ds ++ z) =
      ds ++ List.replicate (ds.length % 2 + 2 * z.length) 0 := by
    rw [halves_append, halves_pack hsmall, halves_zeros hzeros, List.append_assoc,
      List.replicate_append_replicate]
  exact ⟨_, _, hencode, hzlen, hhalves, fun hzero => by rw [hnone hzero, List.append_nil]⟩

/-! ## Numbers decoded -/

theorem firstOctet_odd {odd : ℕ} (hodd : odd < 2) (hnature : nature < 8) :
    (firstOctet odd nature).toNat &&& 0x7f = nature ∧
      ((firstOctet odd nature).toNat &&& 0x80 ≠ 0 ↔ odd = 1) := by
  have hall : ∀ odd < 2, ∀ nature < 8, (firstOctet odd nature).toNat &&& 0x7f = nature ∧
      ((firstOctet odd nature).toNat &&& 0x80 ≠ 0 ↔ odd = 1) := by
    decide
  exact hall odd hodd nature hnature

theorem natureSent_lt (isMd isInternational : Bool) : natureSent isMd isInternational < 8 := by
  unfold natureSent
  split_ifs <;> omega

/-- The presentation that says by itself that the number is complete. -/
def presentation (withPresentationRestrict : Bool) (second : Octet) : Bool :=
  withPresentationRestrict && decide ((second.toNat >>> 2) &&& 0x3 = 2)

/-- **The number of a party**: `m` digits are counted. -/
theorem decodeIsupPhonenum_eq (withPresentationRestrict : Bool) (hlen : q.length = (m + 1) / 2)
    (hm : m ≤ 18) :
    ∃ n, decodeIsupPhonenum withPresentationRestrict
        (firstOctet (m % 2) (natureSent isMd isInternational) :: second :: q) = some n ∧
      (n.num = if m = 0 then [] else
        (if isInternational then str "00" else []) ++
          (((halves q).take m).takeWhile (· ≠ 0xf)).map digitChar) ∧
      n.complete = (presentation withPresentationRestrict second ||
        decide (0xf ∈ (halves q).take m)) := by
  have hmod : m % 2 < 2 := Nat.mod_lt m Nat.two_pos
  obtain ⟨hnature, hodd⟩ := firstOctet_odd hmod
    (natureSent_lt isMd isInternational)
  generalize hfirst : firstOctet (m % 2) (natureSent isMd isInternational) = first at hnature hodd
  have hcount : q.length * 2 - (if first.toNat &&& 0x80 ≠ 0 then 1 else 0) = m := by
    rw [hlen]
    by_cases hone : m % 2 = 1
    · rw [if_pos (hodd.2 hone)]
      omega
    · rw [if_neg fun h => hone (hodd.1 h)]
      omega
  have hplen : (first :: second :: q).length - 2 = q.length := rfl
  have hshort : ¬(first :: second :: q).length < 2 := by simp
  -- what the presentation leaves
  generalize hn₀ : (if withPresentationRestrict then
      if (second.toNat >>> 2) &&& 0x3 = 1 then ({ present := true, restricted := true } : IsupPhonenum)
      else if (second.toNat >>> 2) &&& 0x3 = 2 then { complete := true }
      else { present := true }
    else { present := true }) = n₀
  have hnone : n₀.num = [] ∧ n₀.complete = presentation withPresentationRestrict second := by
    rw [← hn₀]
    unfold presentation
    cases withPresentationRestrict with
    | false => exact ⟨rfl, rfl⟩
    | true =>
      by_cases hone : (second.toNat >>> 2) &&& 0x3 = 1
      · simp [hone]
      · by_cases htwo : (second.toNat >>> 2) &&& 0x3 = 2
        · simp [htwo]
        · simp [hone, htwo]
  unfold decodeIsupPhonenum
  rw [if_neg hshort]
  simp only [List.getD_cons_succ, List.getD_cons_zero, hnature, hplen, hcount, hn₀]
  by_cases hm0 : m = 0
  · have hq : q = [] := List.length_eq_zero_iff.1 (by omega)
    subst hq
    have hpair : [first, second].length = 2 := rfl
    rw [if_pos hpair, if_pos hm0]
    refine ⟨_, rfl, hnone.1, ?_⟩
    rw [hnone.2, hm0]
    simp
  · have hsome : ¬(first :: second :: q).length = 2 := by
      simp only [List.length_cons]
      omega
    have hread := decodeDigits_eq (first :: second :: q) m 2
      (by rw [hplen]; omega)
    have hdrop : (first :: second :: q).drop 2 = q := rfl
    rw [hdrop] at hread
    rw [if_neg hsome, if_neg hm0]
    cases hint : isInternational
    · have hnat : natureSent isMd false = 0x70 ∨ natureSent isMd false = 0x03 ∨
          natureSent isMd false = 0x01 := by
        cases isMd <;> simp [natureSent]
      have hleft : min m phonenumMax - ([] : CString).length = m := by
        rw [List.length_nil, phonenumMax]
        omega
      rw [if_pos hnat, hleft, hread]
      exact ⟨_, rfl, rfl, by rw [hnone.2]⟩
    · have hleft : min (m + 2) phonenumMax - (str "00").length = m := by
        have htwo : (str "00").length = 2 := rfl
        rw [htwo, phonenumMax]
        omega
      have hfour : natureSent isMd true = 4 := rfl
      rw [hfour, if_neg (by decide), if_pos (by decide), hleft, hread]
      exact ⟨_, rfl, rfl, by rw [hnone.2]⟩

/-- **The subsequent number**: its length is one more, with the 0 behind it. -/
theorem decodeIsupSni_eq (hnature : nature < 8) (hlen : q.length = (m + 1) / 2) (hm : m ≤ 18)
    (n : IsupPhonenum) :
    ∃ n', decodeIsupSni (firstOctet (m % 2) nature :: (q ++ [0])) n = some n' ∧
      n'.num = (((halves q ++ [0, 0]).take (m + 2)).takeWhile (· ≠ 0xf)).map digitChar := by
  have hmod : m % 2 < 2 := Nat.mod_lt m Nat.two_pos
  obtain ⟨-, hodd⟩ := firstOctet_odd hmod hnature
  generalize hfirst : firstOctet (m % 2) nature = first at hodd
  have hplen : (first :: (q ++ [0])).length - 1 = q.length + 1 := by simp
  have hcount : (q.length + 1) * 2 - (if first.toNat &&& 0x80 ≠ 0 then 1 else 0) = m + 2 := by
    rw [hlen]
    by_cases hone : m % 2 = 1
    · rw [if_pos (hodd.2 hone)]
      omega
    · rw [if_neg fun h => hone (hodd.1 h)]
      omega
  have hshort : ¬(first :: (q ++ [0])).length < 2 := by simp
  have hmin : min (m + 2) phonenumMax = m + 2 := by
    rw [phonenumMax]
    omega
  have hread := congrArg Prod.fst (decodeDigits_eq (first :: (q ++ [0])) (m + 2) 1 (by
    rw [hplen]
    omega))
  have hhalves : halves ((first :: (q ++ [0])).drop 1) = halves q ++ [0, 0] := halves_append q [0]
  rw [hhalves] at hread
  unfold decodeIsupSni
  simp only [List.getD_cons_zero, hplen, hcount, hmin]
  rw [if_neg hshort]
  exact ⟨_, rfl, hread⟩

end Isup

end Trismedia
