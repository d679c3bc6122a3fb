import Trismedia.Isup.Chunks
import Trismedia.Isup.Delivery
/-!
# The number that arrives

One exchange calls a number and the other takes the messages in order on an
idle circuit, with a dialplan that always answers that the number can still
match. Where the number goes out in pieces, all of them follow the IAM, the one
in it as well, and each without an international prefix. A linkset that is `is_md`
counts an ST it does not send.
-/


namespace Trismedia

namespace Isup

open Mtp2 CString

variable {s : Setup} {stack : Stack} {number : CString} {limit : ℕ}

/-! ## The pieces -/

theorem isDigit_ne_zero {c : CChar} (h : IsDigit c) : c ≠ 0 := by
  rintro rfl
  exact absurd h.1 (by decide)

theorem stringIn_append {a b : List CChar} (h : ∀ c ∈ a, c ≠ 0) : stringIn (a ++ 0 :: b) = a := by
  unfold stringIn
  rw [List.takeWhile_append_of_pos fun c hc => decide_eq_true (h c hc)]
  simp

/-- A piece copied, with a 0 where the next begins. -/
theorem strncpy_piece {dst : List CChar} {src : CString} {place : ℕ} (hsrc : ∀ c ∈ src, c ≠ 0)
    (hdst : dst.length = 100) (hplace : limit ≤ place) (hlt : place < 100)
    (hzero : place = limit ∨ dst[limit]? = some 0) :
    stringIn ((strncpy dst src limit).set place 0) = src.take limit ∧
      ((strncpy dst src limit).set place 0).length = 100 ∧
        ((strncpy dst src limit).set place 0)[limit]? = some 0 := by
  have hlen : (strncpy dst src limit).length = 100 := by
    unfold strncpy
    simp only [List.length_append, List.length_take, List.length_replicate, List.length_drop]
    omega
  have hfront : (src.take limit ++ List.replicate (limit - src.length) (0 : CChar)).length = limit := by
    simp only [List.length_append, List.length_take, List.length_replicate]
    omega
  have hcell : ((strncpy dst src limit).set place 0)[limit]? = some 0 := by
    rcases hzero with rfl | hzero
    · rw [List.getElem?_set_self (by omega)]
    · rcases eq_or_ne place limit with rfl | hne
      · rw [List.getElem?_set_self (by omega)]
      · rw [List.getElem?_set_ne hne]
        unfold strncpy
        rw [List.getElem?_append_right (by omega), hfront, Nat.sub_self, List.getElem?_drop,
          Nat.add_zero, hzero]
  refine ⟨?_, by rw [List.length_set, hlen], hcell⟩
  -- the array: the piece, zeros, and a 0 at `limit`
  generalize hX : (strncpy dst src limit).set place 0 = X at hcell
  have htake : X.take limit = src.take limit ++ List.replicate (limit - src.length) 0 := by
    rw [← hX, List.take_set_of_le hplace, strncpy, List.take_left' hfront]
  obtain ⟨hin, hget⟩ := List.getElem?_eq_some_iff.1 hcell
  have hdrop : X.drop limit = 0 :: X.drop (limit + 1) := by
    rw [List.drop_eq_getElem_cons hin, hget]
  have hsplit : X = src.take limit ++ (List.replicate (limit - src.length) 0 ++
      0 :: X.drop (limit + 1)) := by
    rw [← hdrop, ← List.append_assoc, ← htake, List.take_append_drop]
  have hpiece : ∀ c ∈ src.take limit, c ≠ 0 := fun c hc => hsrc c (List.mem_of_mem_take hc)
  rw [hsplit]
  cases limit - src.length with
  | zero => exact stringIn_append hpiece
  | succ n => exact stringIn_append hpiece

/-- **The strings of the loop** are the pieces of the number. -/
theorem dniChunks_eq {dni : CString} (hlimit : 0 < limit) (hdni : ∀ c ∈ dni, c ≠ 0)
    (hfew : dni.length + limit ≤ 100) : ∀ (chunkSofar : ℕ) (dnicpy : List CChar),
      dnicpy.length = 100 → (chunkSofar = 0 ∨ dnicpy[limit]? = some 0) →
        dniChunks limit dni dnicpy chunkSofar = pieces limit (dni.drop chunkSofar) := by
  intro chunkSofar
  induction hn : dni.length - chunkSofar using Nat.strong_induction_on generalizing chunkSofar with
  | _ n ih =>
    intro dnicpy hlen hzero
    by_cases hmore : chunkSofar < dni.length
    · have hne : dni.drop chunkSofar ≠ [] := by
        intro h
        have := congrArg List.length h
        rw [List.length_drop, List.length_nil] at this
        omega
      have hsrc : ∀ c ∈ dni.drop chunkSofar, c ≠ 0 := fun c hc => hdni c (List.mem_of_mem_drop hc)
      have hplace : limit ≤ chunkSofar + limit := Nat.le_add_left _ _
      obtain ⟨hstring, hlen', hzero'⟩ := strncpy_piece hsrc hlen hplace (by omega)
        (hzero.imp_left fun h => by rw [h, Nat.zero_add])
      rw [dniChunks, if_pos ⟨hmore, hlimit⟩, pieces, if_neg (not_or.2 ⟨hne, by omega⟩)]
      have hrest := ih _ (by omega) (chunkSofar + limit) rfl _ hlen' (Or.inr hzero')
      rw [← List.drop_drop] at hrest
      exact congrArg₂ List.cons hstring hrest
    · have hnil : dni.drop chunkSofar = [] := List.drop_eq_nil_of_le (by omega)
      rw [dniChunks, if_neg fun h => hmore h.1, pieces, if_pos (Or.inl hnil)]

/-! ## The number in a message -/

variable {param : List Octet} {isMd : Bool}

/-- Whether a number has the prefix of an international one. -/
def isInternational (number : CString) : Bool := decide (number.take 2 = str "00")

theorem check_digits (hdigits : ∀ c ∈ number, IsDigit c) (hne : number ≠ []) :
    isupPhonenumCheck (some number) = some (withoutPrefix number, isInternational number) := by
  have hpos := List.length_pos_iff.2 hne
  have hlen : ¬List.length number = 0 := by omega
  by_cases h : number.take 2 = str "00"
  · rw [isupPhonenumCheck, if_neg hlen, if_pos h, withoutPrefix_pos h, isInternational,
      decide_eq_true h]
  · have hplus : number.take 1 ≠ str "+" := by
      intro hplus
      obtain ⟨c, rest, rfl⟩ := List.exists_cons_of_ne_nil hne
      have hc : c = chr '+' := by simpa [str] using hplus
      have hdigit := hdigits c List.mem_cons_self
      rw [hc] at hdigit
      exact absurd hdigit (by decide)
    rw [isupPhonenumCheck, if_neg hlen, if_neg h, if_neg hplus, withoutPrefix_neg h,
      isInternational, decide_eq_false h]

theorem isDigit_withoutPrefix (hdigits : ∀ c ∈ number, IsDigit c) :
    ∀ c ∈ withoutPrefix number, IsDigit c := by
  intro c hc
  unfold withoutPrefix at hc
  split_ifs at hc
  · exact hdigits c (List.mem_of_mem_drop hc)
  · exact hdigits c hc

/-- The decoder puts the prefix back. -/
theorem restored (number : CString) :
    (if isInternational number then str "00" else []) ++ withoutPrefix number = number := by
  unfold isInternational
  by_cases h : number.take 2 = str "00"
  · rw [withoutPrefix_pos h, decide_eq_true h, if_pos rfl, ← h, List.take_append_drop]
  · rw [withoutPrefix_neg h, decide_eq_false h]
    rfl

theorem withoutPrefix_eq_nil (hne : number ≠ []) : withoutPrefix number = [] ↔ number = str "00" := by
  constructor
  · intro h
    have hback := restored number
    rw [h, List.append_nil] at hback
    by_cases hint : isInternational number = true
    · rw [if_pos hint] at hback
      exact hback.symm
    · rw [if_neg hint] at hback
      exact absurd hback.symm hne
  · rintro rfl
    rfl

theorem length_withoutPrefix_le (number : CString) :
    (withoutPrefix number).length ≤ number.length := by
  rw [length_withoutPrefix]
  omega

section Arrives

variable (hdigits : ∀ c ∈ number, IsDigit c) (hne : number ≠ []) (hfew : number.length ≤ 17)
  (hparam : param.length = 2 + phonenumMax)

include hdigits hne hfew hparam

/-- **With an ST** an IAM has the number. -/
theorem iam_st : ∃ p n, isupCalledPartyNumEncode false number param = some p ∧ p.length ≤ 22 ∧
    decodeIsupPhonenum false p = some n ∧ n.num = number := by
  have hshort := (length_withoutPrefix_le number).trans hfew
  have hsub := isDigit_withoutPrefix hdigits
  obtain ⟨hencode, hlen, tail, hhalves⟩ := @phonenumEncode_st _ param number _ false _ 0x10
    (check_digits hdigits hne) (mapM_digitOf hsub) (valuesOf_lt hsub) hparam hshort
  obtain ⟨n, hdecode, hnum, -⟩ := @decodeIsupPhonenum_eq _ _ false (isInternational number) 0x10
    false hlen (by omega)
  refine ⟨_, n, hencode, ?_, hdecode, ?_⟩
  · simp only [List.length_cons, hlen]
    omega
  · have hle : (valuesOf (withoutPrefix number)).length ≤ (withoutPrefix number).length + 1 := by
      rw [length_valuesOf]
      omega
    rw [hnum, if_neg (by omega), hhalves, read_st (valuesOf_lt hsub) hle, map_digitChar hsub, restored]

/-- **Without one**, the digits counted are read: the number, where none is
counted beside it, and a digit more if the array was clear. -/
theorem iam_noSt {counted : ℕ} (hcounted : counted ≤ 1)
    (hclear : counted = 0 ∨ ∀ o ∈ param, o = 0) :
    ∃ p n, phonenumEncode isMd false counted 0x10 (some number) param = some p ∧ p.length ≤ 22 ∧
      decodeIsupPhonenum false p = some n ∧
        n.num = if (withoutPrefix number).length + counted = 0 then []
          else number ++ (List.replicate counted 0).map digitChar := by
  have hshort := (length_withoutPrefix_le number).trans hfew
  have hsub := isDigit_withoutPrefix hdigits
  obtain ⟨q, m, hencode, hlen, hhalves, -⟩ := @phonenumEncode_noSt _ param number _ isMd _ _ 0x10
    (check_digits hdigits hne) (mapM_digitOf hsub) (valuesOf_lt hsub) hparam hshort hcounted hclear
  obtain ⟨n, hdecode, hnum, -⟩ := @decodeIsupPhonenum_eq q _ isMd (isInternational number) 0x10
    false hlen (by omega)
  refine ⟨_, n, hencode, ?_, hdecode, ?_⟩
  · simp only [List.length_cons, hlen]
    omega
  · have hcount := congrArg List.length hhalves
    rw [length_halves, hlen, List.length_append, List.length_replicate, length_valuesOf] at hcount
    have hle : (valuesOf (withoutPrefix number)).length ≤ (withoutPrefix number).length + counted := by
      rw [length_valuesOf]
      omega
    have hmost : (withoutPrefix number).length + counted ≤
        (valuesOf (withoutPrefix number)).length + m := by
      rw [length_valuesOf]
      omega
    have hleft : (withoutPrefix number).length + counted -
        (valuesOf (withoutPrefix number)).length = counted := by
      rw [length_valuesOf]
      omega
    rw [hnum, hhalves, read_zeros (valuesOf_lt hsub) hle hmost, hleft, List.map_append,
      map_digitChar hsub, ← List.append_assoc, restored]

/-- **An SAM** has the number without its prefix, if it has an ST. -/
theorem sam_st : ∃ first second q n, isupCalledPartyNumEncode false number param =
    some (first :: second :: q) ∧ q.length ≤ 20 ∧
      decodeIsupSni (first :: (q ++ [0])) {} = some n ∧ n.num = withoutPrefix number := by
  have hshort := (length_withoutPrefix_le number).trans hfew
  have hsub := isDigit_withoutPrefix hdigits
  obtain ⟨hencode, hlen, tail, hhalves⟩ := @phonenumEncode_st _ param number _ false _ 0x10
    (check_digits hdigits hne) (mapM_digitOf hsub) (valuesOf_lt hsub) hparam hshort
  obtain ⟨n, hdecode, hnum⟩ := decodeIsupSni_eq (natureSent_lt false (isInternational number)) hlen
    (by omega) {}
  refine ⟨_, _, _, n, hencode, by omega, hdecode, ?_⟩
  have hle : (valuesOf (withoutPrefix number)).length ≤ (withoutPrefix number).length + 1 + 2 := by
    rw [length_valuesOf]
    omega
  rw [hnum, hhalves, List.append_assoc, List.cons_append, read_st (valuesOf_lt hsub) hle,
    map_digitChar hsub]

/-- Where none is sent, the digit counted and the two behind it are read. -/
theorem sam_md (hclear : ∀ o ∈ param, o = 0) : ∃ first second q n,
    isupCalledPartyNumEncode true number param = some (first :: second :: q) ∧ q.length ≤ 20 ∧
      decodeIsupSni (first :: (q ++ [0])) {} = some n ∧
        n.num = withoutPrefix number ++ (List.replicate 3 0).map digitChar := by
  have hshort := (length_withoutPrefix_le number).trans hfew
  have hsub := isDigit_withoutPrefix hdigits
  obtain ⟨q, m, hencode, hlen, hhalves, -⟩ := @phonenumEncode_noSt _ param number _ true _ 1 0x10
    (check_digits hdigits hne) (mapM_digitOf hsub) (valuesOf_lt hsub) hparam hshort le_rfl
    (Or.inr hclear)
  obtain ⟨n, hdecode, hnum⟩ := decodeIsupSni_eq (natureSent_lt true (isInternational number)) hlen
    (by omega) {}
  refine ⟨_, _, q, n, hencode, by omega, hdecode, ?_⟩
  have hcount := congrArg List.length hhalves
  rw [length_halves, hlen, List.length_append, List.length_replicate, length_valuesOf] at hcount
  have hle : (valuesOf (withoutPrefix number)).length ≤ (withoutPrefix number).length + 1 + 2 := by
    rw [length_valuesOf]
    omega
  have hmost : (withoutPrefix number).length + 1 + 2 ≤
      (valuesOf (withoutPrefix number)).length + (m + 2) := by
    rw [length_valuesOf]
    omega
  have hleft : (withoutPrefix number).length + 1 + 2 - (valuesOf (withoutPrefix number)).length = 3 := by
    rw [length_valuesOf]
    omega
  have hzeros : List.replicate m 0 ++ [0, 0] = List.replicate (m + 2) 0 :=
    List.replicate_append_replicate (n := m) (m := 2)
  rw [hnum, hhalves, List.append_assoc, hzeros, read_zeros (valuesOf_lt hsub) hle hmost, hleft,
    List.map_append, map_digitChar hsub]

end Arrives

/-! ## The messages one after the other -/

variable {pvt : Called}

/-- An SAM after the IAM. -/
theorem receive_sam {v : Ss7Variant} {msg : List Octet} {header : Header} {sni : IsupPhonenum}
    (hmsg : decodeIsupMsg v msg = some (header, .sam sni)) (hstate : pvt.state = .gotIam)
    (hlen : sni.num.length ≠ 19) :
    (receive (fun _ _ => true) v pvt msg).state = .gotIam ∧
      (receive (fun _ _ => true) v pvt msg).iam.dni.num = pvt.iam.dni.num ++ sni.num := by
  have hlen' : ¬sni.num.length = phonenumMax - 1 := hlen
  unfold receive
  rw [hmsg]
  simp only [processSam, hstate, ne_eq, not_true_eq_false, if_false, if_neg hlen', checkIamSam,
    if_true, and_self]

/-- **The numbers of SAMs** are put one after the other. -/
theorem receive_sams {v : Ss7Variant} {g : CString → CString} (l : List CString) :
    ∀ (f : ℕ → CString → List Octet) (pvt : Called), pvt.state = .gotIam →
      (∀ n, ∀ c ∈ l, ∃ header sni, decodeIsupMsg v (f n c) = some (header, .sam sni) ∧
        sni.num = g c) → (∀ c ∈ l, (g c).length ≠ 19) →
          ((l.mapIdx f).foldl (receive (fun _ _ => true) v) pvt).iam.dni.num =
            pvt.iam.dni.num ++ l.flatMap g := by
  induction l with
  | nil =>
    intro f pvt _ _ _
    simp
  | cons c l ih =>
    intro f pvt hstate hmsgs hlens
    obtain ⟨header, sni, hmsg, hnum⟩ := hmsgs 0 c List.mem_cons_self
    have hlen := hlens c List.mem_cons_self
    rw [← hnum] at hlen
    obtain ⟨hstate', hnum'⟩ := receive_sam hmsg hstate hlen
    rw [List.mapIdx_cons, List.foldl_cons, ih _ _ hstate'
      (fun n c hc => hmsgs (n + 1) c (List.mem_cons_of_mem _ hc))
      (fun c hc => hlens c (List.mem_cons_of_mem _ hc)), hnum', hnum, List.flatMap_cons,
      List.append_assoc]

/-- One with 19 digits is not taken. -/
theorem receive_long {v : Ss7Variant} {msg : List Octet} {header : Header} {sni : IsupPhonenum}
    (hmsg : decodeIsupMsg v msg = some (header, .sam sni)) (hstate : pvt.state = .gotIam)
    (hlen : sni.num.length = 19) :
    receive (fun _ _ => true) v pvt msg = ⟨.sentRel, pvt.iam, false⟩ := by
  have hlen' : sni.num.length = phonenumMax - 1 := hlen
  unfold receive
  rw [hmsg]
  simp only [processSam, hstate, ne_eq, not_true_eq_false, if_false, if_pos hlen']

/-- After a release they are ignored. -/
theorem receive_released {v : Ss7Variant} (l : List CString) :
    ∀ (f : ℕ → CString → List Octet) (pvt : Called), pvt.state ≠ .gotIam →
      (∀ n, ∀ c ∈ l, ∃ header sni, decodeIsupMsg v (f n c) = some (header, .sam sni)) →
        (l.mapIdx f).foldl (receive (fun _ _ => true) v) pvt = pvt := by
  induction l with
  | nil => exact fun _ _ _ _ => rfl
  | cons c l ih =>
    intro f pvt hstate hmsgs
    obtain ⟨header, sni, hmsg⟩ := hmsgs 0 c List.mem_cons_self
    have hsame : receive (fun _ _ => true) v pvt (f 0 c) = pvt := by
      unfold receive
      rw [hmsg]
      exact if_pos hstate
    rw [List.mapIdx_cons, List.foldl_cons, hsame]
    exact ih _ pvt hstate fun n c hc => hmsgs (n + 1) c (List.mem_cons_of_mem _ hc)

/-- The IAM at an idle circuit. -/
theorem receive_iam {v : Ss7Variant} {msg : List Octet} {header : Header} {iam : Iam}
    (hmsg : decodeIsupMsg v msg = some (header, .iam iam)) (hstate : pvt.state = .idle) :
    receive (fun _ _ => true) v pvt msg = ⟨.gotIam, iam, true⟩ := by
  unfold receive
  rw [hmsg]
  simp [processIam, hstate, checkIamSam]

/-! ## The call -/

variable {addr : CString}

/-- The number is cut. -/
def Setup.Cuts (s : Setup) (number : CString) : Prop :=
  s.dniChunkLimit > 0 ∧ number.length > s.dniChunkLimit

instance (s : Setup) (number : CString) : Decidable (s.Cuts number) :=
  inferInstanceAs (Decidable (_ ∧ _))

/-- The strings sent behind the IAM. -/
def Setup.chunks (s : Setup) (stack : Stack) (number : CString) : List CString :=
  if s.Cuts number then dniChunks s.dniChunkLimit number stack.dnicpy 0 else []

/-- **The call behind its IAM.** -/
theorem call_iam {p : List Octet} {n : IsupPhonenum} (hnumber : (splitAddr addr).1 = number)
    (hencode : encodedDni s stack number s.dniChunkLimit = some p) (hp : p.length ≤ 22)
    (hn : decodeIsupPhonenum false p = some n) (hstate : pvt.state = .idle) :
    ∃ iam : Iam, iam.dni = n ∧
      (ss7Call s stack addr).foldl (receive (fun _ _ => true) s.variant) pvt =
        ((s.chunks stack number).mapIdx fun k chunk =>
          isupSendSam s (stack.samParam k) chunk true).foldl (receive (fun _ _ => true) s.variant)
            ⟨.gotIam, iam, true⟩ := by
  subst hnumber
  obtain ⟨header, iam, hdecode, hdni⟩ := @decode_iam s stack p
    ((splitAddr addr).2.getD (s.cidRdnis.getD [])) n hp hn
  refine ⟨iam, hdni, ?_⟩
  have hsend := isupSendIam_eq s stack (splitAddr addr).1
    ((splitAddr addr).2.getD (s.cidRdnis.getD [])) s.dniChunkLimit
  rw [hencode, Option.map_some] at hsend
  simp only [ss7Call, hsend, List.foldl_cons, receive_iam hdecode hstate]
  rfl

/-- A stack that is clear. -/
def clearStack : Stack where
  param := List.replicate 22 0
  iamDnicpy := List.replicate 100 0
  dnicpy := List.replicate 100 0
  samParam := fun _ => List.replicate 22 0
  length_param := rfl
  length_iamDnicpy := rfl
  length_dnicpy := rfl
  length_samParam := fun _ => rfl

theorem clearStack_zero : ∀ o ∈ clearStack.param, o = 0 :=
  fun _ ho => List.eq_of_mem_replicate ho

/-- A circuit that is idle. -/
def idleCircuit : Called := ⟨.idle, {}, false⟩

/-- **When the number arrives.** -/
def Setup.Meets (s : Setup) (number : CString) : Prop :=
  if s.Cuts number then s.isMd = false ∧ MakesUp s.dniChunkLimit number
  else if s.isSt then s.isMd = false
  else number ≠ str "00"

section Digits

variable (hnumber : (splitAddr addr).1 = number) (hdigits : ∀ c ∈ number, IsDigit c)
  (hne : number ≠ []) (hfew : number.length ≤ 17)

include hnumber hdigits hne hfew

/-- In one piece. -/
theorem whole_iff (hcut : ¬s.Cuts number) :
    s.Delivers addr ↔ if s.isSt then s.isMd = false else number ≠ str "00" := by
  have hchunks : ∀ stack, s.chunks stack number = [] := fun _ => if_neg hcut
  have hencoded : ∀ stack, encodedDni s stack number s.dniChunkLimit =
      if s.isSt then isupCalledPartyNumEncode s.isMd number stack.param
      else isupCalledPartyNumEncodeNoSt s.isMd number stack.param := fun _ => if_neg hcut
  -- what arrives is the number of the IAM
  have hone : ∀ {stack : Stack} {p n} {pvt : Called},
      encodedDni s stack number s.dniChunkLimit = some p → p.length ≤ 22 →
        decodeIsupPhonenum false p = some n → pvt.state = .idle →
          ((ss7Call s stack addr).foldl (receive (fun _ _ => true) s.variant) pvt).iam.dni = n := by
    intro stack p n pvt hencode hp hn hstate
    obtain ⟨iam, hdni, hcall⟩ := call_iam hnumber hencode hp hn hstate
    rw [hcall, hchunks]
    exact hdni
  unfold Setup.Delivers
  rw [hnumber]
  by_cases hst : s.isSt = true
  · rw [if_pos hst]
    constructor
    · intro hdelivers
      by_contra hmd
      have hmd' : s.isMd = true := by simpa using hmd
      obtain ⟨p, n, hp, hlen, hn, hnum⟩ := @iam_noSt number clearStack.param true hdigits hne hfew
        rfl 1 le_rfl (Or.inr clearStack_zero)
      have hp' : encodedDni s clearStack number s.dniChunkLimit = some p := by
        rw [hencoded, if_pos hst, hmd']
        exact hp
      have harrives := hdelivers clearStack idleCircuit rfl
      rw [hone hp' hlen hn rfl, hnum, if_neg (by omega)] at harrives
      have hlength := congrArg List.length harrives
      simp at hlength
    · intro hmd stack pvt hstate
      obtain ⟨p, n, hp, hlen, hn, hnum⟩ := iam_st hdigits hne hfew stack.length_param
      have hp' : encodedDni s stack number s.dniChunkLimit = some p := by
        rw [hencoded, if_pos hst, hmd]
        exact hp
      rw [hone hp' hlen hn hstate, hnum]
  · rw [if_neg hst]
    have harrives : ∀ stack pvt, pvt.state = .idle →
        ((ss7Call s stack addr).foldl (receive (fun _ _ => true) s.variant) pvt).iam.dni.num =
          if number = str "00" then [] else number := by
      intro stack pvt hstate
      obtain ⟨p, n, hp, hlen, hn, hnum⟩ := @iam_noSt number stack.param s.isMd hdigits hne hfew
        stack.length_param 0 (Nat.zero_le _) (Or.inl rfl)
      have hp' : encodedDni s stack number s.dniChunkLimit = some p := by
        rw [hencoded, if_neg hst]
        exact hp
      rw [hone hp' hlen hn hstate, hnum]
      simp [List.length_eq_zero_iff, withoutPrefix_eq_nil hne]
    constructor
    · intro hdelivers hzeros
      have hnil := hdelivers clearStack idleCircuit rfl
      rw [harrives clearStack idleCircuit rfl, if_pos hzeros] at hnil
      exact hne hnil.symm
    · intro hzeros stack pvt hstate
      rw [harrives stack pvt hstate, if_neg hzeros]

omit hnumber hne in
/-- The IAM of a number that is cut has the first piece. -/
theorem first_piece (hcut : s.Cuts number) (stack : Stack) :
    ∃ p n, encodedDni s stack number s.dniChunkLimit = some p ∧ p.length ≤ 22 ∧
      decodeIsupPhonenum false p = some n ∧ n.num =
        if number.take s.dniChunkLimit = str "00" then [] else number.take s.dniChunkLimit := by
  obtain ⟨hlimit, hlt⟩ := hcut
  obtain ⟨hstring, -, -⟩ := strncpy_piece (fun c hc => isDigit_ne_zero (hdigits c hc))
    stack.length_iamDnicpy (le_refl s.dniChunkLimit) (by omega) (Or.inl rfl)
  have hpiece : number.take s.dniChunkLimit ≠ [] := by
    refine List.ne_nil_of_length_pos ?_
    rw [List.length_take]
    omega
  have hlen : (number.take s.dniChunkLimit).length ≤ 17 := by
    rw [List.length_take]
    omega
  obtain ⟨p, n, hp, hplen, hn, hnum⟩ := @iam_noSt (number.take s.dniChunkLimit) stack.param s.isMd
    (fun c hc => hdigits c (List.mem_of_mem_take hc)) hpiece hlen stack.length_param 0
    (Nat.zero_le _) (Or.inl rfl)
  refine ⟨p, n, ?_, hplen, hn, ?_⟩
  · rw [encodedDni, if_pos ⟨hlimit, hlt⟩, hstring]
    exact hp
  · rw [hnum]
    simp [List.length_eq_zero_iff, withoutPrefix_eq_nil hpiece]

omit hnumber hne in
/-- The pieces behind it. -/
theorem chunks_pieces (hcut : s.Cuts number) (stack : Stack) :
    s.chunks stack number = pieces s.dniChunkLimit number ∧
      ∀ piece ∈ pieces s.dniChunkLimit number, piece ≠ [] ∧ piece.length ≤ 16 ∧
        ∀ c ∈ piece, IsDigit c := by
  obtain ⟨hlimit, hlt⟩ := hcut
  have hchunks := dniChunks_eq hlimit (fun c hc => isDigit_ne_zero (hdigits c hc)) (by omega) 0
    stack.dnicpy stack.length_dnicpy (Or.inl rfl)
  refine ⟨(if_pos ⟨hlimit, hlt⟩).trans hchunks, fun piece hpiece => ?_⟩
  obtain ⟨hne, hle, -, hmem⟩ := mem_pieces hlimit hpiece
  exact ⟨hne, by omega, fun c hc => hdigits c (hmem c hc)⟩

omit hne in
/-- In pieces, with an ST in each. -/
theorem cut_iff (hcut : s.Cuts number) (hmd : s.isMd = false) :
    s.Delivers addr ↔ MakesUp s.dniChunkLimit number := by
  have harrives : ∀ stack pvt, pvt.state = .idle →
      ((ss7Call s stack addr).foldl (receive (fun _ _ => true) s.variant) pvt).iam.dni.num =
        (if number.take s.dniChunkLimit = str "00" then [] else number.take s.dniChunkLimit) ++
          again s.dniChunkLimit number := by
    intro stack pvt hstate
    obtain ⟨p, n, hp, hlen, hn, hnum⟩ := first_piece hdigits hfew hcut stack
    obtain ⟨iam, hdni, hcall⟩ := call_iam hnumber hp hlen hn hstate
    obtain ⟨hchunks, hpieces⟩ := chunks_pieces hdigits hfew hcut stack
    have hmsgs : ∀ k, ∀ c ∈ pieces s.dniChunkLimit number, ∃ header sni, decodeIsupMsg s.variant
        (isupSendSam s (stack.samParam k) c true) = some (header, .sam sni) ∧
          sni.num = withoutPrefix c := by
      intro k c hc
      obtain ⟨hcne, hcle, hcdigits⟩ := hpieces c hc
      obtain ⟨first, second, q, sni, hencode, hq, hsni, hsnum⟩ := sam_st hcdigits hcne
        (by omega) (stack.length_samParam k)
      rw [← hmd] at hencode
      obtain ⟨header, hdecode⟩ := decode_sam hencode hq hsni
      exact ⟨header, sni, hdecode, hsnum⟩
    have hshort : ∀ c ∈ pieces s.dniChunkLimit number, (withoutPrefix c).length ≠ 19 := by
      intro c hc
      obtain ⟨-, hcle, -⟩ := hpieces c hc
      have := length_withoutPrefix_le c
      omega
    have hsams := receive_sams (pieces s.dniChunkLimit number)
      (fun k chunk => isupSendSam s (stack.samParam k) chunk true) ⟨.gotIam, iam, true⟩ rfl hmsgs
      hshort
    rw [hcall, hchunks, hsams, ← hnum, ← hdni]
    rfl
  rw [← first_twice_iff hcut.1 hcut.2 hfew]
  unfold Setup.Delivers
  rw [hnumber]
  constructor
  · intro hdelivers
    rw [← harrives clearStack idleCircuit rfl]
    exact hdelivers clearStack idleCircuit rfl
  · intro heq stack pvt hstate
    rw [harrives stack pvt hstate, heq]

/-- In pieces, where an ST is counted and not sent. -/
theorem not_cut_md (hcut : s.Cuts number) (hmd : s.isMd = true) : ¬s.Delivers addr := by
  intro hdelivers
  obtain ⟨p, n, hp, hlen, hn, hnum⟩ := first_piece hdigits hfew hcut clearStack
  obtain ⟨iam, hdni, hcall⟩ := @call_iam s clearStack number idleCircuit addr p n hnumber hp hlen hn
    rfl
  obtain ⟨hchunks, hpieces⟩ := chunks_pieces hdigits hfew hcut clearStack
  have harrives := hdelivers clearStack idleCircuit rfl
  rw [hcall, hchunks, hnumber] at harrives
  obtain ⟨hlimit, hlt⟩ := hcut
  have hsams : ∀ k, ∀ c ∈ pieces s.dniChunkLimit number, ∃ header sni, decodeIsupMsg s.variant
      (isupSendSam s (clearStack.samParam k) c true) = some (header, .sam sni) ∧
        sni.num = withoutPrefix c ++ (List.replicate 3 0).map digitChar := by
    intro k c hc
    obtain ⟨hcne, hcle, hcdigits⟩ := hpieces c hc
    obtain ⟨first, second, q, sni, hencode, hq, hsni, hsnum⟩ := sam_md hcdigits hcne
      (by omega) (clearStack.length_samParam k) fun o ho => List.eq_of_mem_replicate ho
    rw [← hmd] at hencode
    obtain ⟨header, hdecode⟩ := decode_sam hencode hq hsni
    exact ⟨header, sni, hdecode, hsnum⟩
  have hthree : ∀ c, (withoutPrefix c ++ (List.replicate 3 0).map digitChar).length =
      (withoutPrefix c).length + 3 := by
    intro c
    rw [List.length_append, List.length_map, List.length_replicate]
  have hfirst : n.num.length ≤ s.dniChunkLimit := by
    rw [hnum]
    split_ifs
    · exact Nat.zero_le _
    · rw [List.length_take]
      omega
  by_cases hlast : (withoutPrefix (number.take s.dniChunkLimit)).length = 16
  · -- the first SAM has 19 digits: the circuit is released
    have hcons := pieces_cons hlimit hne
    obtain ⟨header, sni, hmsg, hsnum⟩ := hsams 0 (number.take s.dniChunkLimit)
      (hcons ▸ List.mem_cons_self)
    have hlen : sni.num.length = 19 := by
      rw [hsnum, hthree, hlast]
    have hreleased := @receive_long ⟨.gotIam, iam, true⟩ _ _ _ _ hmsg rfl hlen
    rw [hcons, List.mapIdx_cons, List.foldl_cons, hreleased, receive_released _ _ _ CircuitState.noConfusion
      fun k c hc => by
        obtain ⟨header, sni, hmsg, -⟩ := hsams (k + 1) c (hcons ▸ List.mem_cons_of_mem _ hc)
        exact ⟨header, sni, hmsg⟩] at harrives
    have hlength := congrArg List.length harrives
    simp only [hdni] at hlength
    omega
  · have hshort : ∀ c ∈ pieces s.dniChunkLimit number,
        (withoutPrefix c ++ (List.replicate 3 0).map digitChar).length ≠ 19 := by
      intro c hc h
      rw [hthree] at h
      rw [pieces_cons hlimit hne, List.mem_cons] at hc
      rcases hc with rfl | hc
      · omega
      · obtain ⟨-, hle, hle', -⟩ := mem_pieces hlimit hc
        have := length_withoutPrefix_le c
        rw [List.length_drop] at hle'
        omega
    rw [receive_sams _ _ _ rfl hsams hshort] at harrives
    have hlength := congrArg List.length harrives
    have hlong : ∀ c : CString,
        c.length < (withoutPrefix c ++ (List.replicate 3 0).map digitChar).length := by
      intro c
      have := length_withoutPrefix c
      rw [hthree]
      split_ifs at this <;> omega
    have hlonger := length_longer hlimit hlong number
    rw [List.length_append] at hlength
    rw [pieces_cons hlimit hne, List.length_cons] at hlonger
    rw [pieces_cons hlimit hne] at hlength
    omega

/-- **When the number arrives**: in one piece, if no ST is counted that is not
sent, and if there are digits in the IAM; in pieces, only where what they lose
makes up for the first that comes twice. -/
theorem delivers_iff : s.Delivers addr ↔ s.Meets number := by
  unfold Setup.Meets
  by_cases hcut : s.Cuts number
  · rw [if_pos hcut]
    cases hmd : s.isMd with
    | false =>
      rw [cut_iff hnumber hdigits hfew hcut hmd]
      simp
    | true =>
      have hnot := not_cut_md hnumber hdigits hne hfew hcut hmd
      simp [hnot]
  · rw [if_neg hcut, whole_iff hnumber hdigits hne hfew hcut]

end Digits

/-- Two exchanges, with numbers in pieces of two. -/
def twoSetup : Setup where
  variant := .itu
  opc := 1
  peerpc := 2
  cic := 3
  isMd := false
  isSt := false
  dniChunkLimit := 2
  cidNum := none
  cidRdnis := none
  presRestr := false
  h324mUsi := false
  h324mLlc := false
  opc_lt := by decide
  peerpc_lt := by decide
  cic_lt := by decide

theorem delivers_iff_four :
    twoSetup.Delivers (str "1234") ↔ twoSetup.Meets (str "1234") :=
  delivers_iff rfl (by decide) (by decide) (by decide)

/-- Pieces of two digits never make up for the first. -/
theorem not_delivers : ¬ ∀ (s : Setup) (addr : CString), (∀ c ∈ (splitAddr addr).1, IsDigit c) →
    1 ≤ (splitAddr addr).1.length → (splitAddr addr).1.length ≤ 17 → s.Delivers addr := by
  intro hall
  have hdelivers := hall twoSetup (str "1234") (by decide) (by decide) (by decide)
  have hnumber : (splitAddr (str "1234")).1 = str "1234" := by decide
  have hcut : twoSetup.Cuts (str "1234") := by decide
  have hdigits : ∀ c ∈ str "1234", IsDigit c := by decide
  have hfew : (str "1234").length ≤ 17 := by decide
  rcases (cut_iff hnumber hdigits hfew hcut rfl).1 hdelivers with ⟨h, -⟩ | ⟨h, -⟩
  · exact absurd h (by decide)
  · exact absurd h (by decide)

end Isup

end Trismedia
