import Mathlib.Data.List.Infix
import Trismedia.Mtp2.Framing
/-!
# The frames arrive

What the transmitter loads is flag after flag with a frame and its check
octets between two of them. The receiver sees the same flags and octets: what
is left of the check is the residue of the table, whatever the frame was, and
each frame is given out at the flag behind it.
-/


namespace Trismedia

namespace Mtp2

open TableCrc

variable {Tx Rx : Type} {hdlc : Fasthdlc Tx Rx} {pick : ℕ → List Octet} {m : Sender Tx}

/-! ## The check octets -/

/-- The check bits of a frame. -/
def fcsOf (f : List Octet) : BitVec 16 := f.foldl pppFcs 0xffff

/-- The check octets for what was computed. -/
def checkOctets (fcs : BitVec 16) : List Octet :=
  [crcLow (fcs ^^^ 0xffff#16), crcHigh (fcs ^^^ 0xffff#16)]

/-- A frame with its check octets. -/
def whole (f : List Octet) : List Octet := f ++ checkOctets (fcsOf f)

/-- The entry of the table. -/
def fcsEntry (i : ℕ) : BitVec 16 := fcstab.getD i 0

theorem residue_fcstab : residue fcsEntry = 0xf0b8 := by decide

theorem value_crcLow (crc : BitVec 16) :
    BitVec.ofNat 16 (crcLow crc).toNat = crc &&& 0xff#16 := by
  have hlt : (crc &&& 0xff#16).toNat < 256 := by
    rw [BitVec.toNat_and]
    exact Nat.lt_of_le_of_lt Nat.and_le_right (by decide)
  have hsame : (crcLow crc).toNat = (crc &&& 0xff#16).toNat := Nat.mod_eq_of_lt hlt
  rw [hsame, BitVec.ofNat_toNat, BitVec.setWidth_eq]

/-- **Every frame leaves the residue** behind its check octets. -/
theorem fcsOf_whole (f : List Octet) : fcsOf (whole f) = 0xf0b8 := by
  have hrun : ∀ (fcs : BitVec 16) (cs : List Octet),
      cs.foldl pppFcs fcs = run fcsEntry (fun c => BitVec.ofNat 16 c.toNat) fcs cs := fun _ _ => rfl
  have hback := run_complement fcsEntry (fun c : Octet => BitVec.ofNat 16 c.toNat) (fcsOf f)
    (value_crcLow (fcsOf f ^^^ 0xffff#16)) (value_crcLow ((fcsOf f ^^^ 0xffff#16) >>> 8))
  rw [residue_fcstab] at hback
  rw [fcsOf, whole, List.foldl_append, hrun]
  exact hback

/-! ## What is loaded -/

/-- Frames, each behind a flag. -/
def stream (fs : List (List Octet)) : List Token :=
  fs.flatMap fun f => .flag :: (whole f).map .octet

theorem stream_cons (f : List Octet) (fs : List (List Octet)) :
    stream (f :: fs) = .flag :: ((whole f).map .octet ++ stream fs) := rfl

/-- The frames picked. -/
def Sender.frames (m : Sender Tx) (pick : ℕ → List Octet) : List (List Octet) :=
  (List.range m.picked).map pick

/-- What is to come of the frame that goes out. -/
def Sender.ahead (m : Sender Tx) : List Octet :=
  if m.txDoCrc = 1 then [crcLow m.txCrc, crcHigh m.txCrc]
  else if m.txDoCrc = 2 then [crcHigh m.txCrc]
  else if m.txSofar < m.txBuffer.length then
    m.txBuffer.drop m.txSofar ++ checkOctets ((m.txBuffer.drop m.txSofar).foldl pppFcs m.txCrc)
  else []

/-- **The transmitter between two rounds**: what it has loaded and what is
ahead make up the frames picked, behind the opening flag. -/
structure Sender.Ok (m : Sender Tx) (pick : ℕ → List Octet) : Prop where
  loaded : m.loaded ++ m.ahead.map .octet = .flag :: stream (m.frames pick)
  done : m.txDoCrc = 0 ∨ m.txDoCrc ≤ 2 ∧ m.txBuffer.length ≤ m.txSofar

theorem initSender_ok (hTx : Tx) : (initSender hdlc hTx).Ok pick := ⟨rfl, Or.inl rfl⟩

/-- An octet of those ahead is loaded. -/
theorem Sender.Ok.octet {m' : Sender Tx} {o : Octet} (h : m.Ok pick) (hahead : m.ahead = o :: m'.ahead)
    (hloaded : m'.loaded = m.loaded ++ [.octet o]) (hpicked : m'.picked = m.picked)
    (hdone : m'.txDoCrc = 0 ∨ m'.txDoCrc ≤ 2 ∧ m'.txBuffer.length ≤ m'.txSofar) :
    m'.Ok pick := by
  have hframes : m'.frames pick = m.frames pick := by
    rw [Sender.frames, Sender.frames, hpicked]
  refine ⟨?_, hdone⟩
  rw [hframes, ← h.loaded, hloaded, hahead, List.map_cons, List.append_assoc]
  rfl

/-- The next frame is picked where none is ahead. -/
theorem Sender.Ok.next {m' : Sender Tx} (h : m.Ok pick) (hahead : m.ahead = [])
    (hnext : m'.ahead = whole (pick m.picked)) (hloaded : m'.loaded = m.loaded ++ [.flag])
    (hpicked : m'.picked = m.picked + 1)
    (hdone : m'.txDoCrc = 0 ∨ m'.txDoCrc ≤ 2 ∧ m'.txBuffer.length ≤ m'.txSofar) :
    m'.Ok pick := by
  have hframes : stream (m'.frames pick) =
      stream (m.frames pick) ++ .flag :: (whole (pick m.picked)).map .octet := by
    rw [Sender.frames, hpicked, List.range_succ, List.map_append, stream, List.flatMap_append]
    simp [stream, Sender.frames]
  have hbefore := h.loaded
  rw [hahead, List.map_nil, List.append_nil] at hbefore
  refine ⟨?_, hdone⟩
  rw [hframes, hnext, hloaded, hbefore, List.append_assoc]
  rfl

/-- **Loading** goes on where it was. -/
theorem loadBits_ok (h : m.Ok pick) (hpick : ∀ n, pick n ≠ []) : (loadBits hdlc pick m).Ok pick := by
  have hdone := h.done
  unfold loadBits
  by_cases hlow : m.txDoCrc = 1
  · rw [if_pos hlow]
    refine h.octet ?_ rfl rfl (Or.inr ⟨le_rfl, (hdone.resolve_left (by omega)).2⟩)
    rw [Sender.ahead, if_pos hlow]
    rfl
  · rw [if_neg hlow]
    by_cases hhigh : m.txDoCrc = 2
    · have hend : ¬m.txSofar < m.txBuffer.length :=
        Nat.not_lt.2 (hdone.resolve_left (by omega)).2
      rw [if_pos hhigh]
      refine h.octet ?_ rfl rfl (Or.inl rfl)
      rw [Sender.ahead, if_neg hlow, if_pos hhigh]
      exact congrArg _ (if_neg hend).symm
    · have hzero : m.txDoCrc = 0 := by omega
      rw [if_neg hhigh]
      by_cases hnext : m.txSofar ≥ m.txBuffer.length
      · have hsome : 0 < (pick m.picked).length := List.length_pos_iff.2 (hpick _)
        rw [if_pos hnext]
        refine h.next ?_ ?_ rfl rfl (Or.inl hzero)
        · rw [Sender.ahead, if_neg hlow, if_neg hhigh, if_neg (by omega)]
        · rw [Sender.ahead]
          dsimp only
          rw [if_neg hlow, if_neg hhigh, if_pos hsome, List.drop_zero]
          rfl
      · have hlt : m.txSofar < m.txBuffer.length := by omega
        have hdrop : m.txBuffer.drop m.txSofar =
            m.txBuffer.getD m.txSofar 0 :: m.txBuffer.drop (m.txSofar + 1) := by
          rw [List.drop_eq_getElem_cons hlt, List.getD_eq_getElem?_getD, List.getElem?_eq_getElem hlt,
            Option.getD_some]
        have hahead : m.ahead = m.txBuffer.getD m.txSofar 0 ::
            (m.txBuffer.drop (m.txSofar + 1) ++ checkOctets ((m.txBuffer.drop (m.txSofar + 1)).foldl
              pppFcs (pppFcs m.txCrc (m.txBuffer.getD m.txSofar 0)))) := by
          rw [Sender.ahead, if_neg hlow, if_neg hhigh, if_pos hlt, hdrop]
          rfl
        rw [if_neg hnext]
        dsimp only
        by_cases hlast : m.txSofar + 1 = m.txBuffer.length
        · have hnone : m.txBuffer.drop (m.txSofar + 1) = [] := List.drop_of_length_le (by omega)
          rw [hnone] at hahead
          rw [if_pos hlast]
          exact h.octet hahead rfl rfl (Or.inr ⟨Nat.le_succ 1, hlast.ge⟩)
        · rw [if_neg hlast]
          refine h.octet ?_ rfl rfl (Or.inl hzero)
          rw [hahead, Sender.ahead]
          dsimp only
          rw [if_neg hlow, if_neg hhigh, if_pos (by omega)]

/-- **Any number of buffers**, from a link that was just set up. -/
theorem fill_ok (hpick : ∀ n, pick n ≠ []) (hTx : Tx) (buffers : ℕ) :
    ((mtp2FillZaptelBuf hdlc pick)^[buffers] (initSender hdlc hTx)).Ok pick := by
  have hoctet : ∀ m : Sender Tx, m.Ok pick → (fillOctet hdlc pick m).Ok pick := by
    intro m h
    unfold fillOctet
    split_ifs
    · obtain ⟨hloaded, hdone⟩ := @loadBits_ok _ _ hdlc _ _ h hpick
      exact ⟨hloaded, hdone⟩
    · exact ⟨h.loaded, h.done⟩
  have hfill : ∀ m : Sender Tx, m.Ok pick → (mtp2FillZaptelBuf hdlc pick m).Ok pick :=
    fun m h => Function.Iterate.rec (fun m : Sender Tx => m.Ok pick) h hoctet zapBufSize
  exact Function.Iterate.rec (fun m : Sender Tx => m.Ok pick) (initSender_ok hTx) hfill buffers

/-! ## What is received -/

/-- What is being put together, and the frames given out. -/
structure Decoder where
  rxBuf : List Octet
  rxCrc : BitVec 16
  good : List (List Octet)

/-- A flag or an octet. -/
def decode (d : Decoder) : Token → Decoder
  | .flag =>
    ⟨[], 0xffff, d.good ++
      if d.rxBuf.length = 0 then []
      else if d.rxBuf.length < 5 then []
      else if d.rxCrc = 0xf0b8 then [d.rxBuf.take (d.rxBuf.length - 2)]
      else []⟩
  | .octet o =>
    if d.rxBuf.length ≥ 272 + 7 then ⟨[], 0xffff, d.good⟩
    else ⟨d.rxBuf ++ [o], pppFcs d.rxCrc o, d.good⟩

/-- Octets of a frame that is not too long. -/
theorem decode_octets (os : List Octet) : ∀ d : Decoder, d.rxBuf.length + os.length ≤ 279 →
    (os.map Token.octet).foldl decode d = ⟨d.rxBuf ++ os, os.foldl pppFcs d.rxCrc, d.good⟩ := by
  induction os with
  | nil =>
    intro d _
    rw [List.append_nil]
    rfl
  | cons o os ih =>
    intro d h
    rw [List.length_cons] at h
    have hstep : decode d (.octet o) = ⟨d.rxBuf ++ [o], pppFcs d.rxCrc o, d.good⟩ :=
      if_neg (by omega)
    rw [List.map_cons, List.foldl_cons, hstep, ih _ (by
      rw [List.length_append, List.length_singleton]
      omega), List.append_assoc]
    rfl

/-- Frames that can be told from errors. -/
def Sized (fs : List (List Octet)) : Prop := ∀ f ∈ fs, 3 ≤ f.length ∧ f.length ≤ 277

theorem length_whole (f : List Octet) : (whole f).length = f.length + 2 := List.length_append

/-- The flag behind a frame. -/
theorem decode_flag {f : List Octet} (hf : 3 ≤ f.length) (good : List (List Octet)) :
    decode ⟨whole f, fcsOf (whole f), good⟩ .flag = ⟨[], 0xffff, good ++ [f]⟩ := by
  have hlen := length_whole f
  have htake : (whole f).take ((whole f).length - 2) = f := by
    rw [hlen, Nat.add_sub_cancel, whole, List.take_left]
  unfold decode
  dsimp only
  rw [if_neg (by omega), if_neg (by omega), if_pos (fcsOf_whole f), htake]

/-- The number of flags. -/
def flags (ts : List Token) : ℕ := ts.count .flag

theorem flags_octets (os : List Octet) : flags (os.map .octet) = 0 :=
  List.count_eq_zero.2 fun h => by
    obtain ⟨o, -, ho⟩ := List.mem_map.1 h
    exact Token.noConfusion ho

theorem flags_stream (fs : List (List Octet)) : flags (stream fs) = fs.length := by
  induction fs with
  | nil => rfl
  | cons f fs ih =>
    have hframe : ((whole f).map Token.octet).count .flag = 0 := flags_octets (whole f)
    rw [stream_cons, flags, List.count_cons_self, List.count_append, hframe, Nat.zero_add, ← flags, ih]
    rfl

/-- **From within a frame on**: each flag gives out a frame. -/
theorem decode_inFrame (fs : List (List Octet)) : ∀ (f : List Octet) (good : List (List Octet))
    (ts : List Token), Sized (f :: fs) → ts <+: (whole f).map .octet ++ stream fs →
      (ts.foldl decode ⟨[], 0xffff, good⟩).good = good ++ (f :: fs).take (flags ts) := by
  induction fs with
  | nil =>
    intro f good ts hsized hts
    obtain ⟨hf, -⟩ := List.forall_mem_cons.1 hsized
    have hlen := length_whole f
    rw [stream, List.flatMap_nil, List.append_nil] at hts
    obtain ⟨os, hos, rfl⟩ := List.prefix_map_iff.1 hts
    have hle := hos.length_le
    rw [decode_octets os _ (by rw [List.length_nil]; omega), flags_octets, List.take_zero,
      List.append_nil]
  | cons f' fs ih =>
    intro f good ts hsized hts
    obtain ⟨hf, hrest⟩ := List.forall_mem_cons.1 hsized
    have hlen := length_whole f
    rcases List.prefix_or_prefix_of_prefix hts (List.prefix_append _ _) with hin | hout
    · -- the flag behind the frame is not there yet
      obtain ⟨os, hos, rfl⟩ := List.prefix_map_iff.1 hin
      have hle := hos.length_le
      rw [decode_octets os _ (by rw [List.length_nil]; omega), flags_octets, List.take_zero,
        List.append_nil]
    · obtain ⟨ts, rfl⟩ := hout
      have hnext := (List.prefix_append_right_inj _).1 hts
      rw [List.foldl_append, decode_octets _ _ (by rw [List.length_nil]; omega), flags,
        List.count_append, ← flags, flags_octets, Nat.zero_add]
      rw [stream_cons] at hnext
      rcases ts with _ | ⟨t, ts⟩
      · exact (List.append_nil _).symm
      · obtain ⟨rfl, htail⟩ := List.cons_prefix_cons.1 hnext
        have hflag := decode_flag hf.1 good
        rw [List.foldl_cons, List.nil_append, ← fcsOf, hflag, ih f' _ ts hrest htail, flags,
          List.count_cons_self, List.take_succ_cons, List.append_assoc]
        rfl

/-- **From the opening flag on**: the second flag is before the first frame. -/
theorem decode_stream {fs : List (List Octet)} {ts : List Token} (hsized : Sized fs)
    (hts : ts <+: .flag :: stream fs) :
    (ts.foldl decode ⟨[], 0xffff, []⟩).good = fs.take (flags ts - 2) := by
  have hempty : decode ⟨[], 0xffff, []⟩ .flag = ⟨[], 0xffff, []⟩ := rfl
  rcases ts with _ | ⟨t, ts⟩
  · exact List.take_zero.symm
  obtain ⟨rfl, hopened⟩ := List.cons_prefix_cons.1 hts
  rw [List.foldl_cons, hempty, flags, List.count_cons_self]
  rcases fs with _ | ⟨f, fs⟩
  · rw [List.prefix_nil.1 hopened, List.take_nil]
    rfl
  rcases ts with _ | ⟨t, ts⟩
  · exact List.take_zero.symm
  rw [stream_cons] at hopened
  obtain ⟨rfl, hframe⟩ := List.cons_prefix_cons.1 hopened
  rw [List.foldl_cons, hempty, List.count_cons_self, decode_inFrame fs f [] ts hsized hframe,
    List.nil_append]
  rfl

/-! ## The receiver -/

/-- What `fasthdlc_rx_run` returns for a flag or an octet. -/
def arrival : Token → RxResult
  | .flag => .complete
  | .octet o => .data o

/-- The receiver as a decoder. -/
def Receiver.decoder (m : Receiver Rx) : Decoder := ⟨m.rxBuf, m.rxCrc, goodFrames m.calls⟩

theorem goodFrames_append (cs ds : List RxCall) :
    goodFrames (cs ++ ds) = goodFrames cs ++ goodFrames ds := List.filterMap_append

variable {r : Receiver Rx}

theorem loadOctets_decoder (buf : List Octet) : ∀ r : Receiver Rx,
    (loadOctets hdlc buf r).1.decoder = r.decoder ∧ (loadOctets hdlc buf r).1.results = r.results := by
  induction buf with
  | nil => exact fun r => ⟨rfl, rfl⟩
  | cons o buf ih =>
    intro r
    rw [loadOctets]
    split_ifs with hroom
    · obtain ⟨hdecoder, hresults⟩ := ih { r with
        hRx := hdlc.rxLoadNocheck r.hRx o
        calls := r.calls ++
          if hdlc.rxSearching (hdlc.rxLoadNocheck r.hRx o) then [.countOctet] else [] }
      refine ⟨hdecoder.trans ?_, hresults⟩
      rw [Receiver.decoder, Receiver.decoder]
      dsimp only
      rw [goodFrames_append]
      split_ifs
      · exact congrArg _ (List.append_nil _)
      · exact congrArg _ (List.append_nil _)
    · exact ⟨rfl, rfl⟩

theorem takeResult_results (r : Receiver Rx) (res : RxResult) :
    (takeResult hdlc r res).results = r.results := by
  cases res with
  | data o =>
    unfold takeResult
    split_ifs <;> rfl
  | discard => rfl
  | empty => rfl
  | complete => rfl

/-- A flag or an octet taken. -/
theorem takeResult_decoder (r : Receiver Rx) (t : Token) :
    (takeResult hdlc r (arrival t)).decoder = decode r.decoder t := by
  cases t with
  | flag =>
    have hgood : goodFrames (if r.rxBuf.length = 0 then []
        else if r.rxBuf.length < 5 then [.badFrame]
        else if r.rxCrc = 0xf0b8 then [.goodFrame (r.rxBuf.take (r.rxBuf.length - 2))]
        else [.badFrame]) =
      if r.rxBuf.length = 0 then []
        else if r.rxBuf.length < 5 then []
        else if r.rxCrc = 0xf0b8 then [r.rxBuf.take (r.rxBuf.length - 2)]
        else [] := by
      split_ifs <;> rfl
    exact congrArg (Decoder.mk [] 0xffff) ((goodFrames_append _ _).trans (congrArg _ hgood))
  | octet o =>
    unfold arrival takeResult decode Receiver.decoder
    dsimp only
    split_ifs
    · exact congrArg (Decoder.mk [] 0xffff) ((goodFrames_append _ _).trans (List.append_nil _))
    · rfl

/-- Results that are all of flags and octets. -/
def arrivals (results : List RxResult) : List RxResult := results.filter (· ≠ .empty)

/-- **The receiver in a run**, as long as all that arrives are flags and
octets. -/
def Receiver.Reads (r : Receiver Rx) : Prop :=
  ∀ ts : List Token, arrivals r.results = ts.map arrival →
    r.decoder = ts.foldl decode ⟨[], 0xffff, []⟩

theorem initReceiver_reads (hRx : Rx) : (initReceiver hRx).Reads := by
  intro ts hts
  obtain rfl : ts = [] := List.map_eq_nil_iff.1 hts.symm
  rfl

theorem readRound_reads (h : r.Reads) (buf : List Octet) : (readRound hdlc r buf).1.Reads := by
  obtain ⟨hdecoder, hresults⟩ := @loadOctets_decoder Tx Rx hdlc buf r
  intro ts hts
  unfold readRound at hts ⊢
  dsimp only at hts ⊢
  generalize loadOctets hdlc buf r = load at hdecoder hresults hts ⊢
  generalize hdlc.rxRun load.1.hRx = run at hts ⊢
  rw [takeResult_results, arrivals, List.filter_append, ← arrivals, hresults] at hts
  by_cases hempty : run.1 = .empty
  · rw [hempty] at hts ⊢
    exact hdecoder.trans (h ts (by simpa using hts))
  · rw [List.filter_cons_of_pos (by simpa using hempty), List.filter_nil] at hts
    obtain ⟨before, last, rfl, hbefore, hlast⟩ := List.append_eq_map_iff.1 hts
    obtain ⟨t, rfl, ht⟩ : ∃ t, last = [t] ∧ arrival t = run.1 := by
      obtain ⟨t, rest, rfl, ht, hrest⟩ := List.map_eq_cons_iff.1 hlast
      rw [List.map_eq_nil_iff.1 hrest]
      exact ⟨t, rfl, ht⟩
    rw [← ht, takeResult_decoder, List.foldl_append, ← h before hbefore.symm, ← hdecoder]
    rfl

theorem mtp2ReadSu_reads (rounds : ℕ) : ∀ (buf : List Octet) (reads : List (List Octet))
    (r : Receiver Rx), r.Reads → (mtp2ReadSu hdlc rounds buf reads r).Reads := by
  induction rounds with
  | zero => exact fun _ _ _ h => h
  | succ rounds ih =>
    intro buf reads r h
    have hround := @readRound_reads Tx Rx hdlc r h buf
    unfold mtp2ReadSu
    dsimp only
    split_ifs
    · cases reads with
      | nil => exact hround
      | cons next reads => exact ih next reads _ hround
    · exact ih _ reads _ hround

/-! ## The frames -/

/-- **fasthdlc delivers** what was loaded, unchanged and in order: what arrives,
with the first flag before it if that was taken to find the frames, begins what
was loaded. -/
structure Delivers (loaded lost got : List Token) (results : List RxResult) : Prop where
  arrive : arrivals results = got.map arrival
  opening : lost = [] ∨ lost = [.flag]
  inOrder : lost ++ got <+: loaded

/-- **The frames that are given out** are those picked, each once and in order:
as many as there are flags behind a frame, and all but the one that goes out
when all that was loaded has arrived. -/
theorem framing_right (hdlc : Fasthdlc Tx Rx) (hTx : Tx) (hRx : Rx) (pick : ℕ → List Octet)
    (buffers rounds : ℕ) (buf : List Octet) (reads : List (List Octet)) (lost got : List Token)
    (hsized : ∀ n, 3 ≤ (pick n).length ∧ (pick n).length ≤ 277)
    (hread : (buf :: reads).flatten <+:
      ((mtp2FillZaptelBuf hdlc pick)^[buffers] (initSender hdlc hTx)).written)
    (hdelivers : (buf :: reads).flatten <+:
        ((mtp2FillZaptelBuf hdlc pick)^[buffers] (initSender hdlc hTx)).written →
      Delivers ((mtp2FillZaptelBuf hdlc pick)^[buffers] (initSender hdlc hTx)).loaded lost got
        (mtp2ReadSu hdlc rounds buf reads (initReceiver hRx)).results) :
    goodFrames (mtp2ReadSu hdlc rounds buf reads (initReceiver hRx)).calls =
        (((mtp2FillZaptelBuf hdlc pick)^[buffers] (initSender hdlc hTx)).frames pick).take
          (flags (lost ++ got) - 2) ∧
      (lost ++ got = ((mtp2FillZaptelBuf hdlc pick)^[buffers] (initSender hdlc hTx)).loaded →
        goodFrames (mtp2ReadSu hdlc rounds buf reads (initReceiver hRx)).calls =
          (((mtp2FillZaptelBuf hdlc pick)^[buffers] (initSender hdlc hTx)).frames pick).dropLast) := by
  obtain ⟨harrive, hopening, horder⟩ := hdelivers hread
  have hok := @fill_ok _ _ hdlc pick (fun n h => by
    have hn := (hsized n).1
    rw [h] at hn
    exact absurd hn (by decide)) hTx buffers
  generalize (mtp2FillZaptelBuf hdlc pick)^[buffers] (initSender hdlc hTx) = m at *
  have hfs : Sized (m.frames pick) := by
    intro f hf
    obtain ⟨n, -, rfl⟩ := List.mem_map.1 hf
    exact hsized n
  have hprefix : lost ++ got <+: .flag :: stream (m.frames pick) :=
    horder.trans (hok.loaded ▸ List.prefix_append _ _)
  have hreads := mtp2ReadSu_reads rounds buf reads _ (@initReceiver_reads Rx hRx) got harrive
  -- the opening flag changes nothing
  have hsame : got.foldl decode ⟨[], 0xffff, []⟩ = (lost ++ got).foldl decode ⟨[], 0xffff, []⟩ := by
    rcases hopening with rfl | rfl <;> rfl
  have hgood : goodFrames (mtp2ReadSu hdlc rounds buf reads (initReceiver hRx)).calls =
      (m.frames pick).take (flags (lost ++ got) - 2) := by
    rw [← decode_stream hfs hprefix, ← hsame, ← hreads]
    rfl
  refine ⟨hgood, fun hall => ?_⟩
  have hcount : flags (lost ++ got) = (m.frames pick).length + 1 := by
    have htotal := congrArg flags hok.loaded
    have hahead : (m.ahead.map Token.octet).count .flag = 0 := flags_octets m.ahead
    rw [← hall, flags, List.count_append, hahead, flags, List.count_cons_self] at htotal
    rw [flags, ← flags_stream (m.frames pick)]
    exact htotal
  rw [hgood, hcount, List.dropLast_eq_take]
  rfl

/-! ## A line of bits -/

/-- Bits on their way, and the ones before them. -/
structure BitState where
  bits : List Bool
  ones : ℕ
  searching : Bool

/-- The bits of an octet, the low one first. -/
def octetBits (o : Octet) : List Bool := (List.range 8).map o.toNat.testBit

/-- The octet for its bits, the high one first. -/
def bitsOctet (bits : List Bool) : Octet :=
  UInt8.ofNat (bits.foldl (fun n b => 2 * n + b.toNat) 0)

def flagBits : List Bool := [false, true, true, true, true, true, true, false]

/-- A zero goes behind five ones. -/
def stuffBits : List Bool → ℕ → List Bool × ℕ
  | [], ones => ([], ones)
  | b :: bits, ones =>
    if b ∧ ones = 4 then
      let rest := stuffBits bits 0
      (b :: false :: rest.1, rest.2)
    else
      let rest := stuffBits bits (if b then ones + 1 else 0)
      (b :: rest.1, rest.2)

/-- Bits before a flag are skipped. -/
def searchFlag : ℕ → List Bool → List Bool × Bool
  | 0, bits => (bits, false)
  | n + 1, bits =>
    if bits.length < 8 then (bits, false)
    else if bits.take 8 = flagBits then (bits.drop 8, true)
    else searchFlag n (bits.drop 1)

/-- An octet or a flag is taken of the bits. -/
def scanBits : List Bool → ℕ → List Bool → RxResult × BitState
  | [], ones, _ => (.empty, ⟨[], ones, false⟩)
  | b :: bits, ones, octet =>
    if octet.length = 8 then (.data (bitsOctet octet.reverse), ⟨b :: bits, ones, false⟩)
    else if ones = 5 then
      if b then
        if bits.head? = some false ∧ octet.length = 6 then (.complete, ⟨bits.drop 1, 0, false⟩)
        else (.discard, ⟨bits, 0, true⟩)
      else scanBits bits 0 octet
    else scanBits bits (if b then ones + 1 else 0) (octet ++ [b])

/-- `fasthdlc` by the bit. -/
def bitHdlc : Fasthdlc BitState BitState where
  txLoadNocheck s o :=
    let stuffed := stuffBits (octetBits o) s.ones
    ⟨s.bits ++ stuffed.1, stuffed.2, s.searching⟩
  txFrameNocheck s := ⟨s.bits ++ flagBits, 0, s.searching⟩
  txRunNocheck s := (bitsOctet (s.bits.take 8), { s with bits := s.bits.drop 8 })
  txBits s := s.bits.length
  rxLoadNocheck s o := { s with bits := s.bits ++ (octetBits o).reverse }
  rxRun s :=
    let found := if s.searching then searchFlag s.bits.length s.bits else (s.bits, true)
    let ones := if s.searching then 0 else s.ones
    if found.2 ∧ 10 ≤ found.1.length then scanBits found.1 ones []
    else (.empty, ⟨found.1, ones, !found.2⟩)
  rxBits s := s.bits.length
  rxSearching s := s.searching
  rxSearch s := { s with searching := true }

/-- Fill-in units, told apart by their last octet. -/
def numbered (n : ℕ) : List Octet := [0x7f, 0xff, UInt8.ofNat n]

/-- The flags and octets of two of them, and the start of a third. -/
def twoArrived : List Token :=
  [.flag, .octet 0x7f, .octet 0xff, .octet 0x00, .octet 0x13, .octet 0xf3,
    .flag, .octet 0x7f, .octet 0xff, .octet 0x01, .octet 0x9a, .octet 0xe2, .flag, .octet 0x7f]

theorem framing_right_numbered :
    ((∀ n, 3 ≤ (numbered n).length ∧ (numbered n).length ≤ 277) ∧
      Delivers ((mtp2FillZaptelBuf bitHdlc numbered)^[1] (initSender bitHdlc ⟨[], 0, false⟩)).loaded
        [.flag] twoArrived
        (mtp2ReadSu bitHdlc 60 [126, 126, 251, 125, 192]
          [[50, 51, 223, 190, 223, 120, 5, 148, 119, 239, 183]]
          (initReceiver ⟨[], 0, true⟩)).results) ∧
      goodFrames (mtp2ReadSu bitHdlc 60 [126, 126, 251, 125, 192]
          [[50, 51, 223, 190, 223, 120, 5, 148, 119, 239, 183]] (initReceiver ⟨[], 0, true⟩)).calls =
        [numbered 0, numbered 1] := by
  have hsized : ∀ n, 3 ≤ (numbered n).length ∧ (numbered n).length ≤ 277 :=
    fun _ => ⟨le_refl 3, show 3 ≤ 277 by decide⟩
  have hdelivers : Delivers
      ((mtp2FillZaptelBuf bitHdlc numbered)^[1] (initSender bitHdlc ⟨[], 0, false⟩)).loaded
      [.flag] twoArrived
      (mtp2ReadSu bitHdlc 60 [126, 126, 251, 125, 192]
        [[50, 51, 223, 190, 223, 120, 5, 148, 119, 239, 183]] (initReceiver ⟨[], 0, true⟩)).results :=
    ⟨by decide +kernel, Or.inr rfl, by decide +kernel⟩
  have hall := framing_right bitHdlc ⟨[], 0, false⟩ ⟨[], 0, true⟩ numbered 1 60
    [126, 126, 251, 125, 192] [[50, 51, 223, 190, 223, 120, 5, 148, 119, 239, 183]] [.flag] twoArrived
    hsized (by decide +kernel) fun _ => hdelivers
  exact ⟨⟨hsized, hdelivers⟩, hall.1.trans (by decide +kernel)⟩

end Mtp2

end Trismedia
