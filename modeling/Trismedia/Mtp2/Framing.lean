import Trismedia.Common.TableCrc
import Trismedia.Mtp2.Model
/-!
# Frames between flags

`mtp2_fill_zaptel_buf` and `mtp2_read_su` of `channels/ss7/mtp.c`: a flag, the
octets of a frame and two check octets go to `fasthdlc`, and what comes from
the other `fasthdlc` is put together again. `fasthdlc` is a header that is not
in this repository, so it is a parameter. The log and the raw dumps are left
out.
-/


namespace Trismedia

namespace Mtp2

/-! ## The check bits -/

/-- `fcstab` -/
def fcstab : List (BitVec 16) := [
    0x0000, 0x1189, 0x2312, 0x329b, 0x4624, 0x57ad, 0x6536, 0x74bf,
    0x8c48, 0x9dc1, 0xaf5a, 0xbed3, 0xca6c, 0xdbe5, 0xe97e, 0xf8f7,
    0x1081, 0x0108, 0x3393, 0x221a, 0x56a5, 0x472c, 0x75b7, 0x643e,
    0x9cc9, 0x8d40, 0xbfdb, 0xae52, 0xdaed, 0xcb64, 0xf9ff, 0xe876,
    0x2102, 0x308b, 0x0210, 0x1399, 0x6726, 0x76af, 0x4434, 0x55bd,
    0xad4a, 0xbcc3, 0x8e58, 0x9fd1, 0xeb6e, 0xfae7, 0xc87c, 0xd9f5,
    0x3183, 0x200a, 0x1291, 0x0318, 0x77a7, 0x662e, 0x54b5, 0x453c,
    0xbdcb, 0xac42, 0x9ed9, 0x8f50, 0xfbef, 0xea66, 0xd8fd, 0xc974,
    0x4204, 0x538d, 0x6116, 0x709f, 0x0420, 0x15a9, 0x2732, 0x36bb,
    0xce4c, 0xdfc5, 0xed5e, 0xfcd7, 0x8868, 0x99e1, 0xab7a, 0xbaf3,
    0x5285, 0x430c, 0x7197, 0x601e, 0x14a1, 0x0528, 0x37b3, 0x263a,
    0xdecd, 0xcf44, 0xfddf, 0xec56, 0x98e9, 0x8960, 0xbbfb, 0xaa72,
    0x6306, 0x728f, 0x4014, 0x519d, 0x2522, 0x34ab, 0x0630, 0x17b9,
    0xef4e, 0xfec7, 0xcc5c, 0xddd5, 0xa96a, 0xb8e3, 0x8a78, 0x9bf1,
    0x7387, 0x620e, 0x5095, 0x411c, 0x35a3, 0x242a, 0x16b1, 0x0738,
    0xffcf, 0xee46, 0xdcdd, 0xcd54, 0xb9eb, 0xa862, 0x9af9, 0x8b70,
    0x8408, 0x9581, 0xa71a, 0xb693, 0xc22c, 0xd3a5, 0xe13e, 0xf0b7,
    0x0840, 0x19c9, 0x2b52, 0x3adb, 0x4e64, 0x5fed, 0x6d76, 0x7cff,
    0x9489, 0x8500, 0xb79b, 0xa612, 0xd2ad, 0xc324, 0xf1bf, 0xe036,
    0x18c1, 0x0948, 0x3bd3, 0x2a5a, 0x5ee5, 0x4f6c, 0x7df7, 0x6c7e,
    0xa50a, 0xb483, 0x8618, 0x9791, 0xe32e, 0xf2a7, 0xc03c, 0xd1b5,
    0x2942, 0x38cb, 0x0a50, 0x1bd9, 0x6f66, 0x7eef, 0x4c74, 0x5dfd,
    0xb58b, 0xa402, 0x9699, 0x8710, 0xf3af, 0xe226, 0xd0bd, 0xc134,
    0x39c3, 0x284a, 0x1ad1, 0x0b58, 0x7fe7, 0x6e6e, 0x5cf5, 0x4d7c,
    0xc60c, 0xd785, 0xe51e, 0xf497, 0x8028, 0x91a1, 0xa33a, 0xb2b3,
    0x4a44, 0x5bcd, 0x6956, 0x78df, 0x0c60, 0x1de9, 0x2f72, 0x3efb,
    0xd68d, 0xc704, 0xf59f, 0xe416, 0x90a9, 0x8120, 0xb3bb, 0xa232,
    0x5ac5, 0x4b4c, 0x79d7, 0x685e, 0x1ce1, 0x0d68, 0x3ff3, 0x2e7a,
    0xe70e, 0xf687, 0xc41c, 0xd595, 0xa12a, 0xb0a3, 0x8238, 0x93b1,
    0x6b46, 0x7acf, 0x4854, 0x59dd, 0x2d62, 0x3ceb, 0x0e70, 0x1ff9,
    0xf78f, 0xe606, 0xd49d, 0xc514, 0xb1ab, 0xa022, 0x92b9, 0x8330,
    0x7bc7, 0x6a4e, 0x58d5, 0x495c, 0x3de3, 0x2c6a, 0x1ef1, 0x0f78]

/-- `PPP_FCS` -/
def pppFcs (fcs : BitVec 16) (c : Octet) : BitVec 16 :=
  (fcs >>> 8) ^^^ fcstab.getD ((fcs ^^^ BitVec.ofNat 16 c.toNat) &&& 0xff#16).toNat 0

/-! ## fasthdlc -/

/-- What `fasthdlc_rx_run` returns. -/
inductive RxResult
  | discard
  | empty
  | complete
  | data (res : Octet)
  deriving DecidableEq

/-- `fasthdlc.h`, with the fields of its state that are used: `bits`, and
whether `state` is 0. -/
structure Fasthdlc (Tx Rx : Type) where
  txLoadNocheck : Tx → Octet → Tx
  txFrameNocheck : Tx → Tx
  txRunNocheck : Tx → Octet × Tx
  txBits : Tx → ℕ
  rxLoadNocheck : Rx → Octet → Rx
  rxRun : Rx → RxResult × Rx
  rxBits : Rx → ℕ
  rxSearching : Rx → Bool
  rxSearch : Rx → Rx

variable {Tx Rx : Type} (hdlc : Fasthdlc Tx Rx)

/-! ## Sending -/

/-- What is loaded: a flag, or an octet. -/
inductive Token
  | flag
  | octet (o : Octet)
  deriving DecidableEq

/-- The fields of `struct mtp2_state` for the transmitter; `tx_len` is the
length of the buffer. `picked` is how many frames were picked; `loaded` and
`written` are history, what went to `fasthdlc` and what came from it. -/
structure Sender (Tx : Type) where
  hTx : Tx
  txBuffer : List Octet
  txSofar : ℕ
  txDoCrc : ℕ
  txCrc : BitVec 16
  picked : ℕ
  loaded : List Token
  written : List Octet

/-- The low octet of the check bits. -/
def crcLow (crc : BitVec 16) : Octet := UInt8.ofNat (crc &&& 0xff#16).toNat

/-- The high one. -/
def crcHigh (crc : BitVec 16) : Octet := UInt8.ofNat ((crc >>> 8) &&& 0xff#16).toNat

/-- A link that was just set up: the opening flag is in `fasthdlc`. -/
def initSender (hTx : Tx) : Sender Tx where
  hTx := hdlc.txFrameNocheck hTx
  txBuffer := []
  txSofar := 0
  txDoCrc := 0
  txCrc := 0xffff
  picked := 0
  loaded := [.flag]
  written := []

/-- Some more bits are loaded; `pick n` is the frame that the call number `n`
of `mtp2_pick_frame` leaves in the buffer. -/
def loadBits (pick : ℕ → List Octet) (m : Sender Tx) : Sender Tx :=
  if m.txDoCrc = 1 then
    { m with
      hTx := hdlc.txLoadNocheck m.hTx (crcLow m.txCrc)
      loaded := m.loaded ++ [.octet (crcLow m.txCrc)]
      txDoCrc := 2 }
  else if m.txDoCrc = 2 then
    { m with
      hTx := hdlc.txLoadNocheck m.hTx (crcHigh m.txCrc)
      loaded := m.loaded ++ [.octet (crcHigh m.txCrc)]
      txDoCrc := 0 }
  else if m.txSofar ≥ m.txBuffer.length then
    { m with
      txBuffer := pick m.picked
      picked := m.picked + 1
      txSofar := 0
      txCrc := 0xffff
      hTx := hdlc.txFrameNocheck m.hTx
      loaded := m.loaded ++ [.flag] }
  else
    let data := m.txBuffer.getD m.txSofar 0
    let m :=
      { m with
        txSofar := m.txSofar + 1
        hTx := hdlc.txLoadNocheck m.hTx data
        loaded := m.loaded ++ [.octet data]
        txCrc := pppFcs m.txCrc data }
    if m.txSofar = m.txBuffer.length then { m with txCrc := m.txCrc ^^^ 0xffff#16, txDoCrc := 1 }
    else m

/-- A round of `mtp2_fill_zaptel_buf`. -/
def fillOctet (pick : ℕ → List Octet) (m : Sender Tx) : Sender Tx :=
  let m := if hdlc.txBits m.hTx < 8 then loadBits hdlc pick m else m
  let run := hdlc.txRunNocheck m.hTx
  { m with hTx := run.2, written := m.written ++ [run.1] }

/-- `ZAP_BUF_SIZE` -/
def zapBufSize : ℕ := 16

/-- `mtp2_fill_zaptel_buf` -/
def mtp2FillZaptelBuf (pick : ℕ → List Octet) (m : Sender Tx) : Sender Tx :=
  (fillOctet hdlc pick)^[zapBufSize] m

/-! ## Receiving -/

/-- What `mtp2_read_su` does to the link. -/
inductive RxCall
  | countOctet
  | badFrame
  | octetCounting
  | goodFrame (buf : List Octet)
  deriving DecidableEq

/-- The fields of `struct mtp2_state` for the receiver; `rx_len` is the length
of the buffer. `calls` and `results` are history, the results those of
`fasthdlc_rx_run`. -/
structure Receiver (Rx : Type) where
  hRx : Rx
  rxBuf : List Octet
  rxCrc : BitVec 16
  calls : List RxCall
  results : List RxResult

/-- A link that was just set up. -/
def initReceiver (hRx : Rx) : Receiver Rx := ⟨hRx, [], 0xffff, [], []⟩

/-- The octets that `fasthdlc` has room for are loaded; what remains of them is
returned. -/
def loadOctets : List Octet → Receiver Rx → Receiver Rx × List Octet
  | [], m => (m, [])
  | o :: buf, m =>
    if hdlc.rxBits m.hRx ≤ 24 then
      let hRx := hdlc.rxLoadNocheck m.hRx o
      loadOctets buf
        { m with hRx, calls := m.calls ++ if hdlc.rxSearching hRx then [.countOctet] else [] }
    else (m, o :: buf)

/-- A frame ends, or is given up. -/
def newFrame (m : Receiver Rx) (calls : List RxCall) : Receiver Rx :=
  { m with rxBuf := [], rxCrc := 0xffff, calls := m.calls ++ calls }

/-- A result of `fasthdlc_rx_run`. -/
def takeResult (m : Receiver Rx) : RxResult → Receiver Rx
  | .discard => newFrame m [.badFrame, .octetCounting]
  | .empty => m
  | .complete =>
    newFrame m
      (if m.rxBuf.length = 0 then []
      else if m.rxBuf.length < 5 then [.badFrame]
      else if m.rxCrc = 0xf0b8 then [.goodFrame (m.rxBuf.take (m.rxBuf.length - 2))]
      else [.badFrame])
  | .data res =>
    if m.rxBuf.length ≥ 272 + 7 then
      newFrame { m with hRx := hdlc.rxSearch m.hRx } [.badFrame, .octetCounting]
    else { m with rxBuf := m.rxBuf ++ [res], rxCrc := pppFcs m.rxCrc res }

/-- A round of `mtp2_read_su`; with no more data it ends. -/
def readRound (m : Receiver Rx) (buf : List Octet) : Receiver Rx × List Octet × Bool :=
  let load := loadOctets hdlc buf m
  let run := hdlc.rxRun load.1.hRx
  (takeResult hdlc { load.1 with hRx := run.2, results := load.1.results ++ [run.1] } run.1, load.2,
    decide (run.1 = .empty ∧ load.2 = []))

/-- The calls of `mtp2_read_su` for what was read, one after the other, up to
some round. -/
def mtp2ReadSu : ℕ → List Octet → List (List Octet) → Receiver Rx → Receiver Rx
  | 0, _, _, m => m
  | rounds + 1, buf, reads, m =>
    let round := readRound hdlc m buf
    if round.2.2 then
      match reads with
      | [] => round.1
      | next :: reads => mtp2ReadSu rounds next reads round.1
    else mtp2ReadSu rounds round.2.1 reads round.1

/-- The frames that `mtp2_good_frame` was called with. -/
def goodFrames (calls : List RxCall) : List (List Octet) :=
  calls.filterMap fun
    | .goodFrame buf => some buf
    | _ => none

end Mtp2

end Trismedia
