import Trismedia.Lffifo.Queue
/-!
# Two threads

One thread puts and one gets, each call after call, and the atomic actions
of their calls interleave in any order. `Inv` is what holds between any two
actions: the ring holds `content`, the bytes written and not yet emptied;
with the bytes still to be written these are what is left of the frame that
is being emptied and the frames after it. Here the invariant is kept by the
putting thread.
-/


namespace Trismedia

namespace Lffifo

/-- A call of `lffifo_put` and what is left of it. -/
structure Putter where
  data : Frame
  prog : Prog Fifo ℤ

/-- A call of `lffifo_get` and what is left of it; `seen` is the number of
frames that had been accepted when it began. -/
structure Getter where
  bufsize : ℕ
  seen : ℕ
  prog : Prog Fifo GetResult

/-- Both threads. `accepted` are the frames of the puts that have returned 0,
`got` those of the gets that have returned a frame. -/
structure Sys where
  fifo : Fifo
  putter : Option Putter
  getter : Option Getter
  accepted : List Frame
  got : List Frame

inductive Event
  | putStart (data : Frame)
  | put
  | putEnd (ret : ℤ)
  | getStart (bufsize : ℕ)
  | get
  | getEnd (seen bufsize : ℕ) (res : GetResult)

/-- **One action of one thread.** -/
inductive Step : Sys → Event → Sys → Prop
  /-- Frames are passed whose escaped length is at most the size of the fifo. -/
  | putStart {s : Sys} (data : Frame) : s.putter = none → (encFrame data).length ≤ s.fifo.size →
      Step s (.putStart data) { s with putter := some ⟨data, lffifoPut s.fifo.size data⟩ }
  | put {s : Sys} {data : Frame} {p p' : Prog Fifo ℤ} {fifo : Fifo} :
      s.putter = some ⟨data, p⟩ → Prog.Step p s.fifo p' fifo →
      Step s .put { s with fifo := fifo, putter := some ⟨data, p'⟩ }
  | putEnd {s : Sys} {data : Frame} {ret : ℤ} : s.putter = some ⟨data, .ret ret⟩ →
      Step s (.putEnd ret) { s with
        putter := none, accepted := if ret = 0 then s.accepted ++ [data] else s.accepted }
  | getStart {s : Sys} (bufsize : ℕ) : s.getter = none →
      Step s (.getStart bufsize) { s with
        getter := some ⟨bufsize, s.accepted.length, lffifoGet s.fifo.size bufsize⟩ }
  | get {s : Sys} {bufsize seen : ℕ} {p p' : Prog Fifo GetResult} {fifo : Fifo} :
      s.getter = some ⟨bufsize, seen, p⟩ → Prog.Step p s.fifo p' fifo →
      Step s .get { s with fifo := fifo, getter := some ⟨bufsize, seen, p'⟩ }
  | getEnd {s : Sys} {bufsize seen : ℕ} {res : GetResult} :
      s.getter = some ⟨bufsize, seen, .ret res⟩ →
      Step s (.getEnd seen bufsize res) { s with
        getter := none, got := if 0 < res.1 then s.got ++ [res.2] else s.got }

/-! ## Actions -/

section Actions

variable {α : Type*} {i : ℕ} {x : Octet} {s t : Fifo} {p q : Prog Fifo α} {k : Octet → Prog Fifo α}

theorem step_readBuf_iff : Prog.Step (readBuf i k) s p t ↔ p = k (s.buf i) ∧ t = s :=
  Prog.step_read_iff

theorem step_writeBuf_iff : Prog.Step (writeBuf i x q) s p t ↔ p = q ∧ t = s.setBuf i x :=
  Prog.step_write_iff

theorem step_writeStart_iff :
    Prog.Step (writeStart i q) s p t ↔ p = q ∧ t = { s with start := i } :=
  Prog.step_write_iff

theorem step_writeEnd_iff : Prog.Step (writeEnd i q) s p t ↔ p = q ∧ t = { s with end_ := i } :=
  Prog.step_write_iff

end Actions

/-! ## The invariant -/

/-- The second iteration of the put of `data`. -/
def writeFrame (n : ℕ) (data : Frame) : Prog Fifo ℤ :=
  Prog.read Fifo.end_ fun i => writeCells n (encFrame data) i

/-- **Where the putting thread stands**: the cells behind the bytes in the
ring begin at position `e`, `len` is the number of these bytes, and `toWrite`
are the bytes the thread will still write of the frame `writing`. -/
inductive PutterAt (n end_ e len : ℕ) : Option Putter → List Octet → List Frame → Prop
  | idle : end_ = e % n → PutterAt n end_ e len none [] []
  | refused (data : Frame) : end_ = e % n → PutterAt n end_ e len (some ⟨data, .ret 1⟩) [] []
  | start (data : Frame) : end_ = e % n → data ≠ [] → (encFrame data).length ≤ n →
      PutterAt n end_ e len (some ⟨data, putFrame n data⟩) [] []
  /-- `c` cells have been seen empty. -/
  | check (data : Frame) (c m : ℕ) : end_ = e % n → data ≠ [] → (encFrame data).length ≤ n →
      c + m = (encFrame data).length → len + c ≤ n →
      PutterAt n end_ e len (some ⟨data, checkCells n (writeFrame n data) m ((e + c) % n)⟩) [] []
  | write (data : Frame) (done todo : List Octet) : done ++ todo = encFrame data →
      len + todo.length ≤ n →
      PutterAt n end_ e len (some ⟨data, writeCells n todo (e % n)⟩) todo [data]
  | done (data : Frame) : end_ = e % n → PutterAt n end_ e len (some ⟨data, .ret 0⟩) [] [data]

/-- A get that returns nothing although it began with a frame accepted and
not yet got: its buffer is too small. -/
def Missed (accepted : List Frame) (got seen bufsize : ℕ) (v : ℤ) : Prop :=
  got < seen → ∃ f, accepted[got]? = some f ∧ bufsize < f.length ∧ v = (bufsize : ℤ) - ↑f.length

/-- **Where the getting thread stands**: the first byte in the ring is at
position `r` of `len`, `leftover` are the bytes it will still empty of the
frame `taking`, and `pending` are the frames behind. -/
inductive GetterAt (n start r len : ℕ) (pending accepted : List Frame) (got : ℕ) :
    Option Getter → List Octet → List Frame → Prop
  | idle : start = r % n → GetterAt n start r len pending accepted got none [] []
  | failed (bufsize seen : ℕ) (v : ℤ) : start = r % n → v ≤ 0 →
      Missed accepted got seen bufsize v →
      GetterAt n start r len pending accepted got (some ⟨bufsize, seen, .ret (v, [])⟩) [] []
  | start (bufsize seen : ℕ) : start = r % n →
      GetterAt n start r len pending accepted got (some ⟨bufsize, seen, lffifoGet n bufsize⟩) [] []
  /-- The bytes of `done` have been seen. -/
  | scan (bufsize seen : ℕ) (done : Frame) : start = r % n →
      (done = [] ∨ ∃ todo rest, pending = (done ++ todo) :: rest) → (encBytes done).length ≤ len →
      GetterAt n start r len pending accepted got
        (some ⟨bufsize, seen, getScan n bufsize ((r + (encBytes done).length) % n) done.length⟩) [] []
  /-- And then an escape byte. -/
  | scanEscaped (bufsize seen : ℕ) (done todo : Frame) (rest : List Frame) (e : Octet)
      (es : List Octet) : start = r % n → pending = (done ++ todo) :: rest →
      encFrame todo = bytEscape :: e :: es → (encBytes done).length + 1 ≤ len →
      GetterAt n start r len pending accepted got
        (some ⟨bufsize, seen,
          scanEscaped n bufsize ((r + (encBytes done).length + 1) % n) done.length⟩) [] []
  /-- The whole frame has been seen. -/
  | startClear (bufsize seen : ℕ) (f : Frame) (rest : List Frame) : start = r % n →
      pending = f :: rest → (encFrame f).length ≤ len → f.length ≤ bufsize →
      GetterAt n start r len pending accepted got (some ⟨bufsize, seen, startClear n bufsize⟩) [] []
  | clear (bufsize seen : ℕ) (done todo : Frame) : (done ++ todo).length ≤ bufsize →
      (encFrame todo).length ≤ len →
      GetterAt n start r len pending accepted got
        (some ⟨bufsize, seen, getClear n bufsize (r % n) done.length done⟩)
        (encFrame todo) [done ++ todo]
  /-- The first byte has been read. -/
  | clearRead (bufsize seen : ℕ) (done todo : Frame) (x : Octet) (xs : List Octet) :
      (done ++ todo).length ≤ bufsize → encFrame todo = x :: xs → (x :: xs).length ≤ len →
      GetterAt n start r len pending accepted got
        (some ⟨bufsize, seen, writeBuf (r % n) bytEmpty <|
          if x = bytEscape then clearEscaped n bufsize (next n (r % n)) done.length done
          else clearFinish n bufsize done.length done (some x) (next n (r % n))⟩)
        (x :: xs) [done ++ todo]
  /-- The escape byte is gone. -/
  | clearEscaped (bufsize seen : ℕ) (done todo : Frame) (e : Octet) (es : List Octet) :
      (done ++ todo).length ≤ bufsize → encFrame todo = bytEscape :: e :: es →
      (e :: es).length ≤ len →
      GetterAt n start r len pending accepted got
        (some ⟨bufsize, seen, clearEscaped n bufsize (r % n) done.length done⟩)
        (e :: es) [done ++ todo]
  /-- And the byte behind it has been read. -/
  | clearEscapedRead (bufsize seen : ℕ) (done todo : Frame) (e : Octet) (es : List Octet) :
      (done ++ todo).length ≤ bufsize → encFrame todo = bytEscape :: e :: es →
      (e :: es).length ≤ len →
      GetterAt n start r len pending accepted got
        (some ⟨bufsize, seen, writeBuf (r % n) bytEmpty <|
          clearFinish n bufsize done.length done (unescape e) (next n (r % n))⟩)
        (e :: es) [done ++ todo]
  | finish (bufsize seen : ℕ) (f : Frame) : f.length ≤ bufsize →
      GetterAt n start r len pending accepted got
        (some ⟨bufsize, seen, writeStart (r % n) (.ret ((f.length : ℤ), f))⟩) [] [f]
  | done (bufsize seen : ℕ) (f : Frame) : start = r % n → f.length ≤ bufsize →
      GetterAt n start r len pending accepted got
        (some ⟨bufsize, seen, .ret ((f.length : ℤ), f)⟩) [] [f]

/-- What the threads know together. -/
structure Ghost where
  r : ℕ
  content : List Octet
  toWrite : List Octet
  leftover : List Octet
  pending : List Frame
  writing : List Frame
  taking : List Frame

/-- **What holds between any two actions.** -/
structure Inv (n : ℕ) (s : Sys) (g : Ghost) : Prop where
  size : s.fifo.size = n
  pos : 0 < n
  ring : RingBuf n bytEmpty s.fifo.buf g.r g.content
  solid : ∀ b ∈ g.content, b ≠ bytEmpty
  bytes : g.content ++ g.toWrite = g.leftover ++ bytesOf g.pending
  frames : s.got ++ (g.taking ++ g.pending) = s.accepted ++ g.writing
  small : ∀ f ∈ g.taking ++ g.pending, f ≠ [] ∧ (encFrame f).length ≤ n
  putter : PutterAt n s.fifo.end_ (g.r + g.content.length) g.content.length s.putter g.toWrite
    g.writing
  getter : GetterAt n s.fifo.start g.r g.content.length g.pending s.accepted s.got.length s.getter
    g.leftover g.taking
  seen : ∀ t, s.getter = some t → t.seen ≤ s.accepted.length

section Mono

variable {n end_ start e r len len' got : ℕ} {pending accepted : List Frame}
variable {o : Option Putter} {q : Option Getter} {toWrite leftover : List Octet}
variable {writing taking : List Frame}

/-- The getting thread only makes room. -/
theorem PutterAt.mono (h : PutterAt n end_ e len o toWrite writing) (hle : len' ≤ len) :
    PutterAt n end_ e len' o toWrite writing := by
  cases h with
  | idle hend => exact .idle hend
  | refused data hend => exact .refused data hend
  | start data hend hne hlen => exact .start data hend hne hlen
  | check data c m hend hne hlen hcm hc => exact .check data c m hend hne hlen hcm (by omega)
  | write data done todo heq hlen => exact .write data done _ heq (by omega)
  | done data hend => exact .done data hend

theorem PutterAt.toWrite_le (h : PutterAt n end_ e len o toWrite writing) :
    toWrite.length ≤ (bytesOf writing).length := by
  cases h with
  | write data done todo heq hlen =>
    rw [bytesOf_singleton, ← heq, List.length_append]
    omega
  | _ => exact Nat.zero_le _

theorem Missed.mono {seen bufsize : ℕ} {v : ℤ} (h : Missed accepted got seen bufsize v)
    (more : List Frame) : Missed (accepted ++ more) got seen bufsize v := by
  intro hlt
  obtain ⟨f, hf, hb⟩ := h hlt
  have hidx : got < accepted.length := (List.getElem?_eq_some_iff.1 hf).1
  exact ⟨f, by rwa [List.getElem?_append_left hidx], hb⟩

/-- The putting thread only adds bytes and frames. -/
theorem GetterAt.mono (h : GetterAt n start r len pending accepted got q leftover taking)
    (hle : len ≤ len') (more more' : List Frame) :
    GetterAt n start r len' (pending ++ more) (accepted ++ more') got q leftover taking := by
  cases h with
  | idle hs => exact .idle hs
  | failed b seen v hs hv hm => exact .failed b seen v hs hv (hm.mono more')
  | start b seen hs => exact .start b seen hs
  | scan b seen done hs hp hlen =>
    refine .scan b seen done hs ?_ (by omega)
    rcases hp with hp | ⟨todo, rest, hp⟩
    · exact .inl hp
    · exact .inr ⟨todo, rest ++ more, by rw [hp, List.cons_append]⟩
  | scanEscaped b seen done todo rest e es hs hp he hlen =>
    exact .scanEscaped b seen done todo (rest ++ more) e es hs (by rw [hp, List.cons_append]) he
      (by omega)
  | startClear b seen f rest hs hp hlen hb =>
    exact .startClear b seen f (rest ++ more) hs (by rw [hp, List.cons_append]) (by omega) hb
  | clear b seen done todo hb hlen => exact .clear b seen done todo hb (by omega)
  | clearRead b seen done todo x xs hb he hlen =>
    exact .clearRead b seen done todo x xs hb he (by omega)
  | clearEscaped b seen done todo e es hb he hlen =>
    exact .clearEscaped b seen done todo e es hb he (by omega)
  | clearEscapedRead b seen done todo e es hb he hlen =>
    exact .clearEscapedRead b seen done todo e es hb he (by omega)
  | finish b seen f hb => exact .finish b seen f hb
  | done b seen f hs hb => exact .done b seen f hs hb

end Mono

/-! ## The putting thread -/

variable {n : ℕ} {s : Sys} {g : Ghost}

/-- **An empty cell behind the cells seen empty is free.** -/
theorem Inv.cell_free (h : Inv n s g) {c : ℕ} (hc : g.content.length + c ≤ n) (hcn : c < n)
    (hcell : s.fifo.buf ((g.r + g.content.length + c) % n) = bytEmpty) :
    g.content.length + (c + 1) ≤ n := by
  by_contra hgt
  have hfull : g.content.length + c = n := by omega
  obtain ⟨b, l, hb⟩ : ∃ b l, g.content = b :: l := by
    refine List.exists_cons_of_ne_nil fun hnil => ?_
    rw [hnil, List.length_nil] at hfull
    omega
  have hring := h.ring
  rw [Nat.add_assoc, hfull, Nat.add_mod_right] at hcell
  rw [hb] at hring
  rw [hring.head] at hcell
  exact h.solid b (by rw [hb]; exact List.mem_cons_self) hcell

/-- **One action of a put.** -/
theorem Inv.put (h : Inv n s g) {data : Frame} {p p' : Prog Fifo ℤ} {fifo : Fifo}
    (hp : s.putter = some ⟨data, p⟩) (hstep : Prog.Step p s.fifo p' fifo) :
    ∃ g', Inv n { s with fifo := fifo, putter := some ⟨data, p'⟩ } g' := by
  have hput := h.putter
  rw [hp] at hput
  generalize htw : g.toWrite = toWrite at hput
  generalize hwr : g.writing = writing at hput
  cases hput with
  | refused => exact absurd hstep Prog.not_step_ret
  | done => exact absurd hstep Prog.not_step_ret
  | start _ hend hne hlen =>
    obtain ⟨rfl, rfl⟩ := Prog.step_read_iff.1 hstep
    refine ⟨g, { h with putter := ?_ }⟩
    rw [htw, hwr]
    have hat := PutterAt.check data 0 _ hend hne hlen (Nat.zero_add _) h.ring.le
    rw [Nat.add_zero, ← hend] at hat
    exact hat
  | check _ c m hend hne hlen hcm hc =>
    cases m with
    | zero =>
      obtain ⟨rfl, rfl⟩ := Prog.step_read_iff.1 hstep
      have hbytes := h.bytes
      have hframes := h.frames
      rw [htw, List.append_nil] at hbytes
      rw [hwr, List.append_nil] at hframes
      refine ⟨{ g with
        toWrite := encFrame data, writing := [data], pending := g.pending ++ [data] }, ?_⟩
      refine { h with bytes := ?_, frames := ?_, small := ?_, putter := ?_, getter := ?_ }
      · rw [hbytes, bytesOf_append, bytesOf_singleton, List.append_assoc]
      · rw [← hframes]
        simp only [List.append_assoc]
      · intro f hf
        rw [← List.append_assoc] at hf
        rcases List.mem_append.1 hf with hf | hf
        · exact h.small f hf
        · obtain rfl := List.mem_singleton.1 hf
          exact ⟨hne, hlen⟩
      · have hle : g.content.length + (encFrame data).length ≤ n := by omega
        rw [hend]
        exact .write data [] _ rfl hle
      · have hget := h.getter.mono (Nat.le_refl _) [data] []
        rwa [List.append_nil] at hget
    | succ m =>
      obtain ⟨rfl, rfl⟩ := step_readBuf_iff.1 hstep
      refine ⟨g, { h with putter := ?_ }⟩
      rw [htw, hwr]
      by_cases hcell : s.fifo.buf ((g.r + g.content.length + c) % n) = bytEmpty
      · have hfree := h.cell_free hc (by omega) hcell
        dsimp only
        rw [hcell, if_neg (by simp), next_mod h.pos, Nat.add_assoc]
        exact .check data (c + 1) m hend hne hlen (by omega) hfree
      · dsimp only
        rw [if_pos hcell]
        exact .refused data hend
  | write _ done _ heq hlen =>
    cases toWrite with
    | nil =>
      obtain ⟨rfl, rfl⟩ := step_writeEnd_iff.1 hstep
      refine ⟨g, { h with putter := ?_ }⟩
      rw [htw, hwr]
      exact .done data rfl
    | cons b todo =>
      obtain ⟨rfl, rfl⟩ := step_writeBuf_iff.1 hstep
      rw [List.length_cons] at hlen
      have hlen' : (g.content ++ [b]).length = g.content.length + 1 := by
        rw [List.length_append, List.length_singleton]
      have hbytes := h.bytes
      rw [htw] at hbytes
      refine ⟨{ g with content := g.content ++ [b], toWrite := todo }, ?_⟩
      refine { h with ring := ?_, solid := ?_, bytes := ?_, putter := ?_, getter := ?_ }
      · exact h.ring.push (by omega) b
      · intro x hx
        rcases List.mem_append.1 hx with hx | hx
        · exact h.solid x hx
        · obtain rfl := List.mem_singleton.1 hx
          have hmem : x ∈ encFrame data := by
            rw [← heq]
            exact List.mem_append_right _ List.mem_cons_self
          exact ne_empty_of_mem_encFrame hmem
      · rw [List.append_assoc]
        exact hbytes
      · rw [hwr, hlen', next_mod h.pos]
        refine .write data (done ++ [b]) todo ?_ (by omega)
        rw [List.append_assoc]
        exact heq
      · have hget := h.getter.mono (Nat.le_succ _) [] []
        rw [List.append_nil, List.append_nil] at hget
        rw [hlen']
        exact hget

end Lffifo

end Trismedia
