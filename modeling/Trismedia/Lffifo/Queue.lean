import Trismedia.Common.Trace
import Trismedia.Lffifo.Model
/-!
# A bounded queue of frames

The fifo under calls that come one after the other: its ring holds the
bytes of the frames that were put and not yet taken (`Holds`). A put whose
frame fits adds it, a get takes the oldest. A frame longer than the whole
fifo is refused beside others, but not by the empty fifo, where the first
iteration comes round to the cells it has seen (`run_put_empty`).
-/


namespace Trismedia

namespace Lffifo

variable {n r : ℕ} {s : Fifo} {content bytes : List Octet}

/-! ## The two iterations of a put -/

theorem run_checkCells_free {k : Prog Fifo ℤ} (hn : 0 < n)
    (h : RingBuf n bytEmpty s.buf r content) {m c : ℕ} (hm : content.length + c + m ≤ n) :
    (checkCells n k m ((r + (content.length + c)) % n)).run s = k.run s := by
  induction m generalizing c with
  | zero => rfl
  | succ m ih =>
    have hlt : content.length + c < n := by omega
    have hcell := h.free (Nat.le_add_right content.length c) hlt
    rw [checkCells, run_readBuf, hcell, if_neg (by simp), next_mod hn]
    exact @ih (c + 1) (by omega)

/-- **A frame that does not fit** ends at the first byte of the oldest. -/
theorem run_checkCells_full {k : Prog Fifo ℤ} (hn : 0 < n)
    (h : RingBuf n bytEmpty s.buf r content) (hne : content ≠ [])
    (hbytes : ∀ b ∈ content, b ≠ bytEmpty) {m c : ℕ} (hc : content.length + c ≤ n)
    (hm : n < content.length + c + m) :
    (checkCells n k m ((r + (content.length + c)) % n)).run s = (1, s) := by
  induction m generalizing c with
  | zero => omega
  | succ m ih =>
    by_cases hlt : content.length + c < n
    · have hcell := h.free (Nat.le_add_right content.length c) hlt
      rw [checkCells, run_readBuf, hcell, if_neg (by simp), next_mod hn]
      exact @ih (c + 1) (by omega) (by omega)
    · obtain ⟨b, l, rfl⟩ : ∃ b l, content = b :: l := List.exists_cons_of_ne_nil hne
      have hfirst : (r + ((b :: l).length + c)) % n = r % n := by
        have hlen : (b :: l).length + c = n := by omega
        rw [hlen, Nat.add_mod_right]
      rw [checkCells, run_readBuf, hfirst, h.head,
        if_pos (hbytes b List.mem_cons_self), Prog.run_ret]

/-- In the empty fifo any number of cells is free. -/
theorem run_checkCells_empty {k : Prog Fifo ℤ} (hn : 0 < n) (h : ∀ i < n, s.buf i = bytEmpty)
    {m i : ℕ} : (checkCells n k m (i % n)).run s = k.run s := by
  induction m generalizing i with
  | zero => rfl
  | succ m ih =>
    rw [checkCells, run_readBuf, h _ (Nat.mod_lt _ hn), if_neg (by simp), next_mod hn]
    exact ih

theorem run_writeCells (hn : 0 < n) (h : RingBuf n bytEmpty s.buf r content)
    (hlen : content.length + bytes.length ≤ n) :
    ∃ buf, RingBuf n bytEmpty buf r (content ++ bytes) ∧
      (writeCells n bytes ((r + content.length) % n)).run s =
        (0, { s with buf := buf, end_ := (r + (content ++ bytes).length) % n }) := by
  induction bytes generalizing s content with
  | nil =>
    rw [List.append_nil]
    exact ⟨s.buf, h, rfl⟩
  | cons b bytes ih =>
    rw [List.length_cons] at hlen
    have hpush := h.push (by omega) b
    obtain ⟨buf, hbuf, hrun⟩ := @ih (s.setBuf _ b) (content ++ [b]) hpush (by
      rw [List.length_append, List.length_singleton]
      omega)
    rw [List.append_assoc, List.singleton_append] at hbuf hrun
    rw [List.length_append, List.length_singleton] at hrun
    refine ⟨buf, hbuf, ?_⟩
    rw [writeCells, run_writeBuf, next_mod hn]
    exact hrun

theorem run_writeCells_ret (bytes : List Octet) (i : ℕ) (s : Fifo) :
    ((writeCells n bytes i).run s).1 = 0 := by
  induction bytes generalizing i s with
  | nil => rfl
  | cons b bytes ih => exact ih (next n i) _

/-! ## The two iterations of a get -/

/-- **The first iteration** over a frame with `c` bytes before it. -/
theorem run_getScan (hn : 0 < n) (h : RingBuf n bytEmpty s.buf r content) {todo : Frame}
    {rest : List Octet} {c j bufsize : ℕ} (hc : content.drop c = encFrame todo ++ rest)
    (hj : j + todo.length ≤ n) :
    (getScan n bufsize ((r + c) % n) j).run s =
      if j + todo.length > bufsize then (((bufsize : ℤ) - ↑(j + todo.length), []), s)
      else (startClear n bufsize).run s := by
  induction todo generalizing c j with
  | nil =>
    rw [encFrame_nil] at hc
    have hesc := h.get_drop hc
    have hc1 : content.drop (c + 1) = bytEscapedFrameEnd :: rest := by
      rw [← List.drop_drop, hc]
      rfl
    have hend := h.get_drop hc1
    rw [getScan_eq, run_readBuf, hesc, if_neg (by decide), if_pos rfl, next_mod hn,
      scanEscaped, run_readBuf, Nat.add_assoc, hend, if_neg (by decide),
      unescape_frameEnd, scanFinish, List.length_nil, Nat.add_zero]
    by_cases hb : j > bufsize
    · rw [if_pos hb, if_pos hb, Prog.run_ret]
    · rw [if_neg hb, if_neg hb]
  | cons x todo ih =>
    rw [List.length_cons] at hj ⊢
    have hlen : j + (todo.length + 1) = j + 1 + todo.length := by omega
    rw [encFrame_cons, List.append_assoc] at hc
    rw [getScan_eq, run_readBuf, hlen]
    rcases encSym_cases x with ⟨hempty, hescape, henc⟩ | ⟨e, henc, hne, hun⟩
    · rw [henc] at hc
      have hx := h.get_drop hc
      have hc1 : content.drop (c + 1) = encFrame todo ++ rest := by
        rw [← List.drop_drop, hc]
        rfl
      rw [hx, if_neg hempty, if_neg hescape, next_mod hn, scanFinish_some (by omega),
        Nat.add_assoc]
      exact ih hc1 (by omega)
    · rw [henc] at hc
      have hesc := h.get_drop hc
      have hc1 : content.drop (c + 1) = e :: (encFrame todo ++ rest) := by
        rw [← List.drop_drop, hc]
        rfl
      have he := h.get_drop hc1
      have hc2 : content.drop (c + 1 + 1) = encFrame todo ++ rest := by
        rw [← List.drop_drop, hc1]
        rfl
      rw [hesc, if_neg (by decide), if_pos rfl, next_mod hn, scanEscaped, run_readBuf,
        Nat.add_assoc, he, if_neg hne, hun, next_mod hn, scanFinish_some (by omega),
        Nat.add_assoc]
      exact ih hc2 (by omega)

/-- **The second iteration** empties the cells of the frame. -/
theorem run_getClear (hn : 0 < n) {todo : Frame} {rest : List Octet}
    (h : RingBuf n bytEmpty s.buf r (encFrame todo ++ rest)) {j bufsize : ℕ} {out : List Octet}
    (hj : j + todo.length ≤ n) (hb : j + todo.length ≤ bufsize) :
    ∃ buf, RingBuf n bytEmpty buf (r + (encFrame todo).length) rest ∧
      (getClear n bufsize (r % n) j out).run s =
        ((↑(j + todo.length), out ++ todo),
          { s with buf := buf, start := (r + (encFrame todo).length) % n }) := by
  induction todo generalizing s r j out with
  | nil =>
    rw [encFrame_nil] at h ⊢
    rw [List.length_nil, Nat.add_zero] at hb ⊢
    have hpop := h.pop
    refine ⟨_, hpop.pop, ?_⟩
    rw [getClear_eq, run_readBuf, run_writeBuf, h.head, if_pos rfl,
      next_mod hn, clearEscaped, run_readBuf, run_writeBuf, Fifo.setBuf_buf, hpop.head,
      unescape_frameEnd, clearFinish_none hb, next_mod hn, run_writeStart, Prog.run_ret,
      List.append_nil]
    rfl
  | cons x todo ih =>
    rw [List.length_cons] at hj hb
    have hlen : j + (x :: todo).length = j + 1 + todo.length := by
      rw [List.length_cons]
      omega
    have hout : out ++ x :: todo = (out ++ [x]) ++ todo := by
      rw [List.append_assoc, List.singleton_append]
    rw [encFrame_cons, List.append_assoc] at h
    rw [encFrame_cons, hlen, hout]
    rcases encSym_cases x with ⟨-, hescape, henc⟩ | ⟨e, henc, -, hun⟩
    · rw [henc] at h ⊢
      have hpop := h.pop
      have hr : r + ([x] ++ encFrame todo).length = r + 1 + (encFrame todo).length := by
        rw [List.length_append, List.length_singleton]
        omega
      obtain ⟨buf, hbuf, hrun⟩ :=
        @ih (r + 1) (s.setBuf _ bytEmpty) hpop (j + 1) (out ++ [x]) (by omega) (by omega)
      rw [hr]
      refine ⟨buf, hbuf, ?_⟩
      rw [getClear_eq, run_readBuf, run_writeBuf]
      rw [List.singleton_append] at h
      rw [h.head, if_neg hescape, next_mod hn, clearFinish_some (by omega) (by omega)]
      exact hrun
    · rw [henc] at h ⊢
      have hpop := h.pop
      have hpop2 := hpop.pop
      have hr : r + ([bytEscape, e] ++ encFrame todo).length =
          r + 1 + 1 + (encFrame todo).length := by
        rw [List.length_append, List.length_cons, List.length_singleton]
        omega
      obtain ⟨buf, hbuf, hrun⟩ :=
        @ih (r + 1 + 1) ((s.setBuf _ bytEmpty).setBuf _ bytEmpty) hpop2 (j + 1) (out ++ [x]) (by omega) (by omega)
      rw [hr]
      refine ⟨buf, hbuf, ?_⟩
      have hhead := RingBuf.head h
      have hhead2 := RingBuf.head hpop
      rw [getClear_eq, run_readBuf, run_writeBuf, hhead, if_pos rfl,
        next_mod hn, clearEscaped, run_readBuf, run_writeBuf, Fifo.setBuf_buf, hhead2, hun,
        next_mod hn, clearFinish_some (by omega) (by omega)]
      exact hrun

/-! ## The frames held -/

/-- The bytes of the frames, oldest first. -/
def bytesOf (held : List Frame) : List Octet := held.flatMap encFrame

theorem bytesOf_cons (f : Frame) (held : List Frame) :
    bytesOf (f :: held) = encFrame f ++ bytesOf held := rfl

theorem bytesOf_append (held held' : List Frame) :
    bytesOf (held ++ held') = bytesOf held ++ bytesOf held' :=
  List.flatMap_append

theorem bytesOf_singleton (f : Frame) : bytesOf [f] = encFrame f := List.flatMap_singleton ..

theorem ne_empty_of_mem_bytesOf {held : List Frame} {b : Octet} (h : b ∈ bytesOf held) :
    b ≠ bytEmpty := by
  obtain ⟨f, -, hb⟩ := List.mem_flatMap.1 h
  exact ne_empty_of_mem_encFrame hb

theorem bytesOf_ne_nil {held : List Frame} (h : held ≠ []) : bytesOf held ≠ [] := by
  obtain ⟨f, fs, rfl⟩ := List.exists_cons_of_ne_nil h
  intro hnil
  have hlen := congrArg List.length hnil
  rw [bytesOf_cons, List.length_append, length_encFrame, List.length_nil] at hlen
  omega

/-- The fifo holds the frames `held`, its first byte at position `r`. -/
structure HoldsAt (s : Fifo) (held : List Frame) (r : ℕ) : Prop where
  size_pos : 0 < s.size
  ring : RingBuf s.size bytEmpty s.buf r (bytesOf held)
  start : s.start = r % s.size
  end_ : s.end_ = (r + (bytesOf held).length) % s.size
  ne_nil : ∀ f ∈ held, f ≠ []

def Holds (s : Fifo) (held : List Frame) : Prop := ∃ r, HoldsAt s held r

/-- The frame and its end marker fit in the free space. -/
def Fits (s : Fifo) (held : List Frame) (data : Frame) : Prop :=
  (bytesOf held).length + (encFrame data).length ≤ s.size

instance (s : Fifo) (held : List Frame) (data : Frame) : Decidable (Fits s held data) :=
  inferInstanceAs (Decidable (_ ≤ _))

theorem lffifoAlloc_holds {size : ℤ} (h : lffifoAlloc size = some s) : Holds s [] := by
  unfold lffifoAlloc at h
  by_cases hsize : size ≤ 0 ∨ size > 1000000000
  · rw [if_pos hsize] at h
    cases h
  · rw [if_neg hsize] at h
    obtain rfl := Option.some.inj h
    have hpos : 0 < size.toNat := by omega
    have hzero : (0 : ℕ) = 0 % size.toNat := (Nat.zero_mod _).symm
    exact ⟨0, hpos, RingBuf.nil (fun _ _ => rfl) 0, hzero, hzero, fun f hf => absurd hf List.not_mem_nil⟩

/-- The sanity check of a put lets the frame through. -/
def Sane (data : Frame) : Prop := ¬ (data.length = 0 ∨ data.length > 0x10000000)

section Put

variable {held : List Frame} {data : Frame}

theorem run_putFrame (size : ℕ) (data : Frame) (s : Fifo) :
    (putFrame size data).run s =
      (checkCells size (Prog.read Fifo.end_ fun i => writeCells size (encFrame data) i)
        (encFrame data).length s.end_).run s := rfl

theorem run_put_insane (h : ¬ Sane data) (s : Fifo) : (lffifoPut n data).run s = (1, s) := by
  have hcheck : data.length = 0 ∨ data.length > 0x10000000 := not_not.1 h
  rw [lffifoPut_eq, if_pos hcheck, Prog.run_ret]

/-- **A frame that fits is put behind the others.** -/
theorem run_put_fits (h : Holds s held) (hsane : Sane data) (hfits : Fits s held data) :
    ∃ t, (lffifoPut s.size data).run s = (0, t) ∧ t.size = s.size ∧ Holds t (held ++ [data]) := by
  obtain ⟨r, h⟩ := h
  have hlen : (bytesOf held).length + 0 + (encFrame data).length ≤ s.size := hfits
  obtain ⟨buf, hbuf, hwrite⟩ := run_writeCells h.size_pos h.ring hfits
  rw [← bytesOf_singleton, ← bytesOf_append] at hbuf hwrite
  have hcheck := @run_checkCells_free _ _ _ _
    (Prog.read Fifo.end_ fun i => writeCells s.size (encFrame data) i) h.size_pos h.ring _ _ hlen
  rw [Nat.add_zero] at hcheck
  refine ⟨{ s with buf := buf, end_ := (r + (bytesOf (held ++ [data])).length) % s.size },
    ?_, rfl, r, h.size_pos, hbuf, h.start, rfl, ?_⟩
  · rw [lffifoPut_eq, if_neg hsane, run_putFrame, h.end_, hcheck, Prog.run_read, h.end_]
    rw [bytesOf_singleton] at hwrite
    exact hwrite
  · intro f hf
    rcases List.mem_append.1 hf with hf | hf
    · exact h.ne_nil f hf
    · obtain rfl := List.mem_singleton.1 hf
      rintro rfl
      exact hsane (.inl rfl)

/-- **A frame that does not fit beside others** is refused. -/
theorem run_put_full (h : Holds s held) (hne : held ≠ []) (hfits : ¬ Fits s held data) :
    (lffifoPut s.size data).run s = (1, s) := by
  by_cases hsane : Sane data
  · obtain ⟨r, h⟩ := h
    have hlt : s.size < (bytesOf held).length + 0 + (encFrame data).length := not_le.1 hfits
    have hcheck := @run_checkCells_full _ _ _ _
      (Prog.read Fifo.end_ fun i => writeCells s.size (encFrame data) i) h.size_pos h.ring
      (bytesOf_ne_nil hne) (fun b hb => ne_empty_of_mem_bytesOf hb) _ _ h.ring.le hlt
    rw [Nat.add_zero] at hcheck
    rw [lffifoPut_eq, if_neg hsane, run_putFrame, h.end_, hcheck]
  · exact run_put_insane hsane s

/-- **Into the empty fifo goes a frame of any length.** -/
theorem run_put_empty (h : Holds s []) (hsane : Sane data) :
    ((lffifoPut s.size data).run s).1 = 0 := by
  obtain ⟨r, h⟩ := h
  have hcells : ∀ i < s.size, s.buf i = bytEmpty := by
    intro i hi
    -- the cell is the one `k` behind the start
    have hr := Nat.mod_lt r h.size_pos
    have hcell := fun k => h.ring.cell k
    by_cases hge : r % s.size ≤ i
    · have hk := hcell (i - r % s.size) (by omega)
      rw [Nat.add_mod, Nat.mod_eq_of_lt (show i - r % s.size < s.size by omega),
        show r % s.size + (i - r % s.size) = i by omega, Nat.mod_eq_of_lt hi] at hk
      exact hk
    · have hk := hcell (s.size + i - r % s.size) (by omega)
      rw [Nat.add_mod, Nat.mod_eq_of_lt (show s.size + i - r % s.size < s.size by omega),
        show r % s.size + (s.size + i - r % s.size) = i + s.size by omega, Nat.add_mod_right,
        Nat.mod_eq_of_lt hi] at hk
      exact hk
  rw [lffifoPut_eq, if_neg hsane, run_putFrame, h.end_, run_checkCells_empty h.size_pos hcells,
    Prog.run_read]
  exact run_writeCells_ret _ _ _

end Put

section Get

variable {held : List Frame} {f : Frame} {bufsize : ℕ}

theorem run_lffifoGet (size bufsize : ℕ) (s : Fifo) :
    (lffifoGet size bufsize).run s = (getScan size bufsize s.start 0).run s := rfl

theorem run_get_empty (h : Holds s []) : (lffifoGet s.size bufsize).run s = ((0, []), s) := by
  obtain ⟨r, h⟩ := h
  have hcell : s.buf ((r + 0) % s.size) = bytEmpty := h.ring.cell 0 h.size_pos
  rw [Nat.add_zero] at hcell
  rw [run_lffifoGet, h.start, getScan_eq, run_readBuf, hcell, if_pos rfl, Prog.run_ret]

theorem HoldsAt.length_le {r : ℕ} (h : HoldsAt s (f :: held) r) : f.length ≤ s.size := by
  have hle := h.ring.le
  have henc := length_le_encBytes f
  rw [bytesOf_cons, List.length_append, length_encFrame] at hle
  omega

theorem run_get_scan {r : ℕ} (h : HoldsAt s (f :: held) r) :
    (lffifoGet s.size bufsize).run s =
      if f.length > bufsize then (((bufsize : ℤ) - ↑f.length, []), s)
      else (startClear s.size bufsize).run s := by
  have hdrop : (bytesOf (f :: held)).drop 0 = encFrame f ++ bytesOf held := rfl
  have hlen : 0 + f.length ≤ s.size := by
    rw [Nat.zero_add]
    exact h.length_le
  have hscan := @run_getScan _ _ _ _ h.size_pos h.ring _ _ 0 0 bufsize hdrop hlen
  rw [Nat.add_zero, Nat.zero_add] at hscan
  rw [run_lffifoGet, h.start, hscan]

theorem run_get_small (h : Holds s (f :: held)) (hb : bufsize < f.length) :
    (lffifoGet s.size bufsize).run s = (((bufsize : ℤ) - ↑f.length, []), s) := by
  obtain ⟨r, h⟩ := h
  rw [run_get_scan h, if_pos hb]

/-- **The oldest frame is taken**, byte for byte. -/
theorem run_get_frame (h : Holds s (f :: held)) (hb : f.length ≤ bufsize) :
    ∃ t, (lffifoGet s.size bufsize).run s = ((↑f.length, f), t) ∧ t.size = s.size ∧ Holds t held := by
  obtain ⟨r, h⟩ := h
  have hring := h.ring
  rw [bytesOf_cons] at hring
  have hlen : 0 + f.length ≤ s.size := by
    rw [Nat.zero_add]
    exact h.length_le
  obtain ⟨buf, hbuf, hrun⟩ := @run_getClear _ _ _ h.size_pos f _ hring 0 bufsize [] hlen (by omega)
  rw [Nat.zero_add, List.nil_append] at hrun
  refine ⟨{ s with buf := buf, start := (r + (encFrame f).length) % s.size },
    ?_, rfl, r + (encFrame f).length, h.size_pos, hbuf, rfl, ?_, ?_⟩
  · rw [run_get_scan h, if_neg (by omega), startClear, Prog.run_read, h.start]
    exact hrun
  · have hend := h.end_
    rw [bytesOf_cons, List.length_append, ← Nat.add_assoc] at hend
    exact hend
  · exact fun g hg => h.ne_nil g (List.mem_cons_of_mem _ hg)

end Get

end Lffifo

end Trismedia
