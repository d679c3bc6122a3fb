import Trismedia.Lffifo.Threads
/-!
# What the getting thread gets

The invariant of `Lffifo.Threads` is kept by the getting thread and by every
action of the system, and what a run of the two threads shows follows: the
frames got are the frames accepted, in order, each once (`lffifo_threads`).
-/


namespace Trismedia

namespace Lffifo

variable {n : ℕ} {s : Sys} {g : Ghost}

/-! ## What a cell tells -/

/-- A byte that is there is the one of the frames. -/
theorem Inv.byte (h : Inv n s g) {k : ℕ} {b : Octet} {l : List Octet} (hk : k < g.content.length)
    (hd : (g.leftover ++ bytesOf g.pending).drop k = b :: l) :
    s.fifo.buf ((g.r + k) % n) = b := by
  rw [← h.bytes, List.drop_append_of_le_length (by omega), List.drop_eq_getElem_cons hk,
    List.cons_append] at hd
  rw [h.ring.get hk]
  exact (List.cons.inj hd).1

theorem Inv.lt_of_solid (h : Inv n s g) {k : ℕ} (hk : k ≤ g.content.length) (hkn : k < n)
    (hcell : s.fifo.buf ((g.r + k) % n) ≠ bytEmpty) : k < g.content.length := by
  by_contra hge
  exact hcell (h.ring.free (by omega) hkn)

/-- **An empty cell inside the oldest frame** shows that this frame has not
been accepted. -/
theorem Inv.accepted_le (h : Inv n s g) (hleft : g.leftover = []) (htaking : g.taking = []) {k : ℕ}
    (hcell : s.fifo.buf ((g.r + k) % n) = bytEmpty)
    (hk : ∀ f rest, g.pending = f :: rest → k < (encFrame f).length) :
    s.accepted.length ≤ s.got.length := by
  by_contra hlt
  have hframes := h.frames
  have hbytes := h.bytes
  rw [htaking, List.nil_append] at hframes
  rw [hleft, List.nil_append] at hbytes
  have hpending : g.pending = s.accepted.drop s.got.length ++ g.writing := by
    have hdrop := congrArg (List.drop s.got.length) hframes
    rwa [List.drop_left, List.drop_append_of_le_length (by omega)] at hdrop
  obtain ⟨f, fs, hf⟩ : ∃ f fs, s.accepted.drop s.got.length = f :: fs := by
    refine List.exists_cons_of_ne_nil fun hnil => ?_
    have hlen := congrArg List.length hnil
    rw [List.length_drop, List.length_nil] at hlen
    omega
  have hkf := hk f (fs ++ g.writing) (by rw [hpending, hf, List.cons_append])
  have hwrite := h.putter.toWrite_le
  have hlen := congrArg List.length hbytes
  rw [hpending, hf, bytesOf_append, bytesOf_cons, List.length_append, List.length_append,
    List.length_append] at hlen
  have hlt' : k < g.content.length := by omega
  have hget := h.ring.get hlt'
  rw [hcell] at hget
  exact h.solid _ (List.getElem_mem hlt') hget.symm

/-- The oldest frame pending is the next one accepted. -/
theorem Inv.accepted_get (h : Inv n s g) (htaking : g.taking = []) {f : Frame} {rest : List Frame}
    (hp : g.pending = f :: rest) (hlt : s.got.length < s.accepted.length) :
    s.accepted[s.got.length]? = some f := by
  have hframes := h.frames
  rw [htaking, List.nil_append, hp] at hframes
  have hget := congrArg (fun l => l[s.got.length]?) hframes
  simp only [List.getElem?_append_left hlt,
    List.getElem?_append_right (Nat.le_refl _), Nat.sub_self, List.getElem?_cons_zero] at hget
  exact hget.symm

/-! ## Symbols -/

/-- A frame's bytes begin with a byte that stands for itself, or with an
escape of its first byte or of its end. -/
theorem encFrame_cases (todo : Frame) :
    (todo = [] ∧ encFrame todo = [bytEscape, bytEscapedFrameEnd]) ∨
    (∃ y ys, todo = y :: ys ∧ y ≠ bytEmpty ∧ y ≠ bytEscape ∧ encFrame todo = y :: encFrame ys ∧
      encSym (some y) = [y]) ∨
    (∃ y ys e, todo = y :: ys ∧ e ≠ bytEmpty ∧ unescape e = some y ∧
      encFrame todo = bytEscape :: e :: encFrame ys ∧ encSym (some y) = [bytEscape, e]) := by
  cases todo with
  | nil => exact .inl ⟨rfl, rfl⟩
  | cons y ys =>
    rcases encSym_cases y with ⟨hempty, hescape, henc⟩ | ⟨e, henc, hne, hun⟩
    · exact .inr (.inl ⟨y, ys, rfl, hempty, hescape, by rw [encFrame_cons, henc]; rfl, henc⟩)
    · exact .inr (.inr ⟨y, ys, e, rfl, hne, hun, by rw [encFrame_cons, henc]; rfl, henc⟩)

theorem length_encBytes_concat (done : Frame) (y : Octet) :
    (encBytes (done ++ [y])).length = (encBytes done).length + (encSym (some y)).length := by
  rw [encBytes_append, List.length_append, encBytes_cons, encBytes_nil, List.append_nil]

theorem length_lt_of_small {f : Frame} (h : (encFrame f).length ≤ n) : f.length < n := by
  have hle := length_le_encBytes f
  rw [length_encFrame] at h
  omega

/-! ## The getting thread -/

/-- The state with what the getting thread has changed. -/
def Sys.getting (s : Sys) (fifo : Fifo) (b seen : ℕ) (p : Prog Fifo GetResult) : Sys :=
  { s with fifo := fifo, getter := some ⟨b, seen, p⟩ }

/-- The first iteration changes nothing but its place. -/
theorem Inv.look (h : Inv n s g) {b seen : ℕ} {p p' : Prog Fifo GetResult}
    (hp : s.getter = some ⟨b, seen, p⟩)
    (hget : GetterAt n s.fifo.start g.r g.content.length g.pending s.accepted s.got.length
      (some ⟨b, seen, p'⟩) g.leftover g.taking) :
    Inv n (s.getting s.fifo b seen p') g := by
  have hseen : seen ≤ s.accepted.length := h.seen _ hp
  refine { h with getter := hget, seen := ?_ }
  rintro t ht
  obtain rfl := Option.some.inj ht
  exact hseen

/-- **The first byte in the ring is emptied.** -/
theorem Inv.empty (h : Inv n s g) {b seen : ℕ} {p p' : Prog Fifo GetResult}
    (hp : s.getter = some ⟨b, seen, p⟩) {x : Octet} {xs : List Octet} (hleft : g.leftover = x :: xs)
    (hlen : (x :: xs).length ≤ g.content.length)
    (hget : GetterAt n s.fifo.start (g.r + 1) (g.content.length - 1) g.pending s.accepted
      s.got.length (some ⟨b, seen, p'⟩) xs g.taking) :
    Inv n (s.getting (s.fifo.setBuf (g.r % n) bytEmpty) b seen p')
      { g with r := g.r + 1, content := g.content.tail, leftover := xs } := by
  rw [List.length_cons] at hlen
  obtain ⟨y, ys, hys⟩ : ∃ y ys, g.content = y :: ys := by
    refine List.exists_cons_of_ne_nil fun hnil => ?_
    rw [hnil, List.length_nil] at hlen
    omega
  have hring := h.ring
  have hbytes := h.bytes
  have hputter := h.putter
  rw [hys] at hring hbytes hputter
  rw [hleft, List.cons_append, List.cons_append] at hbytes
  rw [hys, List.length_cons, Nat.add_sub_cancel] at hget
  have htail : g.content.tail = ys := by rw [hys, List.tail_cons]
  have hseen : seen ≤ s.accepted.length := h.seen _ hp
  have hle : ys.length ≤ (y :: ys).length := Nat.le_succ _
  refine { h with ring := ?_, solid := ?_, bytes := ?_, putter := ?_, getter := ?_, seen := ?_ }
  · rw [htail]
    exact hring.pop
  · intro z hz
    exact h.solid z (List.mem_of_mem_tail hz)
  · rw [htail]
    exact (List.cons.inj hbytes).2
  · rw [htail]
    have hend : g.r + (y :: ys).length = g.r + 1 + ys.length := by
      rw [List.length_cons]
      omega
    rw [hend] at hputter
    exact hputter.mono hle
  · rw [htail]
    exact hget
  · rintro t ht
    obtain rfl := Option.some.inj ht
    exact hseen

section Scan

variable {b seen : ℕ} {p p' : Prog Fifo GetResult} {fifo : Fifo}

/-- A get that ends at an empty cell has missed nothing. -/
theorem Inv.missed_empty (h : Inv n s g) (hp : s.getter = some ⟨b, seen, p⟩)
    (hle : s.accepted.length ≤ s.got.length) : Missed s.accepted s.got.length seen b 0 := by
  intro hlt
  have hseen := h.seen _ hp
  dsimp only at hseen
  omega

/-- **One action of the first iteration.** -/
theorem Inv.scan (h : Inv n s g) {done : Frame}
    (hp : s.getter = some ⟨b, seen, getScan n b ((g.r + (encBytes done).length) % n) done.length⟩)
    (hleft : g.leftover = []) (htaking : g.taking = []) (hs : s.fifo.start = g.r % n)
    (hd : done = [] ∨ ∃ todo rest, g.pending = (done ++ todo) :: rest)
    (hlen : (encBytes done).length ≤ g.content.length)
    (hstep : Prog.Step (getScan n b ((g.r + (encBytes done).length) % n) done.length) s.fifo p'
      fifo) : ∃ g', Inv n (s.getting fifo b seen p') g' := by
  rw [getScan_eq] at hstep
  obtain ⟨rfl, rfl⟩ := step_readBuf_iff.1 hstep
  refine ⟨g, h.look hp ?_⟩
  rw [hleft, htaking]
  have hpending : ∀ f rest, g.pending = f :: rest → ∃ todo, f = done ++ todo := by
    rintro f rest hf
    rcases hd with rfl | ⟨todo, rest', hf'⟩
    · exact ⟨f, rfl⟩
    · rw [hf] at hf'
      exact ⟨todo, (List.cons.inj hf').1⟩
  have hinside : ∀ f rest, g.pending = f :: rest →
      (encBytes done).length < (encFrame f).length := by
    intro f rest hf
    obtain ⟨todo, rfl⟩ := hpending f rest hf
    rw [encFrame_append, List.length_append, length_encFrame]
    omega
  by_cases hcell : s.fifo.buf ((g.r + (encBytes done).length) % n) = bytEmpty
  · have hmiss := h.missed_empty hp (h.accepted_le hleft htaking hcell hinside)
    rw [if_pos hcell]
    exact .failed b seen 0 hs (le_refl 0) hmiss
  · rw [if_neg hcell]
    -- a byte is there, so there is a frame, and the byte is its next one
    obtain ⟨f, rest, hf⟩ : ∃ f rest, g.pending = f :: rest := by
      refine List.exists_cons_of_ne_nil fun hnil => ?_
      have hdone : done = [] := by
        rcases hd with hd | ⟨todo, rest, hf⟩
        · exact hd
        · rw [hnil] at hf
          cases hf
      have hbytes := h.bytes
      rw [hleft, hnil, List.nil_append] at hbytes
      have hcontent := (List.append_eq_nil_iff.1 hbytes).1
      have hlt := h.lt_of_solid hlen (by rw [hdone]; exact h.pos) hcell
      rw [hcontent, List.length_nil] at hlt
      omega
    obtain ⟨todo, rfl⟩ := hpending f rest hf
    have hsmall := (h.small (done ++ todo) (by rw [htaking, hf]; exact List.mem_cons_self)).2
    have hlt := h.lt_of_solid hlen (Nat.lt_of_lt_of_le (hinside _ _ hf) hsmall) hcell
    have hdrop : (g.leftover ++ bytesOf g.pending).drop (encBytes done).length =
        encFrame todo ++ bytesOf rest := by
      rw [hleft, hf, List.nil_append, bytesOf_cons, encFrame_append, List.append_assoc,
        List.drop_left]
    have hdlen : done.length < n := by
      have hflen := length_lt_of_small hsmall
      rw [List.length_append] at hflen
      omega
    rcases encFrame_cases todo with ⟨rfl, henc⟩ | ⟨y, ys, rfl, -, hescape, henc, hsym⟩ |
      ⟨y, ys, e, rfl, hne, -, henc, -⟩
    · rw [henc] at hdrop
      rw [h.byte hlt hdrop, if_pos rfl, next_mod h.pos]
      exact .scanEscaped b seen done [] rest bytEscapedFrameEnd [] hs hf henc hlt
    · rw [henc] at hdrop
      rw [h.byte hlt hdrop, if_neg hescape, scanFinish_some hdlen, next_mod h.pos]
      have hconcat := length_encBytes_concat done y
      rw [hsym, List.length_singleton] at hconcat
      have hat : GetterAt n s.fifo.start g.r g.content.length g.pending s.accepted s.got.length
          (some ⟨b, seen, getScan n b ((g.r + (encBytes (done ++ [y])).length) % n)
            (done ++ [y]).length⟩) [] [] := by
        refine .scan b seen (done ++ [y]) hs (.inr ⟨ys, rest, ?_⟩) (by omega)
        rw [hf, List.append_assoc, List.singleton_append]
      rw [hconcat, List.length_append, List.length_singleton, ← Nat.add_assoc] at hat
      exact hat
    · rw [henc] at hdrop
      rw [h.byte hlt hdrop, if_pos rfl, next_mod h.pos]
      exact .scanEscaped b seen done (y :: ys) rest e _ hs hf henc hlt

/-- The action behind an escape byte. -/
theorem Inv.scanEscaped (h : Inv n s g) {done todo : Frame} {rest : List Frame} {e : Octet}
    {es : List Octet}
    (hp : s.getter = some ⟨b, seen,
      Lffifo.scanEscaped n b ((g.r + (encBytes done).length + 1) % n) done.length⟩)
    (hleft : g.leftover = []) (htaking : g.taking = []) (hs : s.fifo.start = g.r % n)
    (hf : g.pending = (done ++ todo) :: rest) (henc : encFrame todo = bytEscape :: e :: es)
    (hlen : (encBytes done).length + 1 ≤ g.content.length)
    (hstep : Prog.Step (Lffifo.scanEscaped n b ((g.r + (encBytes done).length + 1) % n) done.length)
      s.fifo p' fifo) : ∃ g', Inv n (s.getting fifo b seen p') g' := by
  obtain ⟨rfl, rfl⟩ := step_readBuf_iff.1 hstep
  refine ⟨g, h.look hp ?_⟩
  rw [hleft, htaking]
  have hsmall := (h.small (done ++ todo) (by rw [htaking, hf]; exact List.mem_cons_self)).2
  have hflen : (encFrame (done ++ todo)).length = (encBytes done).length + (es.length + 1 + 1) := by
    rw [encFrame_append, List.length_append, henc, List.length_cons, List.length_cons]
  have hinside : ∀ f rest', g.pending = f :: rest' →
      (encBytes done).length + 1 < (encFrame f).length := by
    intro f rest' hf'
    rw [hf] at hf'
    rw [← (List.cons.inj hf').1, hflen]
    omega
  rw [Nat.add_assoc]
  by_cases hcell : s.fifo.buf ((g.r + ((encBytes done).length + 1)) % n) = bytEmpty
  · have hmiss := h.missed_empty hp (h.accepted_le hleft htaking hcell hinside)
    rw [if_pos hcell]
    exact .failed b seen 0 hs (le_refl 0) hmiss
  · rw [if_neg hcell]
    have hlt := h.lt_of_solid hlen (Nat.lt_of_lt_of_le (hinside _ _ hf) hsmall) hcell
    have hdrop : (g.leftover ++ bytesOf g.pending).drop ((encBytes done).length + 1) =
        e :: (es ++ bytesOf rest) := by
      rw [hleft, hf, List.nil_append, bytesOf_cons, encFrame_append, List.append_assoc, henc,
        ← List.drop_drop, List.drop_left]
      rfl
    rw [h.byte hlt hdrop, next_mod h.pos]
    rcases encFrame_cases todo with ⟨rfl, henc'⟩ | ⟨y, ys, rfl, -, hescape, henc', -⟩ |
      ⟨y, ys, e', rfl, -, hun, henc', hsym⟩
    · rw [henc'] at henc
      obtain ⟨-, hes⟩ := List.cons.inj henc
      obtain ⟨rfl, rfl⟩ := List.cons.inj hes
      rw [List.append_nil] at hf hflen
      rw [unescape_frameEnd, scanFinish]
      by_cases hb : done.length > b
      · rw [if_pos hb]
        refine .failed b seen _ hs (by omega) fun hgot => ?_
        have hseen := h.seen _ hp
        dsimp only at hseen
        exact ⟨done, h.accepted_get htaking hf (by omega), hb, rfl⟩
      · rw [if_neg hb]
        exact .startClear b seen done rest hs hf (by rw [hflen]; exact hlt) (by omega)
    · rw [henc'] at henc
      exact absurd (List.cons.inj henc).1 hescape
    · rw [henc'] at henc
      obtain ⟨-, hes⟩ := List.cons.inj henc
      obtain ⟨rfl, rfl⟩ := List.cons.inj hes
      have hdlen : done.length < n := by
        have hflen' := length_lt_of_small hsmall
        rw [List.length_append] at hflen'
        omega
      have hconcat := length_encBytes_concat done y
      rw [hsym, List.length_cons, List.length_singleton] at hconcat
      rw [hun, scanFinish_some hdlen]
      have hat : GetterAt n s.fifo.start g.r g.content.length g.pending s.accepted s.got.length
          (some ⟨b, seen, getScan n b ((g.r + (encBytes (done ++ [y])).length) % n)
            (done ++ [y]).length⟩) [] [] := by
        refine .scan b seen (done ++ [y]) hs (.inr ⟨ys, rest, ?_⟩) (by omega)
        rw [hf, List.append_assoc, List.singleton_append]
      rw [hconcat, List.length_append, List.length_singleton] at hat
      exact hat

end Scan

section Clear

variable {b seen : ℕ} {p' : Prog Fifo GetResult} {fifo : Fifo} {done todo : Frame}

/-- The byte that is emptied next. -/
theorem Inv.next_byte (h : Inv n s g) {x : Octet} {xs : List Octet} (hleft : g.leftover = x :: xs)
    (hlen : (x :: xs).length ≤ g.content.length) : s.fifo.buf (g.r % n) = x := by
  rw [List.length_cons] at hlen
  have hdrop : (g.leftover ++ bytesOf g.pending).drop 0 = x :: (xs ++ bytesOf g.pending) := by
    rw [hleft]
    rfl
  have hpos : 0 < g.content.length := by omega
  have hbyte := h.byte hpos hdrop
  rwa [Nat.add_zero] at hbyte

theorem Inv.taking_lt (h : Inv n s g) {f : Frame} (htaking : g.taking = [f]) : f.length < n := by
  have hmem : f ∈ g.taking ++ g.pending := by
    rw [htaking]
    exact List.mem_cons_self
  exact length_lt_of_small (h.small f hmem).2

/-- **From the first iteration to the second.** -/
theorem Inv.startClear (h : Inv n s g) {f : Frame} {rest : List Frame}
    (hp : s.getter = some ⟨b, seen, Lffifo.startClear n b⟩) (hleft : g.leftover = [])
    (htaking : g.taking = []) (hs : s.fifo.start = g.r % n) (hf : g.pending = f :: rest)
    (hlen : (encFrame f).length ≤ g.content.length) (hb : f.length ≤ b)
    (hstep : Prog.Step (Lffifo.startClear n b) s.fifo p' fifo) :
    ∃ g', Inv n (s.getting fifo b seen p') g' := by
  obtain ⟨rfl, rfl⟩ := Prog.step_read_iff.1 hstep
  have hbytes := h.bytes
  have hframes := h.frames
  have hsmall := h.small
  have hseen : seen ≤ s.accepted.length := h.seen _ hp
  rw [hleft, hf, List.nil_append] at hbytes
  rw [htaking, hf, List.nil_append] at hframes hsmall
  refine ⟨{ g with leftover := encFrame f, taking := [f], pending := rest }, ?_⟩
  refine { h with bytes := hbytes, frames := hframes, small := hsmall, getter := ?_, seen := ?_ }
  · rw [hs]
    exact .clear b seen [] f hb hlen
  · rintro t ht
    obtain rfl := Option.some.inj ht
    exact hseen

/-- **The second iteration**: the first byte of a symbol is read. -/
theorem Inv.clear (h : Inv n s g)
    (hp : s.getter = some ⟨b, seen, getClear n b (g.r % n) done.length done⟩)
    (hleft : g.leftover = encFrame todo) (htaking : g.taking = [done ++ todo])
    (hb : (done ++ todo).length ≤ b) (hlen : (encFrame todo).length ≤ g.content.length)
    (hstep : Prog.Step (getClear n b (g.r % n) done.length done) s.fifo p' fifo) :
    ∃ g', Inv n (s.getting fifo b seen p') g' := by
  rw [getClear_eq] at hstep
  obtain ⟨rfl, rfl⟩ := step_readBuf_iff.1 hstep
  obtain ⟨x, xs, hx⟩ : ∃ x xs, encFrame todo = x :: xs := by
    refine List.exists_cons_of_ne_nil fun hnil => ?_
    have hlen' := length_encFrame todo
    rw [hnil, List.length_nil] at hlen'
    omega
  rw [hx] at hleft hlen
  refine ⟨g, h.look hp ?_⟩
  rw [h.next_byte hleft hlen, hleft, htaking]
  exact .clearRead b seen done todo x xs hb hx hlen

/-- Then it is emptied. -/
theorem Inv.clearRead (h : Inv n s g) {x : Octet} {xs : List Octet} {q : Prog Fifo GetResult}
    (hp : s.getter = some ⟨b, seen, writeBuf (g.r % n) bytEmpty q⟩)
    (hq : q = if x = bytEscape then Lffifo.clearEscaped n b (next n (g.r % n)) done.length done
      else clearFinish n b done.length done (some x) (next n (g.r % n)))
    (hleft : g.leftover = x :: xs) (htaking : g.taking = [done ++ todo])
    (hb : (done ++ todo).length ≤ b) (henc : encFrame todo = x :: xs)
    (hlen : (x :: xs).length ≤ g.content.length)
    (hstep : Prog.Step (writeBuf (g.r % n) bytEmpty q) s.fifo p' fifo) :
    ∃ g', Inv n (s.getting fifo b seen p') g' := by
  obtain ⟨rfl, rfl⟩ := step_writeBuf_iff.1 hstep
  refine ⟨_, h.empty hp hleft hlen ?_⟩
  rw [List.length_cons] at hlen
  rw [hq, htaking, next_mod h.pos]
  rcases encFrame_cases todo with ⟨rfl, henc'⟩ | ⟨y, ys, rfl, -, hescape, henc', -⟩ |
    ⟨y, ys, e, rfl, -, -, henc', -⟩
  · rw [henc'] at henc
    obtain ⟨rfl, rfl⟩ := List.cons.inj henc
    rw [if_pos rfl]
    exact .clearEscaped b seen done [] _ [] hb henc' (by omega)
  · rw [henc'] at henc
    obtain ⟨rfl, rfl⟩ := List.cons.inj henc
    have hlt := h.taking_lt htaking
    rw [List.length_append, List.length_cons] at hlt
    have hb' := hb
    rw [List.length_append, List.length_cons] at hb'
    rw [if_neg hescape, clearFinish_some (by omega) (by omega)]
    have hcat : done ++ y :: ys = (done ++ [y]) ++ ys := by
      rw [List.append_assoc, List.singleton_append]
    have hat : GetterAt n s.fifo.start (g.r + 1) (g.content.length - 1) g.pending s.accepted
        s.got.length (some ⟨b, seen, getClear n b ((g.r + 1) % n) (done ++ [y]).length
          (done ++ [y])⟩) (encFrame ys) [(done ++ [y]) ++ ys] :=
      .clear b seen (done ++ [y]) ys (by rwa [← hcat]) (by omega)
    rw [List.length_append, List.length_singleton, ← hcat] at hat
    exact hat
  · rw [henc'] at henc
    obtain ⟨rfl, rfl⟩ := List.cons.inj henc
    rw [if_pos rfl]
    exact .clearEscaped b seen done _ e _ hb henc' (by omega)

/-- The byte behind an escape byte is read. -/
theorem Inv.clearEscaped (h : Inv n s g) {e : Octet} {es : List Octet}
    (hp : s.getter = some ⟨b, seen, Lffifo.clearEscaped n b (g.r % n) done.length done⟩)
    (hleft : g.leftover = e :: es) (htaking : g.taking = [done ++ todo])
    (hb : (done ++ todo).length ≤ b) (henc : encFrame todo = bytEscape :: e :: es)
    (hlen : (e :: es).length ≤ g.content.length)
    (hstep : Prog.Step (Lffifo.clearEscaped n b (g.r % n) done.length done) s.fifo p' fifo) :
    ∃ g', Inv n (s.getting fifo b seen p') g' := by
  obtain ⟨rfl, rfl⟩ := step_readBuf_iff.1 hstep
  refine ⟨g, h.look hp ?_⟩
  rw [h.next_byte hleft hlen, hleft, htaking]
  exact .clearEscapedRead b seen done todo e es hb henc hlen

/-- And emptied. -/
theorem Inv.clearEscapedRead (h : Inv n s g) {e : Octet} {es : List Octet}
    {q : Prog Fifo GetResult} (hp : s.getter = some ⟨b, seen, writeBuf (g.r % n) bytEmpty q⟩)
    (hq : q = clearFinish n b done.length done (unescape e) (next n (g.r % n)))
    (hleft : g.leftover = e :: es) (htaking : g.taking = [done ++ todo])
    (hb : (done ++ todo).length ≤ b) (henc : encFrame todo = bytEscape :: e :: es)
    (hlen : (e :: es).length ≤ g.content.length)
    (hstep : Prog.Step (writeBuf (g.r % n) bytEmpty q) s.fifo p' fifo) :
    ∃ g', Inv n (s.getting fifo b seen p') g' := by
  obtain ⟨rfl, rfl⟩ := step_writeBuf_iff.1 hstep
  refine ⟨_, h.empty hp hleft hlen ?_⟩
  rw [List.length_cons] at hlen
  rw [hq, htaking, next_mod h.pos]
  rcases encFrame_cases todo with ⟨rfl, henc'⟩ | ⟨y, ys, rfl, -, hescape, henc', -⟩ |
    ⟨y, ys, e', rfl, -, hun, henc', -⟩
  · rw [henc'] at henc
    obtain ⟨-, hes⟩ := List.cons.inj henc
    obtain ⟨rfl, rfl⟩ := List.cons.inj hes
    rw [List.append_nil] at hb ⊢
    rw [unescape_frameEnd, clearFinish_none hb]
    exact .finish b seen done hb
  · rw [henc'] at henc
    exact absurd (List.cons.inj henc).1 hescape
  · rw [henc'] at henc
    obtain ⟨-, hes⟩ := List.cons.inj henc
    obtain ⟨rfl, rfl⟩ := List.cons.inj hes
    have hlt := h.taking_lt htaking
    rw [List.length_append, List.length_cons] at hlt
    have hb' := hb
    rw [List.length_append, List.length_cons] at hb'
    rw [hun, clearFinish_some (by omega) (by omega)]
    have hcat : done ++ y :: ys = (done ++ [y]) ++ ys := by
      rw [List.append_assoc, List.singleton_append]
    have hat : GetterAt n s.fifo.start (g.r + 1) (g.content.length - 1) g.pending s.accepted
        s.got.length (some ⟨b, seen, getClear n b ((g.r + 1) % n) (done ++ [y]).length
          (done ++ [y])⟩) (encFrame ys) [(done ++ [y]) ++ ys] :=
      .clear b seen (done ++ [y]) ys (by rwa [← hcat]) (by omega)
    rw [List.length_append, List.length_singleton, ← hcat] at hat
    exact hat

end Clear

/-- **One action of a get.** -/
theorem Inv.get (h : Inv n s g) {b seen : ℕ} {p p' : Prog Fifo GetResult} {fifo : Fifo}
    (hp : s.getter = some ⟨b, seen, p⟩) (hstep : Prog.Step p s.fifo p' fifo) :
    ∃ g', Inv n (s.getting fifo b seen p') g' := by
  have hget := h.getter
  rw [hp] at hget
  generalize hleft : g.leftover = leftover at hget
  generalize htaking : g.taking = taking at hget
  cases hget with
  | failed => exact absurd hstep Prog.not_step_ret
  | done => exact absurd hstep Prog.not_step_ret
  | start _ _ hs =>
    obtain ⟨rfl, rfl⟩ := Prog.step_read_iff.1 hstep
    refine ⟨g, h.look hp ?_⟩
    rw [hleft, htaking]
    have hat : GetterAt n s.fifo.start g.r g.content.length g.pending s.accepted s.got.length
        (some ⟨b, seen, getScan n b ((g.r + (encBytes []).length) % n) ([] : Frame).length⟩)
        [] [] := .scan b seen [] hs (.inl rfl) (Nat.zero_le _)
    rw [encBytes_nil, List.length_nil, Nat.add_zero, ← hs] at hat
    exact hat
  | scan _ _ done hs hd hlen => exact h.scan hp hleft htaking hs hd hlen hstep
  | scanEscaped _ _ done todo rest e es hs hf henc hlen =>
    exact h.scanEscaped hp hleft htaking hs hf henc hlen hstep
  | startClear _ _ f rest hs hf hlen hb =>
    exact h.startClear hp hleft htaking hs hf hlen hb hstep
  | clear _ _ done todo hb hlen => exact h.clear hp hleft htaking hb hlen hstep
  | clearRead _ _ done todo x xs hb henc hlen =>
    exact h.clearRead hp rfl hleft htaking hb henc hlen hstep
  | clearEscaped _ _ done todo e es hb henc hlen =>
    exact h.clearEscaped hp hleft htaking hb henc hlen hstep
  | clearEscapedRead _ _ done todo e es hb henc hlen =>
    exact h.clearEscapedRead hp rfl hleft htaking hb henc hlen hstep
  | finish _ _ f hb =>
    obtain ⟨rfl, rfl⟩ := step_writeStart_iff.1 hstep
    have hseen : seen ≤ s.accepted.length := h.seen _ hp
    refine ⟨g, { h with getter := ?_, seen := ?_ }⟩
    · rw [hleft, htaking]
      exact .done b seen f rfl hb
    · rintro t ht
      obtain rfl := Option.some.inj ht
      exact hseen

/-! ## Every action -/

theorem PutterAt.of_ret {end_ e len : ℕ} {data : Frame} {v : ℤ} {toWrite : List Octet}
    {writing : List Frame}
    (h : PutterAt n end_ e len (some ⟨data, .ret v⟩) toWrite writing) :
    end_ = e % n ∧ toWrite = [] ∧ ((v = 1 ∧ writing = []) ∨ (v = 0 ∧ writing = [data])) := by
  generalize hprog : (Prog.ret v : Prog Fifo ℤ) = p at h
  cases h with
  | refused _ hend =>
    cases hprog
    exact ⟨hend, rfl, .inl ⟨rfl, rfl⟩⟩
  | start => cases hprog
  | check _ c m =>
    cases m with
    | zero => cases hprog
    | succ m => cases hprog
  | write _ done _ heq hlen =>
    cases toWrite with
    | nil => cases hprog
    | cons b todo => cases hprog
  | done _ hend =>
    cases hprog
    exact ⟨hend, rfl, .inr ⟨rfl, rfl⟩⟩

theorem GetterAt.of_ret {start r len got b seen : ℕ} {pending accepted : List Frame}
    {res : GetResult} {leftover : List Octet} {taking : List Frame}
    (h : GetterAt n start r len pending accepted got (some ⟨b, seen, .ret res⟩) leftover taking) :
    start = r % n ∧ leftover = [] ∧
      ((res.1 ≤ 0 ∧ taking = [] ∧ Missed accepted got seen b res.1) ∨
        (taking = [res.2] ∧ res.1 = ↑res.2.length ∧ res.2.length ≤ b)) := by
  generalize hprog : (Prog.ret res : Prog Fifo GetResult) = p at h
  cases h with
  | failed _ _ v hs hv hm =>
    cases hprog
    exact ⟨hs, rfl, .inl ⟨hv, rfl, hm⟩⟩
  | done _ _ f hs hb =>
    cases hprog
    exact ⟨hs, rfl, .inr ⟨rfl, rfl, hb⟩⟩
  | scan =>
    rw [getScan_eq] at hprog
    cases hprog
  | clear =>
    rw [getClear_eq] at hprog
    cases hprog
  | start => cases hprog
  | scanEscaped => cases hprog
  | startClear => cases hprog
  | clearRead => cases hprog
  | clearEscaped => cases hprog
  | clearEscapedRead => cases hprog
  | finish => cases hprog

theorem Inv.putEnd (h : Inv n s g) {data : Frame} {v : ℤ}
    (hp : s.putter = some ⟨data, .ret v⟩) :
    ∃ g', Inv n { s with
      putter := none, accepted := if v = 0 then s.accepted ++ [data] else s.accepted } g' := by
  have hput := h.putter
  have hframes := h.frames
  rw [hp] at hput
  obtain ⟨hend, htw, ⟨rfl, hwr⟩ | ⟨rfl, hwr⟩⟩ := hput.of_ret
  · refine ⟨g, { h with putter := ?_ }⟩
    rw [htw, hwr]
    exact .idle hend
  · rw [hwr] at hframes
    have hget := h.getter.mono (Nat.le_refl _) [] [data]
    rw [List.append_nil] at hget
    refine ⟨{ g with writing := [] }, { h with
      frames := ?_, putter := ?_, getter := hget, seen := ?_ }⟩
    · rw [if_pos rfl, List.append_nil, hframes]
    · rw [htw]
      exact .idle hend
    · intro t ht
      have hseen := h.seen t ht
      rw [if_pos rfl, List.length_append]
      omega

theorem Inv.getEnd (h : Inv n s g) {b seen : ℕ} {res : GetResult}
    (hp : s.getter = some ⟨b, seen, .ret res⟩) :
    ∃ g', Inv n { s with
      getter := none, got := if 0 < res.1 then s.got ++ [res.2] else s.got } g' := by
  have hget := h.getter
  rw [hp] at hget
  have hidle : ∀ t : Getter, (none : Option Getter) = some t → t.seen ≤ s.accepted.length := nofun
  obtain ⟨hs, hleft, ⟨hv, htaking, -⟩ | ⟨htaking, hv, -⟩⟩ := hget.of_ret
  · refine ⟨g, { h with frames := ?_, getter := ?_, seen := hidle }⟩
    · rw [if_neg (not_lt.2 hv)]
      exact h.frames
    · rw [hleft, htaking]
      exact .idle hs
  · have hsmall := h.small
    have hframes := h.frames
    rw [htaking] at hsmall hframes
    have hne := (hsmall _ (List.mem_append_left _ (List.mem_singleton_self _))).1
    have hpos : 0 < res.1 := by
      have hlen := List.length_pos_of_ne_nil hne
      omega
    refine ⟨{ g with taking := [] }, { h with
      frames := ?_, small := ?_, getter := ?_, seen := hidle }⟩
    · rw [if_pos hpos, List.nil_append, ← hframes, List.append_assoc]
    · exact fun f hf => hsmall f (List.mem_append_right _ hf)
    · rw [hleft]
      exact .idle hs

/-- **Every action keeps the invariant.** -/
theorem Inv.step (h : Inv n s g) {ev : Event} {t : Sys} (hstep : Step s ev t) :
    ∃ g', Inv n t g' := by
  cases hstep with
  | putStart data hnone hle =>
    have hput := h.putter
    rw [hnone] at hput
    rw [h.size] at hle ⊢
    generalize htw : g.toWrite = toWrite at hput
    generalize hwr : g.writing = writing at hput
    cases hput with
    | idle hend =>
      refine ⟨g, { h with putter := ?_ }⟩
      rw [htw, hwr, lffifoPut_eq]
      by_cases hsane : data.length = 0 ∨ data.length > 0x10000000
      · rw [if_pos hsane]
        exact .refused data hend
      · rw [if_neg hsane]
        refine .start data hend ?_ hle
        rintro rfl
        exact hsane (.inl rfl)
  | put hp hs => exact h.put hp hs
  | putEnd hp => exact h.putEnd hp
  | getStart bufsize hnone =>
    have hget := h.getter
    rw [hnone] at hget
    rw [h.size]
    generalize hleft : g.leftover = leftover at hget
    generalize htaking : g.taking = taking at hget
    cases hget with
    | idle hs =>
      refine ⟨g, { h with getter := ?_, seen := ?_ }⟩
      · rw [hleft, htaking]
        exact .start bufsize _ hs
      · rintro t ht
        obtain rfl := Option.some.inj ht
        exact Nat.le_refl _
  | get hp hs => exact h.get hp hs
  | getEnd hp => exact h.getEnd hp

/-- Both threads before their first call. -/
def Sys.init (fifo : Fifo) : Sys := ⟨fifo, none, none, [], []⟩

theorem run_inv {fifo : Fifo} {size : ℤ} (ha : lffifoAlloc size = some fifo) {evs : List Event}
    (h : Trace Step (Sys.init fifo) evs s) : ∃ g, Inv fifo.size s g := by
  refine Trace.inv_state (I := fun t => ∃ g, Inv fifo.size t g) h ?_ ?_
  · obtain ⟨r, hr⟩ := lffifoAlloc_holds ha
    refine ⟨⟨r, [], [], [], [], [], []⟩, rfl, hr.size_pos, hr.ring, ?_, rfl, rfl, ?_, ?_, ?_, ?_⟩
    · exact fun b hb => absurd hb List.not_mem_nil
    · exact fun f hf => absurd hf List.not_mem_nil
    · exact .idle hr.end_
    · exact .idle hr.start
    · exact fun t ht => by cases ht
  · rintro t ev u ⟨g, hg⟩ hstep
    exact hg.step hstep

/-- A put that has begun to write returns 0 whatever the memory. -/
theorem PutterAt.run_eq_zero {end_ e len : ℕ} {o : Option Putter} {toWrite : List Octet}
    {data : Frame} {rest : List Frame} (h : PutterAt n end_ e len o toWrite (data :: rest)) :
    rest = [] ∧ ∃ p, o = some ⟨data, p⟩ ∧ ∀ t, (p.run t).1 = 0 := by
  cases h with
  | write _ done _ heq hlen => exact ⟨rfl, _, rfl, run_writeCells_ret _ _⟩
  | done _ hend => exact ⟨rfl, _, rfl, fun _ => rfl⟩

end Lffifo

end Trismedia
