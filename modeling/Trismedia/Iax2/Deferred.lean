import Mathlib.Data.List.Perm.Basic
import Mathlib.Data.UInt
import Trismedia.Common.Trace
import Trismedia.Linkedlists.Model
/-!
# Full frames that are deferred

A full frame that arrives while a thread processes one of the same call is
queued for that thread: `defer_full_frame` and `handle_deferred_full_frames`
of `channels/chan_iax2.c`. The queue is to be in the order of the sequence
numbers, and these are counted modulo 256. The comparison is one of the octets
themselves, so a queue that stands across the wrap is not in order. Both
functions hold the lock of the thread while they have the list.
-/


namespace Trismedia

namespace Iax2

namespace Deferred

open Linkedlists Links

/-! ## The code -/

/-- A full frame as received, with its `struct tris_iax2_full_hdr`. -/
structure FullFrame where
  octets : List UInt8
  header : 12 ≤ octets.length

/-- `fh->oseqno` -/
def FullFrame.oseqno (fh : FullFrame) : UInt8 :=
  fh.octets.get ⟨8, lt_of_lt_of_le (by decide) fh.header⟩

/-- Of a `struct iax2_thread`, and of the packets it queues: their links and,
where they are allocated, what is copied into them. `arrived` and `taken` are
the frames that came for the thread and those it has had. -/
structure Thread (A : Type) where
  next : A → Option A
  buf : A → Option FullFrame
  fullFrames : ListHead A
  arrived : List FullFrame
  taken : List FullFrame

/-- The thread with nothing queued. -/
def Thread.init (A : Type) : Thread A := ⟨fun _ => none, fun _ => none, ⟨none, none⟩, [], []⟩

variable {A : Type} [DecidableEq A]

/-- The traversal of `defer_full_frame`. There is no result where it reads a
packet that is not allocated, or in fewer than `fuel` rounds. -/
def deferLoop (buf : A → Option FullFrame) (pktBuf : A) (fh : FullFrame) :
    ℕ → Loop A → Option (Loop A)
  | 0, _ => none
  | fuel + 1, s =>
    match s.var with
    | none => some s
    | some cur => do
      let curFh ← buf cur
      if fh.oseqno < curFh.oseqno then return insertBeforeCurrent s pktBuf
      else deferLoop buf pktBuf fh fuel (traverseSafeNext s)

/-- `defer_full_frame`. The packet is what `tris_calloc` returns. -/
def deferFullFrame (fuel : ℕ) (pktBuf : Option A) (fh : FullFrame) (toHere : Thread A) :
    Option (Thread A) :=
  match pktBuf with
  | none => some { toHere with arrived := toHere.arrived ++ [fh] }
  | some e => do
    let next := Function.update toHere.next e none
    let buf := Function.update toHere.buf e (some fh)
    let s ← deferLoop buf e fh fuel (traverseSafeBegin next toHere.fullFrames ⟨none, none⟩)
    let arrived := toHere.arrived ++ [fh]
    match s.var with
    | some _ =>
      return { toHere with next := s.next, buf := buf, fullFrames := s.head, arrived := arrived }
    | none => do
      let (next, head) ← insertTail s.next s.head e
      return { toHere with next := next, buf := buf, fullFrames := head, arrived := arrived }

/-- `TRIS_LIST_REMOVE_HEAD` -/
def removeHead (next : A → Option A) (head : ListHead A) :
    Option A × (A → Option A) × ListHead A :=
  match head.first with
  | none => (none, next, head)
  | some cur =>
    (some cur, Function.update next cur none,
      ⟨next cur, if head.last = some cur then none else head.last⟩)

/-- A round of `handle_deferred_full_frames`; `none` where nothing is queued. -/
def handleDeferredFullFrame (thread : Thread A) : Option (Thread A) := do
  let (cur, next, head) := removeHead thread.next thread.fullFrames
  let pktBuf ← cur
  let fh ← thread.buf pktBuf
  return { thread with
    next := next
    buf := Function.update thread.buf pktBuf none
    fullFrames := head
    taken := thread.taken ++ [fh] }

/-- A full frame is deferred, in the packet that is allocated for it if there
is memory, or the thread takes one. -/
inductive Event (A : Type) where
  | defer (pktBuf : Option A) (fh : FullFrame)
  | take

/-- How far the frame is behind `w`, modulo 256. -/
def dist (w : UInt8) (fh : FullFrame) : ℕ := (fh.oseqno - w).toNat

/-- The frames that arrive are within a window of 128, and what is allocated
was not in use. -/
def Step (w : UInt8) (s : Thread A) : Event A → Thread A → Prop
  | .defer pktBuf fh, t =>
    dist w fh < 128 ∧ (∀ e, pktBuf = some e → s.buf e = none) ∧
      ∃ fuel, deferFullFrame fuel pktBuf fh s = some t
  | .take, t => handleDeferredFullFrame s = some t

/-! ## What is asked of it -/

/-- What the thread takes if nothing else arrives, until nothing is left. -/
def Takes (w : UInt8) (s : Thread A) (q : List FullFrame) : Prop :=
  ∃ t, Trace (Step w) s (List.replicate q.length .take) t ∧ t.taken = s.taken ++ q ∧
    handleDeferredFullFrame t = none

/-- **Each frame that arrived was taken or still is, and those are taken in
order** from the start of the window. -/
def InOrder (w : UInt8) (s : Thread A) : Prop :=
  ∃ q, Takes w s q ∧ (s.taken ++ q).Perm s.arrived ∧ q.Pairwise fun f g => dist w f ≤ dist w g

/-- The frames queued. -/
def Queued (s : Thread A) (q : List FullFrame) : Prop :=
  ∃ l, Holds s.next s.fullFrames l ∧ l.Nodup ∧ l.map s.buf = q.map some

/-- The number of the frame has wrapped around. -/
def Wrapped (w : UInt8) (fh : FullFrame) : Prop := fh.oseqno < w

instance (w : UInt8) (fh : FullFrame) : Decidable (Wrapped w fh) :=
  inferInstanceAs (Decidable (_ < _))

/-- **The comparison of the octets is right**: a frame that has wrapped finds
no other one queued, and one that has not finds no wrapped one, or another
like itself that is to stay behind it. -/
def Straight (w : UInt8) (fh : FullFrame) (q : List FullFrame) : Prop :=
  if Wrapped w fh then ∀ g ∈ q, Wrapped w g
  else (∀ g ∈ q, ¬Wrapped w g) ∨ ∃ g ∈ q, fh.oseqno < g.oseqno

/-- There is memory for the packet, and the comparison is right. -/
def Met (w : UInt8) (s : Thread A) : Event A → Prop
  | .defer pktBuf fh => pktBuf.isSome ∧ ∃ q, Queued s q ∧ Straight w fh q
  | .take => True

/-! ## The order of the window -/

section Order

variable {w : UInt8} {f g h : FullFrame} {q P R : List FullFrame}

theorem dist_cases (w : UInt8) (f : FullFrame) :
    Wrapped w f ∧ f.oseqno.toNat < w.toNat ∧ dist w f + w.toNat = f.oseqno.toNat + 256 ∨
      ¬Wrapped w f ∧ w.toNat ≤ f.oseqno.toNat ∧ dist w f + w.toNat = f.oseqno.toNat := by
  have hw : w.toNat < 256 := w.toNat_lt
  have hf : f.oseqno.toNat < 256 := f.oseqno.toNat_lt
  rw [dist, UInt8.toNat_sub, Wrapped, UInt8.lt_iff_toNat_lt]
  omega

/-- A smaller octet is not nearer only across the wrap. -/
theorem dist_le_iff (h : ¬f.oseqno < g.oseqno) :
    dist w g ≤ dist w f ↔ (Wrapped w g → Wrapped w f) := by
  have hf : f.oseqno.toNat < 256 := f.oseqno.toNat_lt
  rw [UInt8.lt_iff_toNat_lt] at h
  rcases dist_cases w f with ⟨hwf, hdf⟩ | ⟨hwf, hdf⟩ <;>
    rcases dist_cases w g with ⟨hwg, hdg⟩ | ⟨hwg, hdg⟩ <;>
    simp only [hwf, hwg, imp_self, imp_false, not_true_eq_false, false_imp_iff, iff_true,
      iff_false] <;> omega

/-- What has wrapped comes last. -/
theorem wrapped_of_le (hf : Wrapped w f) (hle : dist w f ≤ dist w g) : Wrapped w g := by
  have hlt : g.oseqno.toNat < 256 := g.oseqno.toNat_lt
  rcases dist_cases w f with ⟨-, hdf⟩ | ⟨hnot, -⟩
  · rcases dist_cases w g with ⟨hg, -⟩ | ⟨-, hdg⟩
    · exact hg
    · omega
  · exact absurd hf hnot

theorem sorted_insert (hs : (P ++ R).Pairwise fun f g => dist w f ≤ dist w g) :
    (P ++ f :: R).Pairwise (fun f g => dist w f ≤ dist w g) ↔
      (∀ g ∈ P, dist w g ≤ dist w f) ∧ ∀ g ∈ R, dist w f ≤ dist w g := by
  rw [List.pairwise_append] at hs
  obtain ⟨hP, hR, hPR⟩ := hs
  rw [List.pairwise_append, List.pairwise_cons]
  constructor
  · rintro ⟨-, ⟨hf, -⟩, hall⟩
    exact ⟨fun g hg => hall g hg f List.mem_cons_self, hf⟩
  · rintro ⟨hPf, hf⟩
    refine ⟨hP, ⟨hf, hR⟩, fun g hg x hx => ?_⟩
    rcases List.mem_cons.1 hx with rfl | hx
    · exact hPf g hg
    · exact hPR g hg x hx

/-- **Where the comparison is right.** `P` is what the traversal passes, and
`R` what it stops at. -/
theorem sorted_insert_iff (hs : (P ++ R).Pairwise fun f g => dist w f ≤ dist w g)
    (hP : ∀ g ∈ P, ¬f.oseqno < g.oseqno) (hR : ∀ g, R.head? = some g → f.oseqno < g.oseqno) :
    (P ++ f :: R).Pairwise (fun f g => dist w f ≤ dist w g) ↔ Straight w f (P ++ R) := by
  rw [sorted_insert hs, Straight]
  have hPf : ∀ g ∈ P, dist w g ≤ dist w f ↔ (Wrapped w g → Wrapped w f) :=
    fun g hg => dist_le_iff (hP g hg)
  have hwP : Wrapped w f → ∀ g ∈ P, Wrapped w g :=
    fun hf g hg => UInt8.lt_of_le_of_lt (UInt8.not_lt.1 (hP g hg)) hf
  cases R with
  | nil =>
    rw [List.append_nil]
    split_ifs with hf
    · exact iff_of_true ⟨fun g hg => (hPf g hg).2 fun _ => hf, by simp⟩ (hwP hf)
    · constructor
      · exact fun h => Or.inl fun g hg hw => hf ((hPf g hg).1 (h.1 g hg) hw)
      · rintro (h | ⟨g, hg, hlt⟩)
        · exact ⟨fun g hg => (hPf g hg).2 fun hw => absurd hw (h g hg), by simp⟩
        · exact absurd hlt (hP g hg)
  | cons r R =>
    have hlt := hR r rfl
    obtain ⟨-, hsorted, hPR⟩ := List.pairwise_append.1 hs
    -- behind the entry it stops at nothing is nearer
    have hr : ∀ g ∈ r :: R, dist w r ≤ dist w g := by
      intro g hg
      rcases List.mem_cons.1 hg with rfl | hg
      · exact le_rfl
      · exact (List.pairwise_cons.1 hsorted).1 g hg
    have hfr : dist w f ≤ dist w r ↔ (Wrapped w f → Wrapped w r) :=
      dist_le_iff (UInt8.lt_asymm hlt)
    split_ifs with hf
    · constructor
      · rintro ⟨-, hfR⟩ g hg
        rcases List.mem_append.1 hg with hg | hg
        · exact hwP hf g hg
        · exact wrapped_of_le hf (hfR g hg)
      · intro h
        have hle := hfr.2 fun _ => h r (List.mem_append_right _ List.mem_cons_self)
        exact ⟨fun g hg => (hPf g hg).2 fun _ => hf, fun g hg => hle.trans (hr g hg)⟩
    · have hle := hfr.2 fun h => absurd h hf
      refine iff_of_true ⟨fun g hg => (hPf g hg).2 fun hw => ?_, fun g hg => hle.trans (hr g hg)⟩
        (Or.inr ⟨r, List.mem_append_right _ List.mem_cons_self, hlt⟩)
      have hwr := wrapped_of_le hw (hPR g hg r List.mem_cons_self)
      exact UInt8.lt_trans hlt hwr

end Order

/-! ## The list -/

section List

variable {s t : Thread A} {l P R : List A} {buf : A → Option FullFrame} {e x : A} {fh : FullFrame}
  {q : List FullFrame} {n fuel : ℕ}

omit [DecidableEq A] in
/-- There is one queue. -/
theorem Queued.unique {q' : List FullFrame} (h : Queued s q) (h' : Queued s q') : q = q' := by
  obtain ⟨l, hl, -, hq⟩ := h
  obtain ⟨l', hl', -, hq'⟩ := h'
  have hll := hl.1.unique hl'.1
  rw [← hll, hq] at hq'
  exact List.map_injective_iff.2 (Option.some_injective _) hq'

/-- A round at an entry whose octet is not larger passes it by. -/
theorem deferLoop_pass {g : FullFrame} {L : Loop A} (h : At L P [] (x :: R) [])
    (hnew : L.newPrev = L.var) (hx : buf x = some g) (hlt : ¬fh.oseqno < g.oseqno) :
    deferLoop buf e fh (n + 1) L = deferLoop buf e fh n (traverseSafeNext L) ∧
      At (traverseSafeNext L) (P ++ [x]) [] R [] := by
  have hvar : L.var = some x := h.var
  have hlast : L.newPrev = (P ++ [x]).getLast? := by
    rw [hnew, hvar, List.getLast?_concat]
  refine ⟨?_, h.kept hlast (by simp)⟩
  rw [deferLoop, hvar]
  show (buf x).bind _ = _
  rw [hx, Option.bind_some, if_neg hlt]

/-- **The traversal** passes those that are not larger, and puts the new one
before the first that is, or comes to the end. -/
theorem deferLoop_spec (fh : FullFrame) {L : Loop A} (h : At L P [] R []) (hnew : L.newPrev = L.var)
    (he : e ∉ P ++ R) (hq : R.map buf = q.map some) (hfuel : R.length < fuel) :
    ∃ L' Q₁ Q₂ q₁ q₂, deferLoop buf e fh fuel L = some L' ∧ R = Q₁ ++ Q₂ ∧ q = q₁ ++ q₂ ∧
      Q₁.map buf = q₁.map some ∧ Q₂.map buf = q₂.map some ∧ L'.var = Q₂.head? ∧
      Holds L'.next L'.head (P ++ Q₁ ++ (if Q₂ = [] then [] else e :: Q₂)) ∧
      (Q₂ = [] → L'.next e = L.next e) ∧ (∀ g ∈ q₁, ¬fh.oseqno < g.oseqno) ∧
      ∀ g, q₂.head? = some g → fh.oseqno < g.oseqno := by
  induction R generalizing L P q fuel with
  | nil =>
    obtain ⟨k, rfl⟩ : ∃ k, fuel = k + 1 := ⟨fuel - 1, by omega⟩
    have hvar : L.var = none := h.var
    obtain rfl : q = [] := List.map_eq_nil_iff.1 hq.symm
    refine ⟨L, [], [], [], [], ?_, rfl, rfl, rfl, rfl, hvar, ?_, fun _ => rfl, ?_, ?_⟩
    · rw [deferLoop, hvar]
    · simpa using h.main
    · simp
    · simp
  | cons x R ih =>
    obtain ⟨k, rfl⟩ : ∃ k, fuel = k + 1 := ⟨fuel - 1, by omega⟩
    obtain ⟨g, q, rfl⟩ : ∃ g q', q = g :: q' := by
      cases q with
      | nil => cases hq
      | cons g q => exact ⟨g, q, rfl⟩
    obtain ⟨hx, hrest⟩ := List.cons.inj hq
    by_cases hlt : fh.oseqno < g.oseqno
    · obtain ⟨hat, -⟩ := h.insertBeforeCurrent (by simpa using he)
      refine ⟨insertBeforeCurrent L e, [], x :: R, [], g :: q, ?_, rfl, rfl, rfl, hq, hat.var, ?_, ?_,
        ?_, ?_⟩
      · have hvar : L.var = some x := h.var
        rw [deferLoop, hvar]
        show (buf x).bind _ = _
        rw [hx, Option.bind_some, if_pos hlt]
        rfl
      · simpa using hat.main
      · intro h
        cases h
      · simp
      · intro y hy
        obtain rfl : g = y := Option.some.inj hy
        exact hlt
    · obtain ⟨hstep, hat⟩ := deferLoop_pass (n := k) (e := e) h hnew hx hlt
      have hk : R.length < k := by
        rw [List.length_cons] at hfuel
        omega
      obtain ⟨L', Q₁, Q₂, q₁, q₂, hrun, rfl, rfl, hq₁, hq₂, hvar, hholds, hnext, hpass, hstop⟩ :=
        ih hat rfl (by simpa using he) hrest hk
      refine ⟨L', x :: Q₁, Q₂, g :: q₁, q₂, hstep.trans hrun, rfl, rfl, ?_, hq₂, hvar, ?_, hnext, ?_,
        hstop⟩
      · rw [List.map_cons, List.map_cons, hx, hq₁]
      · simpa using hholds
      · intro y hy
        rcases List.mem_cons.1 hy with rfl | hy
        · exact hlt
        · exact hpass y hy

/-- **What is deferred** goes into the queue, behind what the comparison does
not find larger. -/
theorem deferFullFrame_spec (fh : FullFrame) (hs : Queued s q) (he : s.buf e = none) :
    ∃ t q₁ q₂, (∃ fuel, deferFullFrame fuel (some e) fh s = some t) ∧ q = q₁ ++ q₂ ∧
      Queued t (q₁ ++ fh :: q₂) ∧ t.arrived = s.arrived ++ [fh] ∧ t.taken = s.taken ∧
      (∀ g ∈ q₁, ¬fh.oseqno < g.oseqno) ∧ ∀ g, q₂.head? = some g → fh.oseqno < g.oseqno := by
  obtain ⟨l, hl, hnd, hq⟩ := hs
  have hel : e ∉ l := by
    intro h
    have hmem : s.buf e ∈ q.map some := hq ▸ List.mem_map_of_mem h
    rw [he] at hmem
    obtain ⟨g, -, hg⟩ := List.mem_map.1 hmem
    cases hg
  have hbuf : l.map (Function.update s.buf e (some fh)) = l.map s.buf := by
    refine List.map_congr_left fun a ha => Function.update_of_ne ?_ ..
    rintro rfl
    exact hel ha
  have hl' : Holds (Function.update s.next e none) s.fullFrames l :=
    ⟨hl.1.update hel, hl.2⟩
  have hat : At (traverseSafeBegin (Function.update s.next e none) s.fullFrames ⟨none, none⟩)
      [] [] l [] := At.begin hl' ⟨rfl, rfl⟩ (by rwa [List.append_nil])
  obtain ⟨k, hk⟩ : ∃ k, l.length < k := ⟨_, Nat.lt_succ_self _⟩
  obtain ⟨L, Q₁, Q₂, q₁, q₂, hrun, rfl, rfl, hq₁, hq₂, hvar, hholds, hnext, hpass, hstop⟩ :=
    deferLoop_spec fh hat rfl hel (hbuf.trans hq) hk
  have hmap : (Q₁ ++ e :: Q₂).map (Function.update s.buf e (some fh)) =
      (q₁ ++ fh :: q₂).map some := by
    rw [List.map_append, List.map_append, List.map_cons, List.map_cons, hq₁, hq₂,
      Function.update_self]
  have hnd' : (Q₁ ++ e :: Q₂).Nodup :=
    List.nodup_middle.2 (List.nodup_cons.2 ⟨hel, hnd⟩)
  cases Q₂ with
  | nil =>
    rw [if_pos rfl] at hholds
    simp only [List.nil_append, List.append_nil] at hholds hmap hnd'
    have hlink : L.next e = none := by
      rw [hnext rfl]
      exact Function.update_self ..
    obtain ⟨next', head', htail, hholds', -⟩ := insertTail_spec hholds hnd' hlink
    refine ⟨{ s with
        next := next'
        buf := Function.update s.buf e (some fh)
        fullFrames := head'
        arrived := s.arrived ++ [fh] }, q₁, q₂, ⟨k, ?_⟩, rfl,
      ⟨Q₁ ++ [e], hholds', hnd', hmap⟩, rfl, rfl, hpass, hstop⟩
    simp only [deferFullFrame, hrun, Option.bind_eq_bind, Option.bind_some, hvar, List.head?_nil,
      htail]
    rfl
  | cons x Q₂ =>
    rw [if_neg (List.cons_ne_nil x Q₂), List.nil_append] at hholds
    refine ⟨{ s with
        next := L.next
        buf := Function.update s.buf e (some fh)
        fullFrames := L.head
        arrived := s.arrived ++ [fh] }, q₁, q₂, ⟨k, ?_⟩, rfl,
      ⟨Q₁ ++ e :: x :: Q₂, hholds, hnd', hmap⟩, rfl, rfl, hpass, hstop⟩
    simp only [deferFullFrame, hrun, Option.bind_eq_bind, Option.bind_some, hvar, List.head?_cons]
    rfl

/-- More rounds than are needed do not matter. -/
theorem deferLoop_mono {L L' : Loop A} (h : deferLoop buf e fh n L = some L') (hn : n ≤ fuel) :
    deferLoop buf e fh fuel L = some L' := by
  induction n generalizing L fuel with
  | zero => cases h
  | succ n ih =>
    obtain ⟨k, rfl⟩ : ∃ k, fuel = k + 1 := ⟨fuel - 1, by omega⟩
    rw [deferLoop] at h ⊢
    cases hvar : L.var with
    | none => rwa [hvar] at h
    | some cur =>
      rw [hvar] at h
      obtain ⟨g, hg, hrest⟩ := Option.bind_eq_some_iff.1 h
      show (buf cur).bind _ = _
      rw [hg, Option.bind_some]
      split_ifs at hrest ⊢ with hlt
      · exact hrest
      · exact ih hrest (by omega)

theorem deferFullFrame_mono {c : Option A} (h : deferFullFrame n c fh s = some t) (hn : n ≤ fuel) :
    deferFullFrame fuel c fh s = some t := by
  cases c with
  | none => exact h
  | some e =>
    obtain ⟨L, hL, hrest⟩ := Option.bind_eq_some_iff.1 h
    exact Option.bind_eq_some_iff.2 ⟨L, deferLoop_mono hL hn, hrest⟩

/-- The rounds that were enough do not matter. -/
theorem deferFullFrame_unique {c : Option A} {t' : Thread A}
    (h : deferFullFrame n c fh s = some t) (h' : deferFullFrame fuel c fh s = some t') : t = t' := by
  have h1 := deferFullFrame_mono h (Nat.le_max_left n fuel)
  have h2 := deferFullFrame_mono h' (Nat.le_max_right n fuel)
  exact Option.some.inj (h1.symm.trans h2)

/-- **What is taken** is the head of the queue. -/
theorem handleDeferredFullFrame_spec (hs : Queued s q) :
    handleDeferredFullFrame s = none ∧ q = [] ∨
      ∃ f q' t, handleDeferredFullFrame s = some t ∧ q = f :: q' ∧ Queued t q' ∧
        t.arrived = s.arrived ∧ t.taken = s.taken ++ [f] := by
  obtain ⟨l, hl, hnd, hq⟩ := hs
  have hfirst : s.fullFrames.first = l.head? := by
    have hf := hl.1.head
    rwa [Option.or_none] at hf
  cases l with
  | nil =>
    obtain rfl : q = [] := List.map_eq_nil_iff.1 hq.symm
    refine Or.inl ⟨?_, rfl⟩
    rw [handleDeferredFullFrame, removeHead, hfirst]
    rfl
  | cons a l =>
    obtain ⟨f, q, rfl⟩ : ∃ f q', q = f :: q' := by
      cases q with
      | nil => cases hq
      | cons f q => exact ⟨f, q, rfl⟩
    rw [List.map_cons, List.map_cons, List.cons.injEq] at hq
    rw [List.nodup_cons] at hnd
    have hlast : (if s.fullFrames.last = some a then none else s.fullFrames.last) = l.getLast? := by
      rw [hl.2]
      cases l with
      | nil => exact if_pos rfl
      | cons b l =>
        have hne : (a :: b :: l).getLast? ≠ some a := by
          rw [List.getLast?_cons_cons]
          intro h
          exact hnd.1 (List.mem_of_getLast? h)
        rw [if_neg hne, List.getLast?_cons_cons]
    refine Or.inr ⟨f, q,
      { s with
        next := Function.update s.next a none
        buf := Function.update s.buf a none
        fullFrames := ⟨s.next a, l.getLast?⟩
        taken := s.taken ++ [f] }, ?_, rfl, ⟨l, ⟨hl.1.2.update hnd.1, rfl⟩, hnd.2, ?_⟩, rfl, rfl⟩
    · rw [handleDeferredFullFrame, removeHead, hfirst]
      show (s.buf a).bind _ = _
      rw [hq.1, Option.bind_some, ← hlast]
      rfl
    · rw [← hq.2]
      refine List.map_congr_left fun b hb => Function.update_of_ne ?_ ..
      rintro rfl
      exact hnd.1 hb

/-! ## The runs -/

variable {w : UInt8} {ev : Event A} {evs : List (Event A)}

/-- **What a step does** to the queue. -/
inductive Moved (w : UInt8) (s t : Thread A) (q : List FullFrame) : Event A → Prop
  | lost {fh : FullFrame} : t = { s with arrived := s.arrived ++ [fh] } →
      Moved w s t q (.defer none fh)
  | queued {e : A} {fh : FullFrame} {q₁ q₂ : List FullFrame} : q = q₁ ++ q₂ →
      Queued t (q₁ ++ fh :: q₂) → t.arrived = s.arrived ++ [fh] → t.taken = s.taken →
      (∀ g ∈ q₁, ¬fh.oseqno < g.oseqno) → (∀ g, q₂.head? = some g → fh.oseqno < g.oseqno) →
      Moved w s t q (.defer (some e) fh)
  | taken {f : FullFrame} {q' : List FullFrame} : q = f :: q' → Queued t q' →
      t.arrived = s.arrived → t.taken = s.taken ++ [f] → Moved w s t q .take

theorem Step.moved (hq : Queued s q) (h : Step w s ev t) : Moved w s t q ev := by
  cases ev with
  | defer pktBuf fh =>
    obtain ⟨-, hfresh, n, hn⟩ := h
    cases pktBuf with
    | none => exact .lost (Option.some.inj hn).symm
    | some e =>
      obtain ⟨t', q₁, q₂, ⟨m, hm⟩, hparts, ht', harr, htk, hP, hR⟩ :=
        deferFullFrame_spec fh hq (hfresh e rfl)
      obtain rfl := deferFullFrame_unique hn hm
      exact .queued hparts ht' harr htk hP hR
  | take =>
    rcases handleDeferredFullFrame_spec hq with ⟨hnone, -⟩ | ⟨f, q', t', ht', hd, hq', harr, htk⟩
    · exact absurd (hnone.symm.trans h) (Option.some_ne_none t).symm
    · obtain rfl : t' = t := Option.some.inj (ht'.symm.trans h)
      exact .taken hd hq' harr htk

/-- Whatever happens there is a queue. -/
theorem Step.queued (hs : ∃ q, Queued s q) (h : Step w s ev t) : ∃ q, Queued t q := by
  obtain ⟨q, hq⟩ := hs
  cases h.moved hq with
  | lost ht => exact ⟨q, ht ▸ hq⟩
  | queued _ ht => exact ⟨_, ht⟩
  | taken _ ht => exact ⟨_, ht⟩

/-- A thread takes what is queued, in its order. -/
theorem takes_of_queued (hs : Queued s q) : Takes w s q := by
  induction q generalizing s with
  | nil =>
    refine ⟨s, .nil, (List.append_nil _).symm, ?_⟩
    rcases handleDeferredFullFrame_spec hs with ⟨hnone, -⟩ | ⟨f, q', t', -, hq, -⟩
    · exact hnone
    · cases hq
  | cons f q ih =>
    rcases handleDeferredFullFrame_spec hs with ⟨-, hq⟩ | ⟨f', q', u, hu, hq, hq', -, htk⟩
    · cases hq
    · obtain ⟨rfl, rfl⟩ := List.cons.inj hq
      obtain ⟨t, hrun, htaken, hend⟩ := ih hq'
      refine ⟨t, hrun.cons (e := .take) hu, ?_, hend⟩
      rw [htaken, htk, List.append_assoc, List.singleton_append]

/-- What is taken by some takes is the start of the queue. -/
theorem Queued.takes (hs : Queued s q) (h : Trace (Step w) s (List.replicate n .take) t) :
    t.taken = s.taken ++ q.take n ∧ Queued t (q.drop n) := by
  induction n generalizing t with
  | zero =>
    obtain rfl := h.eq_of_nil
    exact ⟨(List.append_nil _).symm, hs⟩
  | succ n ih =>
    rw [List.replicate_succ'] at h
    obtain ⟨u, hu, hlast⟩ := h.split
    obtain ⟨htk, hq⟩ := ih hu
    cases hlast.step_of_single.moved hq with
    | @taken f q' hd hq' _ htk' =>
    have hf : q[n]? = some f := by
      rw [← List.head?_drop, hd]
      rfl
    refine ⟨?_, ?_⟩
    · rw [htk', htk, List.take_add_one, hf, List.append_assoc]
      rfl
    · rw [← List.tail_drop, hd]
      exact hq'

theorem Queued.eq_of_takes {q' : List FullFrame} (hs : Queued s q) (h : Takes w s q') : q' = q := by
  obtain ⟨t, hrun, htk, hend⟩ := h
  obtain ⟨htk', hq⟩ := hs.takes hrun
  have hpre : q' = q.take q'.length := List.append_cancel_left (htk.symm.trans htk')
  rcases handleDeferredFullFrame_spec hq with ⟨-, hd⟩ | ⟨f, q'', t', ht', -⟩
  · rw [hpre]
    exact List.take_of_length_le (List.drop_eq_nil_iff.1 hd)
  · exact absurd (hend.symm.trans ht') (Option.some_ne_none t').symm

/-- In terms of the queue. -/
theorem Queued.inOrder_iff (hs : Queued s q) :
    InOrder w s ↔ (s.taken ++ q).Perm s.arrived ∧
      q.Pairwise fun f g => dist w f ≤ dist w g := by
  constructor
  · rintro ⟨q', hq', h⟩
    rwa [hs.eq_of_takes hq'] at h
  · intro h
    exact ⟨q, takes_of_queued hs, h⟩

/-- **A step keeps what is asked exactly when the condition is met.** -/
theorem Step.inOrder_iff (hJ : ∃ q, Queued s q) (hs : InOrder w s) (h : Step w s ev t) :
    InOrder w t ↔ Met w s ev := by
  obtain ⟨q, hq⟩ := hJ
  obtain ⟨hperm, hsorted⟩ := hq.inOrder_iff.1 hs
  cases h.moved hq with
  | @lost fh ht =>
    -- without memory the frame is lost
    refine iff_of_false ?_ fun hm => absurd hm.1 (by simp)
    intro hin
    subst ht
    have hq' : Queued { s with arrived := s.arrived ++ [fh] } q := hq
    have hlen := (hq'.inOrder_iff.1 hin).1.length_eq
    have hlen' := hperm.length_eq
    simp only [List.length_append, List.length_singleton] at hlen hlen'
    omega
  | @queued e fh q₁ q₂ hparts ht harr htk hP hR =>
    subst hparts
    have hstr := sorted_insert_iff hsorted hP hR
    rw [ht.inOrder_iff]
    constructor
    · rintro ⟨-, hsorted'⟩
      exact ⟨rfl, _, hq, hstr.1 hsorted'⟩
    · rintro ⟨-, q', hq', hst⟩
      rw [Queued.unique hq' hq] at hst
      refine ⟨?_, hstr.2 hst⟩
      rw [harr, htk, ← List.append_assoc]
      have hmid : (s.taken ++ q₁ ++ fh :: q₂).Perm (fh :: (s.taken ++ q₁ ++ q₂)) :=
        List.perm_middle
      rw [List.append_assoc _ q₁ q₂] at hmid
      exact hmid.trans ((hperm.cons fh).trans (List.perm_append_singleton fh _).symm)
  | taken hparts ht harr htk =>
    subst hparts
    refine iff_of_true (ht.inOrder_iff.2 ⟨?_, (List.pairwise_cons.1 hsorted).2⟩) trivial
    rw [harr, htk, List.append_assoc]
    exact hperm

/-- **The frames that are deferred are kept and taken in order** exactly in the
runs in which there is memory and each comparison is right, and whatever is
deferred is so in a number of rounds. -/
theorem inOrder_iff_met (A : Type) [DecidableEq A] (w : UInt8) :
    (∀ evs t, Trace (Step w) (Thread.init A) evs t →
      (∀ e fh, t.buf e = none → dist w fh < 128 → ∃ u, Step w t (.defer (some e) fh) u)) ∧
    ∀ evs t, Trace (fun s ev u => Step w s ev u ∧ InOrder w u) (Thread.init A) evs t ↔
      Trace (fun s ev u => Step w s ev u ∧ Met w s ev) (Thread.init A) evs t := by
  have hinit : Queued (Thread.init A) [] := ⟨[], ⟨rfl, rfl⟩, List.nodup_nil, rfl⟩
  constructor
  · intro evs t h e fh he hw
    obtain ⟨q, hq⟩ := h.inv_state (I := fun s => ∃ q, Queued s q) ⟨[], hinit⟩
      fun s ev u hs hu => hu.queued hs
    obtain ⟨u, -, -, hrun, -⟩ := deferFullFrame_spec fh hq he
    exact ⟨u, hw, fun e' he' => Option.some.inj he' ▸ he, hrun⟩
  · intro evs t
    exact Trace.kept_iff_met (J := fun s => ∃ q, Queued s q) (fun s ev u hs hu => hu.queued hs)
      (fun s ev u hJ hs hu => hu.inOrder_iff hJ hs) ⟨[], hinit⟩
      (hinit.inOrder_iff.2 ⟨List.Perm.nil, List.Pairwise.nil⟩)

/-- A frame with a sequence number, and zeros. -/
def numbered (oseqno : UInt8) : FullFrame := ⟨[128, 1, 0, 1, 0, 0, 0, 0, oseqno, 0, 6, 0], by simp⟩

/-- **A frame behind the wrap is taken first**: 0 arrives after 255. -/
theorem not_inOrder : ¬∀ (w : UInt8) (evs : List (Event ℕ)) (t : Thread ℕ),
    Trace (Step w) (Thread.init ℕ) evs t → InOrder w t := by
  intro h
  obtain ⟨s, hs⟩ : ∃ s, deferFullFrame 1 (some 0) (numbered 255) (Thread.init ℕ) = some s :=
    ⟨_, rfl⟩
  obtain ⟨t, ht⟩ : ∃ t, deferFullFrame 1 (some 1) (numbered 0) s = some t := by
    cases hs
    exact ⟨_, rfl⟩
  have hstep : Step 200 (Thread.init ℕ) (.defer (some 0) (numbered 255)) s :=
    ⟨by decide, fun _ he => Option.some.inj he ▸ rfl, 1, hs⟩
  have hstep' : Step 200 s (.defer (some 1) (numbered 0)) t := by
    refine ⟨by decide, fun _ he => Option.some.inj he ▸ ?_, 1, ht⟩
    cases hs
    rfl
  have hq : Queued t [numbered 0, numbered 255] := by
    cases hs
    cases ht
    exact ⟨[1, 0], ⟨⟨rfl, rfl, rfl⟩, rfl⟩, by decide, rfl⟩
  have hsorted := (hq.inOrder_iff.1 (h 200 _ t ((Trace.nil.snoc hstep).snoc hstep'))).2
  have hle := (List.pairwise_cons.1 hsorted).1 (numbered 255) List.mem_cons_self
  exact absurd hle (by decide)

end List

end Deferred

end Iax2

end Trismedia
