import Trismedia.Common.Ring
import Trismedia.Jitter.Model
/-!
# The queue of frames

`QueueOk` says how the queue and the free list stand in memory: the frames
are a ring in the order of their timestamps, and the free frames a list of
their own. Each function of the queue has one lemma, which says that it
returns and what it leaves: a frame is put in after those that are not
later, and the head is taken out.
-/


namespace Trismedia

namespace Jitter

open Ring

/-- A frame in the queue: its address and what it holds. -/
abbrev Item := ℕ × FrameData

/-- The frame of an item. -/
def itemNode (x : Item) (next prev : ℕ) : JbFrame := ⟨x.2, next, prev⟩

/-- The frames of the ring. -/
abbrev FrameRing (mem : ℕ → Option JbFrame) (q : List Item) : Prop :=
  IsRing mem Prod.fst itemNode q

/-- The free list from `p` on. -/
def FreeList (mem : ℕ → Option JbFrame) : ℕ → List ℕ → Prop
  | p, [] => p = 0
  | p, a :: l => p = a ∧ a ≠ 0 ∧ ∃ f, mem a = some f ∧ FreeList mem f.next l

/-- **The queue in memory.** -/
structure QueueOk (jb : Jitterbuf) (q : List Item) (fl : List ℕ) : Prop where
  frames : jb.frames = first Prod.fst q 0
  ring : FrameRing jb.mem q
  nonnull : ∀ x ∈ q, x.1 ≠ 0
  freeList : FreeList jb.mem jb.free fl
  nodup : (q.map Prod.fst ++ fl).Nodup
  sorted : q.Pairwise fun x y => x.2.ts ≤ y.2.ts
  cur : jb.info.framesCur = q.length

variable {jb jb' : Jitterbuf} {mem mem' : ℕ → Option JbFrame} {q l₁ l₂ : List Item}
variable {fl : List ℕ} {h x y : Item} {p fuel malloc data : ℕ} {d : FrameData}
variable {ts ms resyncTs : ℤ} {type : JbFrameType}

theorem FreeList.frame (hf : FreeList mem p fl) (hm : ∀ a ∈ fl, mem' a = mem a) :
    FreeList mem' p fl := by
  induction fl generalizing p with
  | nil => exact hf
  | cons a l ih =>
    obtain ⟨hp, ha, f, hfa, hl⟩ := hf
    refine ⟨hp, ha, f, (hm a List.mem_cons_self).trans hfa, ih hl fun b hb => ?_⟩
    exact hm b (List.mem_cons_of_mem _ hb)

/-- The same queue, where only counters differ. -/
theorem QueueOk.congr (hq : QueueOk jb q fl) (hframes : jb'.frames = jb.frames)
    (hfree : jb'.free = jb.free) (hmem : jb'.mem = jb.mem)
    (hcur : jb'.info.framesCur = jb.info.framesCur) : QueueOk jb' q fl where
  frames := hframes.trans hq.frames
  ring := hmem ▸ hq.ring
  nonnull := hq.nonnull
  freeList := by
    rw [hfree, hmem]
    exact hq.freeList
  nodup := hq.nodup
  sorted := hq.sorted
  cur := hcur.trans hq.cur

theorem QueueOk.nodup_queue (hq : QueueOk jb q fl) : (q.map Prod.fst).Nodup :=
  (List.nodup_append.1 hq.nodup).1

/-- The queue is empty where `frames` is null. -/
theorem QueueOk.frames_eq_zero (hq : QueueOk jb q fl) : jb.frames = 0 ↔ q = [] := by
  rw [hq.frames]
  cases q with
  | nil => simp [first]
  | cons x q => simpa [first] using hq.nonnull x List.mem_cons_self

/-- The memory of the head and of the frame before it. -/
theorem QueueOk.head (hq : QueueOk jb (h :: q) free) :
    jb.frames = h.1 ∧
      jb.mem h.1 = some (itemNode h (first Prod.fst q h.1) (last Prod.fst q h.1)) :=
  ⟨hq.frames, hq.ring.head⟩

/-- The last frame of the queue. -/
theorem lastItem (hr : FrameRing mem (h :: q)) :
    ∃ zs z n p, h :: q = zs ++ [z] ∧ last Prod.fst q h.1 = z.1 ∧ mem z.1 = some (itemNode z n p) := by
  obtain ⟨zs, z, hzs, hz⟩ := exists_concat Prod.fst h q 0
  obtain ⟨n, p, hcell⟩ := hr.cell (x := z) (by simp [hzs])
  exact ⟨zs, z, n, p, hzs, hz.symm, hcell⟩

theorem QueueOk.queueNext (hq : QueueOk jb q fl) :
    queueNext jb = some (match q with | [] => -1 | x :: _ => x.2.ts) := by
  cases q with
  | nil =>
    unfold Jitter.queueNext
    rw [if_neg (not_not.2 (hq.frames_eq_zero.2 rfl))]
    rfl
  | cons x q =>
    have hne : jb.frames ≠ 0 := fun h0 => by cases hq.frames_eq_zero.1 h0
    obtain ⟨hf, hmem⟩ := hq.head
    unfold Jitter.queueNext
    rw [if_pos hne, hf, hmem]
    rfl

theorem QueueOk.queueLast (hq : QueueOk jb q fl) :
    queueLast jb = some (match q.getLast? with | none => -1 | some x => x.2.ts) := by
  cases q with
  | nil =>
    unfold Jitter.queueLast
    rw [if_neg (not_not.2 (hq.frames_eq_zero.2 rfl))]
    rfl
  | cons x q =>
    have hne : jb.frames ≠ 0 := fun h0 => by cases hq.frames_eq_zero.1 h0
    obtain ⟨hf, hmem⟩ := hq.head
    obtain ⟨zs, z, n, p, hzs, hz, hzmem⟩ := lastItem hq.ring
    unfold Jitter.queueLast
    rw [if_pos hne, hf, hmem]
    simp only [Option.bind_eq_bind, Option.bind_some, itemNode]
    rw [hz, hzmem, hzs, List.getLast?_concat]
    rfl

/-! ## Putting a frame in -/

/-- **The loop goes back** to the first of the frames that are later, or
all round to the head. -/
theorem queueBack_spec (hr : FrameRing mem (h :: (l₁ ++ l₂)))
    (hnd : ((h :: (l₁ ++ l₂)).map Prod.fst).Nodup) (hl₂ : ∀ y ∈ l₂, resyncTs < y.2.ts)
    (hfuel : l₁.length < fuel) :
    ∃ k₁ k₂, l₁ ++ l₂ = k₁ ++ k₂ ∧
      queueBack mem h.1 resyncTs fuel (first Prod.fst l₂ h.1) = some (first Prod.fst k₂ h.1) ∧
      (∀ y ∈ k₂, resyncTs < y.2.ts) ∧ ∀ y ∈ k₁.getLast?, y.2.ts ≤ resyncTs := by
  induction fuel generalizing l₁ l₂ with
  | zero => cases hfuel
  | succ fuel ih =>
    -- the frame at `p` and the one before it
    have hp : ∃ n y, mem (first Prod.fst l₂ h.1) = some (itemNode y n (last Prod.fst l₁ h.1)) := by
      cases l₂ with
      | nil =>
        rw [List.append_nil] at hr
        exact ⟨_, h, hr.head⟩
      | cons y l₂ =>
        have hsplit : FrameRing mem ((h :: l₁) ++ y :: l₂) := hr
        obtain ⟨n, hn⟩ := hsplit.before
        exact ⟨n, y, hn⟩
    obtain ⟨n, y, hp⟩ := hp
    rcases List.eq_nil_or_concat' l₁ with rfl | ⟨k, z, rfl⟩
    · obtain ⟨n', p', hh⟩ := hr.cell List.mem_cons_self
      refine ⟨[], l₂, rfl, ?_, hl₂, by simp⟩
      have hlast : last Prod.fst ([] : List Item) h.1 = h.1 := rfl
      rw [hlast] at hp
      simp only [queueBack, hp, Option.bind_eq_bind, Option.bind_some, itemNode, hh]
      rw [if_neg fun hc => hc.2 rfl]
      rfl
    · have hz : last Prod.fst (k ++ [z]) h.1 = z.1 := by simp [last]
      rw [hz] at hp
      obtain ⟨n', p', hzmem⟩ := hr.cell (x := z) (by simp)
      have hzh : z.1 ≠ h.1 := by
        intro heq
        rw [List.map_cons, List.nodup_cons] at hnd
        exact hnd.1 (heq ▸ List.mem_map_of_mem (by simp))
      simp only [queueBack, hp, Option.bind_eq_bind, Option.bind_some, itemNode, hzmem]
      by_cases hlate : resyncTs < z.2.ts
      · rw [if_pos ⟨hlate, hzh⟩]
        have hr' : FrameRing mem (h :: (k ++ z :: l₂)) := by simpa using hr
        have hlater : ∀ y ∈ z :: l₂, resyncTs < y.2.ts := by
          intro y hy
          rcases List.mem_cons.1 hy with rfl | hy
          · exact hlate
          · exact hl₂ y hy
        have hk : k.length < fuel := by
          rw [List.length_append, List.length_singleton] at hfuel
          omega
        obtain ⟨k₁, k₂, hk, hback, hk₂, hk₁⟩ := ih hr' (by simpa using hnd) hlater hk
        exact ⟨k₁, k₂, by simpa using hk, hback, hk₂, hk₁⟩
      · rw [if_neg fun hc => hlate hc.1]
        refine ⟨k ++ [z], l₂, rfl, rfl, hl₂, ?_⟩
        intro y hy
        rw [List.getLast?_concat, Option.mem_some_iff] at hy
        exact hy ▸ not_lt.1 hlate

/-- **A frame is linked in** before the one a ring is read from. -/
theorem linkBefore_spec {a : ℕ} (hr : FrameRing mem (y :: q))
    (hnd : ((y :: q).map Prod.fst).Nodup) (ha : a ∉ (y :: q).map Prod.fst) (d : FrameData) :
    ∃ mem', linkBefore mem a y.1 d = some mem' ∧ FrameRing mem' ((a, d) :: y :: q) ∧
      ∀ b, b ≠ a → b ∉ (y :: q).map Prod.fst → mem' b = mem b := by
  obtain ⟨mem₁, mem₂, z, n, p, h₁, hy, h₂, hz, hring⟩ := hr.insert (x := (a, d)) hnd ha
  have hyhead := hr.head
  have hlast := last_mem Prod.fst q y.1
  refine ⟨_, ?_, hring, fun b hb hbq => ?_⟩
  · have h₁' : mem₁ = Function.update mem a
        (some ⟨d, y.1, (itemNode y (first Prod.fst q y.1) (last Prod.fst q y.1)).prev⟩) := h₁
    have hprev : setPrev mem₁ y.1 a = some mem₂ := by
      simp only [setPrev, hy, hyhead, Option.bind_eq_bind, Option.bind_some, h₂]
      rfl
    simp only [linkBefore, hyhead, Option.bind_eq_bind, Option.bind_some]
    rw [← h₁', hprev]
    simp only [Option.bind_some, setNext, Option.bind_eq_bind, itemNode, hz]
    rfl
  · have hbl : b ≠ last Prod.fst q y.1 := by
      intro hbl
      rw [hbl] at hbq
      rcases hlast with heq | hmem
      · rw [heq] at hbq
        exact hbq (List.mem_map_of_mem List.mem_cons_self)
      · exact hbq (List.mem_cons_of_mem _ hmem)
    have hby : b ≠ y.1 := fun heq => hbq (heq ▸ List.mem_map_of_mem List.mem_cons_self)
    rw [Function.update_of_ne hbl, h₂, Function.update_of_ne hby, h₁, Function.update_of_ne hb]

/-- The same before any frame, or at the end. -/
theorem linkBefore_middle {a : ℕ} {k₁ k₂ : List Item} (hr : FrameRing mem (h :: (k₁ ++ k₂)))
    (hnd : ((h :: (k₁ ++ k₂)).map Prod.fst).Nodup) (ha : a ∉ (h :: (k₁ ++ k₂)).map Prod.fst)
    (d : FrameData) :
    ∃ mem', linkBefore mem a (first Prod.fst k₂ h.1) d = some mem' ∧
      FrameRing mem' (h :: (k₁ ++ (a, d) :: k₂)) ∧
      ∀ b, b ≠ a → b ∉ (h :: (k₁ ++ k₂)).map Prod.fst → mem' b = mem b := by
  cases k₂ with
  | nil =>
    rw [List.append_nil] at hr hnd ha ⊢
    obtain ⟨mem', hlink, hring, hframe⟩ := linkBefore_spec hr hnd ha d
    have hfront : FrameRing mem' ([(a, d)] ++ h :: k₁) := hring
    exact ⟨mem', hlink, hfront.rotate, hframe⟩
  | cons y k₂ =>
    have hperm : (y :: (k₂ ++ h :: k₁)).Perm (h :: (k₁ ++ y :: k₂)) := by
      have hswap : ((y :: k₂) ++ (h :: k₁)).Perm ((h :: k₁) ++ (y :: k₂)) := List.perm_append_comm
      simpa using hswap
    have hsplit : FrameRing mem ((h :: k₁) ++ y :: k₂) := hr
    have hrot : FrameRing mem (y :: (k₂ ++ h :: k₁)) := hsplit.rotate
    obtain ⟨mem', hlink, hring, hframe⟩ := linkBefore_spec hrot
      ((hperm.map Prod.fst).nodup_iff.2 hnd) (fun hmem => ha ((hperm.map _).mem_iff.1 hmem)) d
    refine ⟨mem', hlink, ?_, fun b hb hbq => hframe b hb fun hmem => hbq ?_⟩
    · have hfront : FrameRing mem' (((a, d) :: y :: k₂) ++ h :: k₁) := hring
      exact hfront.rotate
    · exact (hperm.map _).mem_iff.1 hmem

/-- The frame is put in after those that are not later. -/
def Inserted (x : Item) (q q' : List Item) : Prop :=
  ∃ k₁ k₂, q = k₁ ++ k₂ ∧ q' = k₁ ++ x :: k₂ ∧ (∀ y ∈ k₁, y.2.ts ≤ x.2.ts) ∧
    ∀ y ∈ k₂, x.2.ts < y.2.ts

theorem Inserted.sorted {q' : List Item} (hi : Inserted x q q')
    (hs : q.Pairwise fun x y => x.2.ts ≤ y.2.ts) : q'.Pairwise fun x y => x.2.ts ≤ y.2.ts := by
  obtain ⟨k₁, k₂, rfl, rfl, hk₁, hk₂⟩ := hi
  rw [List.pairwise_append] at hs
  rw [List.pairwise_append, List.pairwise_cons]
  refine ⟨hs.1, ⟨fun y hy => (hk₂ y hy).le, hs.2.1⟩, fun y hy z hz => ?_⟩
  rcases List.mem_cons.1 hz with rfl | hz
  · exact hk₁ y hy
  · exact hs.2.2 y hy z hz

theorem Inserted.perm {q' : List Item} (hi : Inserted x q q') : q'.Perm (x :: q) := by
  obtain ⟨k₁, k₂, rfl, rfl, -, -⟩ := hi
  exact List.perm_middle

/-- **Frames of one timestamp stay in the order of their arrival.** -/
theorem Inserted.filter {q' : List Item} (hi : Inserted x q q') (t : ℤ) :
    (q'.map Prod.snd).filter (fun d => d.ts = t) =
      (q.map Prod.snd).filter (fun d => d.ts = t) ++ [x.2].filter (fun d => d.ts = t) := by
  obtain ⟨k₁, k₂, rfl, rfl, -, hk₂⟩ := hi
  by_cases hx : x.2.ts = t
  · have hnone : (k₂.map Prod.snd).filter (fun d => d.ts = t) = [] := by
      rw [List.filter_eq_nil_iff]
      intro d hd
      obtain ⟨y, hy, rfl⟩ := List.mem_map.1 hd
      have := hk₂ y hy
      simp only [decide_eq_true_eq]
      omega
    simp [hx, hnone]
  · simp [hx]

/-- **The memory for a frame.** It is null where the free list is empty
and nothing was allocated. -/
theorem QueueOk.queueFrame (hq : QueueOk jb q fl) (hm : malloc ≠ 0 → jb.mem malloc = none) :
    ∃ a fl', Jitter.queueFrame jb malloc =
        some ({ jb with free := if jb.free ≠ 0 then first id fl' 0 else jb.free }, a) ∧
      (a = 0 ↔ jb.free = 0 ∧ malloc = 0) ∧
      (a ≠ 0 → a ∉ q.map Prod.fst ∧ a ∉ fl') ∧
      QueueOk { jb with free := if jb.free ≠ 0 then first id fl' 0 else jb.free } q fl' := by
  by_cases h0 : jb.free = 0
  · have hfl : fl = [] := by
      cases fl with
      | nil => rfl
      | cons a l =>
        obtain ⟨hp, ha, -⟩ := hq.freeList
        exact absurd (hp.symm.trans h0) ha
    refine ⟨malloc, fl, ?_, ?_, fun hne => ⟨?_, ?_⟩, ?_⟩
    · unfold Jitter.queueFrame
      rw [if_neg (not_not.2 h0), if_neg (not_not.2 h0)]
      rfl
    · simp [h0]
    · intro hmem
      obtain ⟨x, hx, rfl⟩ := List.mem_map.1 hmem
      obtain ⟨n, p, hcell⟩ := hq.ring.cell hx
      rw [hm hne] at hcell
      cases hcell
    · simp [hfl]
    · exact hq.congr rfl (by simp [h0]) rfl rfl
  · cases fl with
    | nil => exact absurd hq.freeList h0
    | cons a l =>
      obtain ⟨hp, ha, f, hf, hl⟩ := hq.freeList
      have hnd := hq.nodup
      rw [List.nodup_append, List.nodup_cons] at hnd
      have hfree : (if jb.free ≠ 0 then first id l 0 else jb.free) = f.next := by
        rw [if_pos h0]
        cases l with
        | nil => exact hl.symm
        | cons b l => exact hl.1.symm
      refine ⟨a, l, ?_, ?_, fun _ => ⟨?_, hnd.2.1.1⟩, ?_⟩
      · unfold Jitter.queueFrame
        rw [if_pos h0, hfree, hp, hf]
        rfl
      · simp [ha, h0]
      · intro hmem
        exact hnd.2.2 a hmem a List.mem_cons_self rfl
      · rw [hfree]
        refine ⟨hq.frames, hq.ring, hq.nonnull, hl, ?_, hq.sorted, hq.cur⟩
        rw [List.nodup_append]
        exact ⟨hnd.1, hnd.2.1.2, fun b hb c hc => hnd.2.2 b hb c (List.mem_cons_of_mem _ hc)⟩

/-- The free list where another cell changes. -/
theorem QueueOk.putFree {jb₁ : Jitterbuf} {a : ℕ} (hq : QueueOk jb₁ q fl) (hafl : a ∉ fl)
    (hframe : ∀ b, b ≠ a → b ∉ q.map Prod.fst → mem' b = jb₁.mem b) :
    FreeList mem' jb₁.free fl := by
  refine hq.freeList.frame fun b hb => hframe b (fun heq => hafl (heq ▸ hb)) fun hmem => ?_
  exact (List.nodup_append.1 hq.nodup).2.2 b hmem b hb rfl

/-- The addresses once a frame was put in. -/
theorem Inserted.nodup {q' : List Item} (hi : Inserted x q q')
    (hnd : (q.map Prod.fst ++ fl).Nodup) (hxq : x.1 ∉ q.map Prod.fst) (hxfl : x.1 ∉ fl) :
    (q'.map Prod.fst ++ fl).Nodup := by
  have hperm : (q'.map Prod.fst ++ fl).Perm (x.1 :: (q.map Prod.fst ++ fl)) := by
    have hmap := hi.perm.map Prod.fst
    exact hmap.append_right fl
  rw [hperm.nodup_iff, List.nodup_cons, List.mem_append]
  exact ⟨fun hmem => hmem.elim hxq hxfl, hnd⟩

/-- **`queue_put` puts the frame in**, unless there is no memory for it:
then nothing is queued and nothing says so. -/
theorem queuePut_spec (data : ℕ) (type : JbFrameType) (ms ts : ℤ) (hq : QueueOk jb q fl)
    (hm : malloc ≠ 0 → jb.mem malloc = none) (hfuel : q.length ≤ fuel) :
    (jb.free = 0 ∧ malloc = 0 → queuePut fuel jb malloc data type ms ts = some (jb, false)) ∧
    (¬ (jb.free = 0 ∧ malloc = 0) → ∃ jb' head a q' fl',
      queuePut fuel jb malloc data type ms ts = some (jb', head) ∧ QueueOk jb' q' fl' ∧
        Inserted (a, ⟨data, ts - jb.info.resyncOffset, ms, type⟩) q q') := by
  obtain ⟨a, fl', hframe, hzero, hnew, hq₁⟩ := hq.queueFrame hm
  constructor
  · rintro ⟨hf, hmal⟩
    obtain rfl : a = 0 := hzero.2 ⟨hf, hmal⟩
    simp only [queuePut, hframe, Option.bind_eq_bind, Option.bind_some]
    rw [if_pos trivial, if_neg (not_not.2 hf)]
    rfl
  · intro hsome
    have ha : a ≠ 0 := fun h0 => hsome (hzero.1 h0)
    obtain ⟨haq, hafl⟩ := hnew ha
    set jb₁ : Jitterbuf := { jb with free := if jb.free ≠ 0 then first id fl' 0 else jb.free }
      with hjb₁
    set d : FrameData := ⟨data, ts - jb.info.resyncOffset, ms, type⟩ with hd
    cases q with
    | nil =>
      have hframes : jb₁.frames = 0 := hq₁.frames
      refine ⟨{ jb₁ with
        info := { jb₁.info with framesCur := jb₁.info.framesCur + 1 }
        frames := a
        mem := Function.update jb₁.mem a (some ⟨d, a, a⟩) }, true, a, [(a, d)], fl', ?_, ?_,
        [], [], rfl, rfl, by simp, by simp⟩
      · simp only [queuePut, hframe, Option.bind_eq_bind, Option.bind_some, if_neg ha]
        rw [if_pos hframes]
        rfl
      · have hring : FrameRing (Function.update jb₁.mem a (some (itemNode (a, d) a a))) [(a, d)] :=
          IsRing.singleton (a, d)
        refine ⟨rfl, hring, by simpa using ha,
          hq₁.putFree hafl fun b hb _ => Function.update_of_ne hb .., ?_, by simp, ?_⟩
        · simpa using ⟨hafl, (List.nodup_append.1 hq₁.nodup).2.1⟩
        · have hcur : jb₁.info.framesCur = 0 := by simpa using hq₁.cur
          simp [hcur]
    | cons h q =>
      obtain ⟨hframes, hhead⟩ := hq₁.head
      have hne : jb₁.frames ≠ 0 := fun h0 => by cases hq₁.frames_eq_zero.1 h0
      have hnd : ((h :: q).map Prod.fst).Nodup := hq₁.nodup_queue
      have hcons := hq.sorted
      rw [List.pairwise_cons] at hcons
      have hcur := hq₁.cur
      by_cases hfirst : d.ts < h.2.ts
      · -- the frame is the new head
        obtain ⟨mem', hlink, hring, hfr⟩ := linkBefore_spec hq₁.ring hnd haq d
        have hi : Inserted (a, d) (h :: q) ((a, d) :: h :: q) := by
          refine ⟨[], h :: q, rfl, rfl, by simp, fun y hy => ?_⟩
          rcases List.mem_cons.1 hy with rfl | hy
          · exact hfirst
          · exact hfirst.trans_le (hcons.1 y hy)
        refine ⟨{ jb₁ with
          frames := a
          mem := mem'
          info := { jb₁.info with
            framesCur := jb₁.info.framesCur + 1
            framesOoo := jb₁.info.framesOoo + 1 } }, true, a, _, fl', ?_, ?_, hi⟩
        · simp only [queuePut, hframe, Option.bind_eq_bind, Option.bind_some, if_neg ha]
          rw [if_neg hne, hframes, hhead]
          simp only [Option.bind_some, itemNode]
          rw [if_pos hfirst, hlink]
          rfl
        · refine ⟨rfl, hring, ?_, hq₁.putFree hafl hfr, hi.nodup hq₁.nodup haq hafl,
            hi.sorted hq.sorted, ?_⟩
          · intro y hy
            rcases List.mem_cons.1 hy with rfl | hy
            · exact ha
            · exact hq.nonnull y hy
          · simp only [hcur, List.length_cons]
            push_cast
            rfl
      · -- the frame goes in after the head
        have hr' : FrameRing jb₁.mem (h :: (q ++ [])) := by simpa using hq₁.ring
        have hnone : ∀ y ∈ ([] : List Item), d.ts < y.2.ts := by simp
        have hlen : q.length < fuel := hfuel
        obtain ⟨k₁, k₂, hk, hback, hk₂, hk₁⟩ := queueBack_spec hr' (by simpa using hnd) hnone hlen
        rw [List.append_nil] at hk
        subst hk
        obtain ⟨mem', hlink, hring, hfr⟩ := linkBefore_middle hq₁.ring hnd haq d
        have hi : Inserted (a, d) (h :: (k₁ ++ k₂)) (h :: (k₁ ++ (a, d) :: k₂)) := by
          refine ⟨h :: k₁, k₂, rfl, rfl, fun y hy => ?_, hk₂⟩
          rcases List.mem_cons.1 hy with rfl | hy
          · exact not_lt.1 hfirst
          · rcases List.eq_nil_or_concat' k₁ with rfl | ⟨k, z, rfl⟩
            · cases hy
            · have hz : z.2.ts ≤ d.ts := hk₁ z (by simp)
              have hpw := (List.pairwise_append.1 hcons.2).1
              rw [List.pairwise_append] at hpw
              rcases List.mem_append.1 hy with hy | hy
              · exact (hpw.2.2 y hy z List.mem_cons_self).trans hz
              · rw [List.mem_singleton.1 hy]
                exact hz
        obtain ⟨zs, z, n, p, hzs, hz, hzmem⟩ := lastItem hq₁.ring
        refine ⟨{ jb₁ with
          mem := mem'
          info := { jb₁.info with
            framesCur := jb₁.info.framesCur + 1
            framesOoo := if d.ts < z.2.ts then jb₁.info.framesOoo + 1
              else jb₁.info.framesOoo } }, false, a, _, fl', ?_, ?_, hi⟩
        · simp only [queuePut, hframe, Option.bind_eq_bind, Option.bind_some, if_neg ha]
          rw [if_neg hne, hframes, hhead]
          simp only [Option.bind_some, itemNode]
          rw [if_neg hfirst, hz, hzmem]
          simp only [Option.bind_some, itemNode]
          have hstart : first Prod.fst ([] : List Item) h.1 = h.1 := rfl
          rw [hstart] at hback
          rw [hback]
          simp only [Option.bind_some]
          rw [hlink]
          rfl
        · refine ⟨hframes, hring, ?_, hq₁.putFree hafl hfr, hi.nodup hq₁.nodup haq hafl,
            hi.sorted hq.sorted, ?_⟩
          · intro y hy
            rcases List.mem_cons.1 (hi.perm.mem_iff.1 hy) with rfl | hy
            · exact ha
            · exact hq.nonnull y hy
          · rw [hi.perm.length_eq]
            simp only [hcur, List.length_cons]
            push_cast
            rfl

/-! ## Taking the head out -/

/-- **`_queue_get` takes the head out** where it is due. -/
theorem queueGet_spec (hq : QueueOk jb q fl) (ts : ℤ) (all : Bool) :
    (∀ h q', q = h :: q' → all = true ∨ h.2.ts ≤ ts → ∃ jb' f,
      queueGet jb ts all = some (jb', some f) ∧ f.toFrameData = h.2 ∧
        QueueOk jb' q' (h.1 :: fl)) ∧
    ((∀ h q', q = h :: q' → ¬ (all = true ∨ h.2.ts ≤ ts)) →
      queueGet jb ts all = some (jb, none)) := by
  constructor
  · rintro h q' rfl hdue
    obtain ⟨hframes, hhead⟩ := hq.head
    have hne : jb.frames ≠ 0 := fun h0 => by cases hq.frames_eq_zero.1 h0
    have hnd := hq.nodup_queue
    have hall := hq.nodup
    rw [List.map_cons, List.cons_append, List.nodup_cons] at hall
    have hnd' : (q'.map Prod.fst ++ h.1 :: fl).Nodup := by
      have hperm : (q'.map Prod.fst ++ h.1 :: fl).Perm (h.1 :: (q'.map Prod.fst ++ fl)) :=
        List.perm_middle
      rw [hperm.nodup_iff, List.nodup_cons]
      exact hall
    have hcur : jb.info.framesCur - 1 = q'.length := by
      rw [hq.cur]
      simp
    have hsorted := (List.pairwise_cons.1 hq.sorted).2
    have hnonnull : ∀ x ∈ q', x.1 ≠ 0 := fun x hx => hq.nonnull x (List.mem_cons_of_mem _ hx)
    have hh : h.1 ≠ 0 := hq.nonnull h List.mem_cons_self
    have hfree : ∀ {m : ℕ → Option JbFrame} {p : ℕ},
        (∀ b, b ∉ (h :: q').map Prod.fst → m b = jb.mem b) →
        FreeList (Function.update m h.1 (some ⟨h.2, jb.free, p⟩)) h.1 (h.1 :: fl) := by
      intro m p hm
      refine ⟨rfl, hh, _, Function.update_self .., hq.freeList.frame fun b hb => ?_⟩
      have hbh : b ≠ h.1 := fun heq => hall.1 (heq ▸ List.mem_append_right _ hb)
      rw [Function.update_of_ne hbh]
      exact hm b fun hmem => (List.nodup_append.1 hq.nodup).2.2 b hmem b hb rfl
    cases q' with
    | nil =>
      -- the only frame
      have hself : jb.mem h.1 = some ⟨h.2, h.1, h.1⟩ := hhead
      refine ⟨{ jb with
        mem := Function.update (Function.update (Function.update jb.mem h.1
          (some ⟨h.2, h.1, h.1⟩)) h.1 (some ⟨h.2, h.1, h.1⟩)) h.1 (some ⟨h.2, jb.free, h.1⟩)
        frames := 0
        free := h.1
        info := { jb.info with framesCur := jb.info.framesCur - 1 } }, ⟨h.2, jb.free, h.1⟩,
        ?_, rfl, ?_⟩
      · unfold queueGet
        rw [if_neg hne, hframes, hself]
        simp only [Option.bind_eq_bind, Option.bind_some]
        rw [if_pos hdue]
        simp [setNext, setPrev, hself, Function.update_self]
      · refine ⟨rfl, trivial, by simp, hfree fun b hb => ?_, hnd', hsorted, hcur⟩
        have hbh : b ≠ h.1 := by simpa using hb
        rw [Function.update_of_ne hbh, Function.update_of_ne hbh]
    | cons y ys =>
      obtain ⟨mem₁, z, n, p, n', hz, h₁, hh₁, hy, hring⟩ := hq.ring.remove hnd
      have hyh : y.1 ≠ h.1 := by
        intro heq
        rw [List.map_cons, List.nodup_cons] at hnd
        exact hnd.1 (heq ▸ List.mem_map_of_mem List.mem_cons_self)
      have hlast := last_mem Prod.fst ys y.1
      have hrest : ∀ b, b ∉ (h :: y :: ys).map Prod.fst →
          Function.update mem₁ y.1 (some (itemNode y n' (last Prod.fst ys y.1))) b = jb.mem b := by
        intro b hb
        have hby : b ≠ y.1 := fun heq => hb (by simp [heq])
        have hbl : b ≠ last Prod.fst ys y.1 := by
          intro heq
          rw [heq] at hb
          rcases hlast with hl | hl
          · rw [hl] at hb
            exact hb (by simp)
          · exact hb (List.mem_cons_of_mem _ (List.mem_cons_of_mem _ hl))
        rw [Function.update_of_ne hby, h₁, Function.update_of_ne hbl]
      have hsetNext : setNext jb.mem (last Prod.fst (y :: ys) h.1) y.1 = some mem₁ := by
        have hz' : jb.mem (last Prod.fst (y :: ys) h.1) = some (itemNode z n p) := hz
        simp only [setNext, hz', Option.bind_eq_bind, Option.bind_some, h₁]
        rfl
      have hsetPrev : setPrev mem₁ y.1 (last Prod.fst (y :: ys) h.1) =
          some (Function.update mem₁ y.1 (some (itemNode y n' (last Prod.fst ys y.1)))) := by
        simp only [setPrev, hy, Option.bind_eq_bind, Option.bind_some]
        rfl
      have hhead₁ : mem₁ h.1 = some ⟨h.2, y.1, last Prod.fst (y :: ys) h.1⟩ := hh₁.trans hhead
      have hhead₂ : Function.update mem₁ y.1 (some (itemNode y n' (last Prod.fst ys y.1))) h.1 =
          some ⟨h.2, y.1, last Prod.fst (y :: ys) h.1⟩ := by
        rw [Function.update_of_ne hyh.symm]
        exact hhead₁
      set mem₂ := Function.update mem₁ y.1 (some (itemNode y n' (last Prod.fst ys y.1))) with hm₂
      refine ⟨{ jb with
        mem := Function.update mem₂ h.1 (some ⟨h.2, jb.free, last Prod.fst (y :: ys) h.1⟩)
        frames := y.1
        free := h.1
        info := { jb.info with framesCur := jb.info.framesCur - 1 } },
        ⟨h.2, jb.free, last Prod.fst (y :: ys) h.1⟩, ?_, rfl, ?_⟩
      · have hnx : (itemNode h (first Prod.fst (y :: ys) h.1) (last Prod.fst (y :: ys) h.1)).next =
          y.1 := rfl
        have hdue' : all = true ∨
            ts ≥ (itemNode h (first Prod.fst (y :: ys) h.1) (last Prod.fst (y :: ys) h.1)).ts := hdue
        unfold queueGet
        rw [if_neg hne, hframes, hhead]
        simp only [Option.bind_eq_bind, Option.bind_some]
        rw [if_pos hdue', hnx]
        have hlink : setNext mem₂ h.1 jb.free = some (Function.update mem₂ h.1
            (some ⟨h.2, jb.free, last Prod.fst (y :: ys) h.1⟩)) := by
          simp only [setNext, hhead₂, Option.bind_eq_bind, Option.bind_some]
          rfl
        simp only [itemNode, hsetNext, hhead₁, Option.bind_some, hsetPrev, hhead₂, hlink,
          Option.pure_def, if_neg hyh, Function.update_self]
      · refine ⟨rfl, hring.frame fun x hx => ?_, hnonnull, hfree hrest, hnd', hsorted, hcur⟩
        have hxh : x.1 ≠ h.1 := by
          intro heq
          rw [List.map_cons, List.nodup_cons] at hnd
          exact hnd.1 (heq ▸ List.mem_map_of_mem hx)
        exact Function.update_of_ne hxh ..
  · intro hno
    cases q with
    | nil =>
      unfold queueGet
      rw [if_pos (hq.frames_eq_zero.2 rfl)]
      rfl
    | cons h q =>
      obtain ⟨hframes, hhead⟩ := hq.head
      have hne : jb.frames ≠ 0 := fun h0 => by cases hq.frames_eq_zero.1 h0
      have hno' : ¬ (all = true ∨
          ts ≥ (itemNode h (first Prod.fst q h.1) (last Prod.fst q h.1)).ts) := hno h q rfl
      unfold queueGet
      rw [if_neg hne, hframes, hhead]
      simp only [Option.bind_eq_bind, Option.bind_some]
      rw [if_neg hno']
      rfl

end Jitter

end Trismedia
