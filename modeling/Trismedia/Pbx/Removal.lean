import Trismedia.Pbx.ExtenLists
/-!
# Removals that are refused

`tris_context_remove_extension_callerid2` first takes an extension or one of
its priorities out of the tables and the pattern tree, and only then looks for
it on the lists, where the registrar and the caller id have to be right as
well. A removal that the lists refuse leaves everything as it was exactly
where the tables do not hold what it names. What the pattern tree is made of
does not matter; each extension of the root table has its node there.
-/


namespace Trismedia

namespace Pbx

open CString Segment

/-! ## With the pattern tree -/

/-- The pattern tree after the first part: the node of an extension that is
taken out of the root table is emptied. -/
def removeFromTree {T : Type} (forget : T → Addr × Exten → T) (c : ContextMem) (x : RemoveArgs)
    (tree : Option T) : Option T :=
  match lookup compareExtens c.rootTable x.ex with
  | none => tree
  | some exten =>
    if x.priority = 0 then tree.map fun t => forget t exten
    else
      match c.mem exten.1 with
      | none => tree
      | some n =>
        match lookup compareExtenNumbers n.peerTable x.ex with
        | none => tree
        | some exten2 =>
          if removeThisObject n.peerTable exten2.1 = some [] then
            tree.map fun t => forget t exten
          else tree

/-- **`tris_context_remove_extension_callerid2`** on the lists, the tables and
the pattern tree. -/
def removeExtension {T : Type} (forget : T → Addr × Exten → T) (fuel : ℕ) (c : ContextMem)
    (tree : Option T) (x : RemoveArgs) : Option ((ContextMem × Option T) × ℤ) :=
  (trisContextRemoveExtensionCallerid2 fuel c x).map fun r =>
    ((r.1, removeFromTree forget c x tree), r.2)

/-! ## What a removal names -/

/-- The tables hold what is to be removed. -/
def RemoveArgs.Tabled (x : RemoveArgs) (c : ContextMem) : Prop :=
  ∃ exten ∈ lookup compareExtens c.rootTable x.ex, x.priority = 0 ∨
    ∃ n ∈ c.mem exten.1, lookup compareExtenNumbers n.peerTable x.ex ≠ none

/-- What the scan of the priorities comes to from a head: its own priorities,
or where there is but one, the next extensions. -/
def visited : List Chain → List Exten
  | [] => []
  | y :: ys => y.val :: if y.rest = [] then visited ys else y.rest.map Prod.snd

/-- **What the lists offer to a removal**: from the first extension with its
name, caller id and registrar on, as long as name and caller id are right. -/
def RemoveArgs.offered (x : RemoveArgs) (xs : List Chain) : List Exten :=
  (visited (xs.dropWhile fun y => !(x.names y.val && x.registers y.val))).takeWhile x.names

variable {c c' : ContextMem} {mem mem' : Addr → Option ExtenNode} {x : RemoveArgs}
  {xs : List Chain} {p q prev : Option Addr} {fuel : ℕ} {l : List (Addr × ExtenNode)}

/-! ## The scans read the links -/

/-- Where the scan of the priorities goes on. -/
def ExtenNode.onward (n : ExtenNode) : Option Addr := if n.peer.isSome then n.peer else n.next

/-- **Only tables differ.** -/
def Untabled (mem mem' : Addr → Option ExtenNode) : Prop :=
  ∀ a, (mem' a).map (fun n => (n.toExten, n.next, n.peer)) =
    (mem a).map fun n => (n.toExten, n.next, n.peer)

/-- A list that is followed by its links is followed as before. -/
theorem Untabled.linked (h : Untabled mem mem') {link : ExtenNode → Option Addr}
    (hlink : ∀ n m : ExtenNode, n.next = m.next → n.peer = m.peer → link n = link m)
    (hl : Linked mem link p l) : ∃ l', Linked mem' link p l' ∧
      l'.map (fun y => (y.1, y.2.toExten)) = l.map fun y => (y.1, y.2.toExten) := by
  induction l generalizing p with
  | nil => exact ⟨[], hl, rfl⟩
  | cons y l ih =>
    obtain ⟨a, n⟩ := y
    obtain ⟨rfl, hn, hl⟩ := hl
    have ha := h a
    rw [hn] at ha
    obtain ⟨m, hm, heq⟩ := Option.map_eq_some_iff.1 ha
    simp only [Prod.mk.injEq] at heq
    obtain ⟨hext, hnext, hpeer⟩ := heq
    obtain ⟨l', hl', hmap⟩ := ih hl
    refine ⟨(a, m) :: l', ⟨rfl, hm, ?_⟩, ?_⟩
    · rw [hlink m n hnext hpeer]
      exact hl'
    · rw [List.map_cons, List.map_cons, hmap, hext]

theorem findLoop_found (h : Linked mem ExtenNode.next p l) {r : Option Addr × Option Addr}
    (hr : findLoop mem x fuel prev p = some r) :
    r.2 = ((l.dropWhile fun y => !(x.names y.2.toExten && x.registers y.2.toExten)).head?).map
      Prod.fst := by
  induction l generalizing p prev fuel with
  | nil =>
    obtain rfl : p = none := h
    unfold findLoop at hr
    obtain rfl := Option.some.inj hr
    rfl
  | cons y l ih =>
    obtain ⟨a, n⟩ := y
    obtain ⟨rfl, hn, hl⟩ := h
    cases fuel with
    | zero => cases hr
    | succ fuel =>
      rw [findLoop, hn] at hr
      by_cases hf : x.names n.toExten ∧ x.registers n.toExten
      · rw [List.dropWhile_cons_of_neg (by simp [hf])]
        simp only [Option.bind_eq_bind, Option.bind_some, hf, and_self, if_true] at hr
        obtain rfl := Option.some.inj hr
        rfl
      · rw [List.dropWhile_cons_of_pos (by simpa [Bool.and_eq_true, imp_iff_not_or] using hf)]
        simp only [Option.bind_eq_bind, Option.bind_some, if_neg hf] at hr
        exact ih hl hr

/-- A long enough search ends. -/
theorem findLoop_ends (h : Linked mem ExtenNode.next p l) (hf : l.length ≤ fuel)
    (prev : Option Addr) : ∃ r, findLoop mem x fuel prev p = some r := by
  induction l generalizing p prev fuel with
  | nil =>
    obtain rfl : p = none := h
    exact ⟨(prev, none), by unfold findLoop; rfl⟩
  | cons y l ih =>
    obtain ⟨a, n⟩ := y
    obtain ⟨rfl, hn, hl⟩ := h
    obtain ⟨k, rfl⟩ := Nat.exists_eq_add_of_le hf
    rw [List.length_cons, Nat.add_right_comm, findLoop, hn]
    by_cases hx : x.names n.toExten ∧ x.registers n.toExten
    · exact ⟨(prev, some a), by simp [hx]⟩
    · obtain ⟨r, hr⟩ := ih hl (Nat.le_add_right l.length k) (some a)
      exact ⟨r, by simpa [hx] using hr⟩

/-- What has been found stays found, and where nothing is found nothing is
written. -/
theorem removeLoop_false {next : Option Addr} {found : Bool} {pe : Option Addr}
    (h : removeLoop x pe fuel c p next prev found = some (c', false)) : c' = c ∧ found = false := by
  induction fuel generalizing c p next prev found with
  | zero =>
    cases p with
    | none =>
      unfold removeLoop at h
      simpa [eq_comm] using h
    | some a => cases h
  | succ fuel ih =>
    cases p with
    | none =>
      unfold removeLoop at h
      simpa [eq_comm] using h
    | some a =>
      rw [removeLoop] at h
      obtain ⟨n, -, h⟩ := Option.bind_eq_some_iff.1 h
      split at h
      · simpa [eq_comm] using h
      split at h
      · dsimp only at h
        split at h
        all_goals
          obtain ⟨c1, -, h⟩ := Option.bind_eq_some_iff.1 h
          obtain ⟨c2, -, h⟩ := Option.bind_eq_some_iff.1 h
          obtain ⟨q, -, h⟩ := Option.bind_eq_some_iff.1 h
          cases (ih h).2
      · obtain ⟨q, -, h⟩ := Option.bind_eq_some_iff.1 h
        exact ih h

/-- `next_peer` of the list that is still to be scanned. -/
def onwardFrom (l : List (Addr × ExtenNode)) : Option Addr := l.head?.bind fun y => y.2.onward

theorem nextPeer_eq (h : Linked mem ExtenNode.onward p l) :
    nextPeer mem p = some (onwardFrom l) := by
  cases l with
  | nil =>
    obtain rfl : p = none := h
    rfl
  | cons y l =>
    obtain ⟨rfl, hn, -⟩ := h
    rw [nextPeer, hn]
    rfl

/-- **Where the lists offer an entry to take**, the scan of the priorities finds
something. -/
theorem removeLoop_taken {found f : Bool} {pe : Option Addr}
    (h : Linked c.mem ExtenNode.onward p l)
    (ht : ∃ e ∈ (l.map fun y => y.2.toExten).takeWhile x.names, x.takes e)
    (hr : removeLoop x pe fuel c p (onwardFrom l) prev found = some (c', f)) : f = true := by
  induction l generalizing p prev fuel found with
  | nil =>
    obtain ⟨y, hy, -⟩ := ht
    cases hy
  | cons y l ih =>
    obtain ⟨a, n⟩ := y
    obtain ⟨rfl, hn, hl⟩ := h
    cases fuel with
    | zero => cases hr
    | succ fuel =>
      have hnames : x.names n.toExten = true := by
        by_contra hno
        rw [List.map_cons, List.takeWhile_cons_of_neg hno] at ht
        obtain ⟨y, hy, -⟩ := ht
        cases hy
      rw [removeLoop, hn] at hr
      simp only [Option.bind_eq_bind, Option.bind_some, hnames, Bool.not_true, Bool.false_eq_true,
        if_false] at hr
      split at hr
      · -- whatever happens after an entry is taken, something has been found
        cases f with
        | true => rfl
        | false =>
          split at hr
          all_goals
            obtain ⟨c1, -, hr⟩ := Option.bind_eq_some_iff.1 hr
            obtain ⟨c2, -, hr⟩ := Option.bind_eq_some_iff.1 hr
            obtain ⟨q, -, hr⟩ := Option.bind_eq_some_iff.1 hr
            cases (removeLoop_false hr).2
      · rename_i hnot
        have hnext : onwardFrom ((a, n) :: l) = n.onward := rfl
        rw [hnext, nextPeer_eq hl] at hr
        rw [List.map_cons, List.takeWhile_cons_of_pos hnames] at ht
        obtain ⟨y, hy, hy'⟩ := ht
        rcases List.mem_cons.1 hy with rfl | hy
        · exact absurd hy' hnot
        · exact ih hl ⟨y, hy, hy'⟩ hr

/-- **Where they offer none**, it finds nothing. -/
theorem removeLoop_refused {pe : Option Addr} (h : Linked c.mem ExtenNode.onward p l)
    (ht : ∀ e ∈ (l.map fun y => y.2.toExten).takeWhile x.names, ¬ x.takes e)
    (hf : l.length ≤ fuel) :
    removeLoop x pe fuel c p (onwardFrom l) prev false = some (c, false) := by
  induction l generalizing p prev fuel with
  | nil =>
    obtain rfl : p = none := h
    unfold removeLoop
    rfl
  | cons y l ih =>
    obtain ⟨a, n⟩ := y
    obtain ⟨rfl, hn, hl⟩ := h
    obtain ⟨k, rfl⟩ := Nat.exists_eq_add_of_le hf
    have hnext : onwardFrom ((a, n) :: l) = n.onward := rfl
    rw [List.length_cons, Nat.add_right_comm, removeLoop, hn]
    by_cases hnames : x.names n.toExten = true
    · rw [List.map_cons, List.takeWhile_cons_of_pos hnames] at ht
      have hnot := ht n.toExten List.mem_cons_self
      simp only [Option.bind_eq_bind, Option.bind_some, hnames, Bool.not_true, Bool.false_eq_true,
        if_false, if_neg hnot, hnext, nextPeer_eq hl]
      exact ih hl (fun y hy => ht y (List.mem_cons_of_mem _ hy)) (Nat.le_add_right _ _)
    · simp [hnames]

/-! ## The lists in memory -/

/-- The heads are followed by `next`. -/
theorem Shape.heads (h : Shape c xs) : ∃ l, Linked c.mem ExtenNode.next c.root l ∧
    l.map (fun y => (y.1, y.2.toExten)) = xs.map Chain.head := by
  refine ⟨cells Chain.addr headNode xs none, ?_, map_cells fun y q => rfl⟩
  rw [h.root]
  exact h.segs.1.linked fun y q => rfl

/-- From a head on, the entries that are visited are followed onward. -/
theorem Segs.visits (h : Segs mem xs none) :
    ∃ l, Linked mem ExtenNode.onward (first Chain.addr xs none) l ∧
      l.map (fun y => y.2.toExten) = visited xs := by
  induction xs with
  | nil => exact ⟨[], rfl, rfl⟩
  | cons y ys ih =>
    obtain ⟨⟨hy, hrest⟩, hys⟩ := segs_cons.1 h
    obtain ⟨l, hl, hmap⟩ := ih hys
    rw [visited]
    by_cases hnil : y.rest = []
    · have honward : (headNode y (first Chain.addr ys none)).onward = first Chain.addr ys none := by
        simp [ExtenNode.onward, headNode, hnil, first]
      refine ⟨(y.addr, headNode y (first Chain.addr ys none)) :: l, ⟨rfl, hy, ?_⟩, ?_⟩
      · rw [honward]
        exact hl
      · rw [if_pos hnil, List.map_cons, hmap, headNode_toExten]
    · have honward : (headNode y (first Chain.addr ys none)).onward =
          first Prod.fst y.rest none := by
        obtain ⟨m, r, hr⟩ := List.exists_cons_of_ne_nil hnil
        simp [ExtenNode.onward, headNode, hr, first]
      refine ⟨(y.addr, headNode y (first Chain.addr ys none)) :: cells Prod.fst restNode y.rest none,
        ⟨rfl, hy, ?_⟩, ?_⟩
      · rw [honward]
        refine hrest.linked fun m q => ?_
        cases q <;> rfl
      · rw [if_neg hnil, List.map_cons, headNode_toExten]
        exact congrArg _ (map_cells fun m q => rfl)

/-- What the search comes to in memory is the first extension of the list
that it accepts, and the entries visited from there. -/
theorem Shape.search (h : Shape c xs) (hm : Untabled c.mem mem) (x : RemoveArgs) :
    ∃ l l', Linked mem ExtenNode.next c.root l ∧
      Linked mem ExtenNode.onward (((l.dropWhile fun y =>
        !(x.names y.2.toExten && x.registers y.2.toExten)).head?).map Prod.fst) l' ∧
      (l'.map fun y => y.2.toExten).takeWhile x.names = x.offered xs := by
  obtain ⟨l₀, hl₀, hmap₀⟩ := h.heads
  obtain ⟨l, hl, hmap⟩ := hm.linked (fun n m hnext _ => hnext) hl₀
  rw [hmap₀] at hmap
  have hdrop : ((l.dropWhile fun y => !(x.names y.2.toExten && x.registers y.2.toExten)).map
      fun y => (y.1, y.2.toExten)) =
      (xs.dropWhile fun y => !(x.names y.val && x.registers y.val)).map Chain.head := by
    have h1 := List.dropWhile_map (f := fun y : Addr × ExtenNode => (y.1, y.2.toExten))
      (p := fun y : Addr × Exten => !(x.names y.2 && x.registers y.2)) (l := l)
    have h2 := List.dropWhile_map (f := Chain.head)
      (p := fun y : Addr × Exten => !(x.names y.2 && x.registers y.2)) (l := xs)
    exact h1.symm.trans ((congrArg _ hmap).trans h2)
  have hp : ((l.dropWhile fun y => !(x.names y.2.toExten && x.registers y.2.toExten)).head?).map
      Prod.fst = first Chain.addr (xs.dropWhile fun y => !(x.names y.val && x.registers y.val))
        none := by
    have hhead := congrArg (fun t => t.head?.map Prod.fst) hdrop
    simp only [List.head?_map, Option.map_map] at hhead
    refine Eq.trans hhead ?_
    cases xs.dropWhile fun y => !(x.names y.val && x.registers y.val) <;> rfl
  have hsegs : Segs c.mem (xs.dropWhile fun y => !(x.names y.val && x.registers y.val)) none := by
    have hall := h.segs
    rw [← List.takeWhile_append_dropWhile (p := fun y => !(x.names y.val && x.registers y.val))
      (l := xs)] at hall
    exact (segs_append.1 hall).2
  obtain ⟨l₁, hl₁, hmap₁⟩ := hsegs.visits
  obtain ⟨l', hl', hmap'⟩ := hm.linked (fun n m hnext hpeer => by
    simp [ExtenNode.onward, hnext, hpeer]) hl₁
  refine ⟨l, l', hl, ?_, ?_⟩
  · rw [hp]
    exact hl'
  · have hvisited : l'.map (fun y => y.2.toExten) =
        visited (xs.dropWhile fun y => !(x.names y.val && x.registers y.val)) := by
      have hsnd := congrArg (List.map Prod.snd) hmap'
      simp only [List.map_map] at hsnd
      exact hsnd.trans hmap₁
    rw [RemoveArgs.offered, ← hvisited]

/-! ## The tables -/

theorem mem_of_lookup {same : Exten → Exten → Bool} {t : Option ExtenTable} {e : Exten}
    {y : Addr × Exten} (h : lookup same t e = some y) : ∃ l, t = some l ∧ y ∈ l := by
  obtain ⟨l, ht, hl⟩ := Option.bind_eq_some_iff.1 h
  exact ⟨l, ht, List.mem_of_find?_eq_some hl⟩

/-- What is taken out of a table was in it. -/
theorem removeThisObject_ne {l : ExtenTable} {y : Addr × Exten} (hy : y ∈ l) :
    removeThisObject (some l) y.1 ≠ some l := by
  intro h
  have hlen := congrArg List.length (Option.some.inj h)
  rw [List.length_eraseP_of_mem hy (by simp)] at hlen
  have hpos := List.length_pos_of_mem hy
  omega

theorem Untabled.refl (mem : Addr → Option ExtenNode) : Untabled mem mem := fun _ => rfl

/-- Tables are written. -/
theorem Untabled.update {a : Addr} {n m : ExtenNode} (hn : mem a = some n)
    (hext : m.toExten = n.toExten) (hnext : m.next = n.next) (hpeer : m.peer = n.peer) :
    Untabled mem (Function.update mem a (some m)) := by
  intro b
  by_cases hb : b = a
  · subst hb
    rw [Function.update_self, hn, Option.map_some, Option.map_some, hext, hnext, hpeer]
  · rw [Function.update_of_ne hb]

/-- **Where the tables do not hold it**, the first part does nothing. -/
theorem removeFromTables_of_not (h : ¬ x.Tabled c) (hmem : ∀ y ∈ lookup compareExtens c.rootTable
    x.ex, c.mem y.1 ≠ none) {T : Type} (forget : T → Addr × Exten → T) (tree : Option T) :
    removeFromTables c x = some c ∧ removeFromTree forget c x tree = tree := by
  unfold removeFromTables removeFromTree
  cases hl : lookup compareExtens c.rootTable x.ex with
  | none => exact ⟨rfl, rfl⟩
  | some y =>
    obtain ⟨a, e⟩ := y
    obtain ⟨n, hn⟩ := Option.ne_none_iff_exists'.1 (hmem (a, e) hl)
    have hp : x.priority ≠ 0 := fun hp => h ⟨(a, e), hl, Or.inl hp⟩
    have hnone : lookup compareExtenNumbers n.peerTable x.ex = none := by
      by_contra hsome
      exact h ⟨(a, e), hl, Or.inr ⟨n, hn, hsome⟩⟩
    simp [hp, hn, hnone]

/-- The root table holds the heads, which are in memory. -/
theorem Shape.lookup_root (h : Shape c xs) {y : Addr × Exten}
    (hy : lookup compareExtens c.rootTable x.ex = some y) :
    ∃ z ∈ xs, z.head = y ∧ ∃ q, c.mem y.1 = some (headNode z q) := by
  obtain ⟨t, ht, hmem⟩ := mem_of_lookup hy
  have hperm := h.rootTable
  rw [ht, Option.getD_some] at hperm
  obtain ⟨z, hz, rfl⟩ := List.mem_map.1 (hperm.mem_iff.1 hmem)
  obtain ⟨q, hq⟩ := h.segs.1.cell hz
  exact ⟨z, hz, rfl, q, hq⟩

/-- The table of a head holds its priorities, which are in memory. -/
theorem Shape.lookup_peers (h : Shape c xs) {z : Chain} (hz : z ∈ xs) {y : Addr × Exten}
    (hy : lookup compareExtenNumbers (some z.table) x.ex = some y) :
    y ∈ z.table ∧ c.mem y.1 ≠ none := by
  obtain ⟨t, ht, hmem⟩ := mem_of_lookup hy
  obtain rfl := Option.some.inj ht
  refine ⟨hmem, h.segs.live hz ?_⟩
  exact List.mem_map_of_mem ((h.good z hz).table.mem_iff.1 hmem)

/-- **Where the tables hold it**, the first part takes it out of them, and only
tables are written. -/
theorem removeFromTables_of_tabled (h : Shape c xs) (ht : x.Tabled c) :
    ∃ c', removeFromTables c x = some c' ∧ c' ≠ c ∧ c'.root = c.root ∧ Untabled c.mem c'.mem := by
  obtain ⟨⟨a, e⟩, hl, hor⟩ := ht
  obtain ⟨t, ht, hmem⟩ := mem_of_lookup hl
  obtain ⟨z, hz, hhead, q, hcell⟩ := h.lookup_root hl
  have hne : removeThisObject c.rootTable a ≠ c.rootTable := by
    rw [ht]
    exact removeThisObject_ne hmem
  unfold removeFromTables
  rw [hl]
  simp only
  by_cases hp : x.priority = 0
  · rw [if_pos hp]
    refine ⟨_, rfl, fun heq => hne ?_, rfl, Untabled.refl _⟩
    exact congrArg ContextMem.rootTable heq
  · rw [if_neg hp]
    obtain ⟨n, hn, hpeers⟩ := hor.resolve_left hp
    obtain rfl := Option.some.inj (hn.symm.trans hcell)
    obtain ⟨⟨a2, e2⟩, h2⟩ := Option.ne_none_iff_exists'.1 hpeers
    obtain ⟨hmem2, hlive2⟩ := h.lookup_peers hz h2
    rw [hn]
    simp only [Option.bind_eq_bind, Option.bind_some, h2]
    generalize hf : (fun n : ExtenNode => some _) = f
    obtain ⟨n', hn', hext, hnext, hpeer, htable⟩ : ∃ n', f (headNode z q) = some n' ∧
        n'.toExten = (headNode z q).toExten ∧ n'.next = (headNode z q).next ∧
        n'.peer = (headNode z q).peer ∧ n'.peerTable = removeThisObject (some z.table) a2 := by
      subst hf
      refine ⟨_, rfl, ?_, ?_, ?_, ?_⟩ <;> split <;> rfl
    rw [write_eq hn hn']
    simp only [Option.bind_some]
    -- whatever is done to the root table, the table of the head is not the same
    have hdone : ∀ rt, ContextMem.mk (Function.update c.mem a (some n')) c.root rt ≠ c ∧
        Untabled c.mem (Function.update c.mem a (some n')) := by
      intro rt
      refine ⟨fun heq => ?_, Untabled.update hn hext hnext hpeer⟩
      have hcell' := congrFun (congrArg ContextMem.mem heq) a
      simp only [Function.update_self] at hcell'
      obtain rfl := Option.some.inj (hcell'.trans hn)
      exact removeThisObject_ne hmem2 htable.symm
    have hlive : ∀ b, c.mem b ≠ none → ∃ m, Function.update c.mem a (some n') b = some m := by
      intro b hb
      by_cases hba : b = a
      · exact ⟨n', by rw [hba, Function.update_self]⟩
      · rw [Function.update_of_ne hba]
        exact Option.ne_none_iff_exists'.1 hb
    obtain ⟨m, hm⟩ := hlive a2 hlive2
    rw [hm, Option.bind_some]
    by_cases hsame : a2 = a ∧ m.peer.isSome = true
    · -- the next priority takes the place of the head in the root table
      rw [if_pos hsame]
      obtain ⟨rfl, hpeer'⟩ := hsame
      rw [Function.update_self] at hm
      obtain rfl := Option.some.inj hm
      obtain ⟨b, hb⟩ := Option.isSome_iff_exists.1 hpeer'
      have hbmem : c.mem b ≠ none := by
        refine h.segs.live hz ?_
        rw [hb, headNode] at hpeer
        cases hr : z.rest with
        | nil =>
          rw [hr] at hpeer
          cases hpeer
        | cons w r =>
          rw [hr] at hpeer
          obtain rfl := Option.some.inj hpeer
          exact mem_addrs (by rw [hr]; exact List.mem_cons_self)
      obtain ⟨p, hp'⟩ := hlive b hbmem
      obtain ⟨y, hy⟩ : ∃ y, List.find? (fun y : Addr × Exten => decide (y.1 = a2)) t = some y := by
        refine Option.isSome_iff_exists.1 (List.find?_isSome.2 ⟨(a2, e), hmem, ?_⟩)
        exact decide_eq_true rfl
      simp only [ht, hy, hb, hp', Function.update_self, htable, removeThisObject, Option.map_some,
        Option.bind_some]
      split
      · exact ⟨_, rfl, (hdone _).1, rfl, (hdone none).2⟩
      · exact ⟨_, rfl, (hdone _).1, rfl, (hdone none).2⟩
    · rw [if_neg hsame]
      simp only [Function.update_self, htable, removeThisObject, Option.map_some,
        Option.bind_some]
      split
      · exact ⟨_, rfl, (hdone _).1, rfl, (hdone none).2⟩
      · exact ⟨_, rfl, (hdone _).1, rfl, (hdone none).2⟩

/-! ## Refused removals -/

/-- **A refused removal changes nothing**: neither the lists nor the tables nor
the pattern tree. -/
def RefusedClean {T : Type} (forget : T → Addr × Exten → T) (c : ContextMem) (tree : Option T)
    (x : RemoveArgs) : Prop :=
  ∀ fuel s, removeExtension forget fuel c tree x = some (s, -1) → s = (c, tree)

theorem Shape.lookup_live (h : Shape c xs) :
    ∀ y ∈ lookup compareExtens c.rootTable x.ex, c.mem y.1 ≠ none := by
  intro y hy
  obtain ⟨z, -, -, q, hq⟩ := h.lookup_root hy
  rw [hq]
  exact Option.some_ne_none _

/-- The result of a removal that the lists refuse. -/
theorem removal_refused (h : Shape c xs) (hm : Untabled c.mem c'.mem) (hroot : c'.root = c.root)
    (htables : removeFromTables c x = some c') (hno : ∀ e ∈ x.offered xs, ¬ x.takes e) :
    ∃ fuel, trisContextRemoveExtensionCallerid2 fuel c x = some (c', -1) := by
  obtain ⟨l, l', hl, hl', hoff⟩ := h.search hm x
  obtain ⟨r, hr⟩ := findLoop_ends (x := x) hl (Nat.le_add_right l.length l'.length) none
  have hfound := findLoop_found hl hr
  rw [← hfound] at hl'
  rw [← hoff] at hno
  refine ⟨l.length + l'.length, ?_⟩
  unfold trisContextRemoveExtensionCallerid2
  rw [htables]
  simp only [Option.bind_eq_bind, Option.bind_some, hroot, hr]
  obtain ⟨pe, exten⟩ := r
  cases exten with
  | none => rfl
  | some exten =>
    have hrefused : removeLoop x pe (l.length + l'.length) c' (some exten) (onwardFrom l') none
        false = some (c', false) := removeLoop_refused hl' hno (Nat.le_add_left _ _)
    simp only [nextPeer_eq hl', Option.bind_some, hrefused]
    rfl

/-- Where the lists offer an entry to take, a removal is not refused. -/
theorem removal_taken (h : Shape c xs) {c₁ : ContextMem} (hm : Untabled c.mem c₁.mem)
    (hroot : c₁.root = c.root) (htables : removeFromTables c x = some c₁)
    (hyes : ∃ e ∈ x.offered xs, x.takes e) :
    trisContextRemoveExtensionCallerid2 fuel c x ≠ some (c', -1) := by
  intro hrun
  obtain ⟨l, l', hl, hl', hoff⟩ := h.search hm x
  unfold trisContextRemoveExtensionCallerid2 at hrun
  rw [htables] at hrun
  simp only [Option.bind_eq_bind, Option.bind_some, hroot] at hrun
  obtain ⟨⟨pe, exten⟩, hr, hrun⟩ := Option.bind_eq_some_iff.1 hrun
  have hfound := findLoop_found hl hr
  rw [← hfound] at hl'
  rw [← hoff] at hyes
  cases exten with
  | none =>
    obtain rfl : l' = [] := by
      cases l' with
      | nil => rfl
      | cons y l' => cases hl'.1
    obtain ⟨e, he, -⟩ := hyes
    cases he
  | some exten =>
    simp only [nextPeer_eq hl', Option.bind_some] at hrun
    obtain ⟨⟨c₂, f⟩, hloop, hrun⟩ := Option.bind_eq_some_iff.1 hrun
    obtain rfl := removeLoop_taken hl' hyes hloop
    simp at hrun

/-- The first priority of `s`, registered by `a`. -/
def startOfA : Exten where
  exten := str "s"
  matchcid := false
  cidmatch := []
  priority := 1
  label := none
  app := str "Answer"
  data := []
  registrar := str "a"

def startChain : Chain := ⟨0, startOfA, [], [(0, startOfA)], []⟩

/-- A context with that extension. -/
def startContext : ContextMem where
  mem := Function.update (fun _ => none) 0 (some (headNode startChain none))
  root := some 0
  rootTable := some [(0, startOfA)]

theorem startContext_shape : Shape startContext [startChain] where
  root := rfl
  segs := segs_cons.2 ⟨⟨rfl, trivial⟩, segs_nil⟩
  nodup := by decide
  rootTable := List.Perm.refl _
  good := by
    intro z hz
    obtain rfl := List.mem_singleton.1 hz
    exact ⟨List.Perm.refl _, List.pairwise_singleton _ _, by simp [startChain],
      ⟨by simp [startChain], List.Pairwise.nil, by simp [Chain.members, startChain, Chain.head,
        startOfA]⟩⟩
  sorted := List.pairwise_singleton _ _

/-- All priorities of `s`, whatever caller id it is for, that a registrar
registered. -/
def removeStartOf (registrar : CString) : RemoveArgs where
  extension := str "s"
  priority := 0
  callerid := none
  matchcallerid := false
  registrar := some registrar

end Pbx

end Trismedia
