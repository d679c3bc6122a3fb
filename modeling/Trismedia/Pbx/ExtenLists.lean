import Mathlib.Data.List.Perm.Basic
import Trismedia.Common.Segment
import Trismedia.Pbx.ExtenMem
/-!
# What a context's memory holds

A context is a list of chains, one for each extension: the head, the other
priorities and what the two tables of the head hold. `Shape` says that the
memory is that list.
-/


namespace Trismedia

namespace Pbx

open CString Segment

variable {c c' : ContextMem} {mem mem' : Addr → Option ExtenNode}

/-! ## The order of the heads -/

/-- The entry comes first in the scan of the extension list, and where the
names compare equal they are equal. -/
def Precedes (a b : Exten) : Prop :=
  (∃ r, scanCmp a b = some r ∧ r < 0) ∧ (extCmp a.exten b.exten = some 0 → a.exten = b.exten)

/-- The fields that `scanCmp` reads are the same. -/
def SameKey (a b : Exten) : Prop :=
  a.exten = b.exten ∧ a.matchcid = b.matchcid ∧ a.cidmatch = b.cidmatch

/-! ## Chains -/

/-- An extension: the head, the other priorities and the two tables. -/
structure Chain where
  addr : Addr
  val : Exten
  rest : List (Addr × Exten)
  table : ExtenTable
  labels : ExtenTable

namespace Chain

def head (x : Chain) : Addr × Exten := (x.addr, x.val)

def members (x : Chain) : List (Addr × Exten) := x.head :: x.rest

def addrs (x : Chain) : List Addr := x.members.map Prod.fst

end Chain

/-- The table of the labels: each entry is a live priority with a label,
no label is there twice, and every label of a priority is there. -/
structure LabelsOk (members : List (Addr × Exten)) (labels : ExtenTable) : Prop where
  live : ∀ m ∈ labels, m ∈ members ∧ m.2.label ≠ none
  once : labels.Pairwise fun a b => a.2.label ≠ b.2.label
  found : ∀ m ∈ members, m.2.label ≠ none → ∃ m' ∈ labels, m'.2.label = m.2.label

/-- A chain is as the source means it to be. -/
structure Chain.Good (x : Chain) : Prop where
  table : x.table.Perm x.members
  sorted : x.members.Pairwise fun a b => a.2.priority < b.2.priority
  same : ∀ m ∈ x.rest, SameKey x.val m.2
  labels : LabelsOk x.members x.labels

/-- A head in memory. -/
def headNode (x : Chain) (q : Option Addr) : ExtenNode :=
  { x.val with
    next := q, peer := first Prod.fst x.rest none
    peerTable := some x.table, peerLabelTable := some x.labels }

/-- Another priority in memory. -/
def restNode (m : Addr × Exten) (q : Option Addr) : ExtenNode :=
  { m.2 with next := none, peer := q, peerTable := none, peerLabelTable := none }

@[simp] theorem headNode_toExten (x : Chain) (q : Option Addr) : (headNode x q).toExten = x.val := rfl

/-- The chains stand in memory and the last one leads to `q`. -/
def Segs (mem : Addr → Option ExtenNode) (xs : List Chain) (q : Option Addr) : Prop :=
  Seg mem Chain.addr headNode xs q ∧ ∀ x ∈ xs, Seg mem Prod.fst restNode x.rest none

variable {x y : Chain} {xs ys zs pre post : List Chain} {q q' : Option Addr} {a : Addr}

theorem mem_addrs {m : Addr × Exten} (h : m ∈ x.rest) : m.1 ∈ x.addrs :=
  List.mem_cons_of_mem _ (List.mem_map_of_mem h)

theorem segs_append : Segs mem (xs ++ ys) q ↔
    Segs mem xs (first Chain.addr ys q) ∧ Segs mem ys q := by
  unfold Segs
  rw [seg_append]
  constructor
  · rintro ⟨⟨h1, h2⟩, h⟩
    exact ⟨⟨h1, fun x hx => h x (List.mem_append_left _ hx)⟩,
      h2, fun x hx => h x (List.mem_append_right _ hx)⟩
  · rintro ⟨⟨h1, h3⟩, h2, h4⟩
    refine ⟨⟨h1, h2⟩, fun x hx => ?_⟩
    rcases List.mem_append.1 hx with hx | hx
    · exact h3 x hx
    · exact h4 x hx

theorem segs_cons : Segs mem (x :: xs) q ↔
    (mem x.addr = some (headNode x (first Chain.addr xs q)) ∧
      Seg mem Prod.fst restNode x.rest none) ∧ Segs mem xs q := by
  unfold Segs
  simp only [Seg, List.forall_mem_cons]
  constructor
  · rintro ⟨⟨h1, h2⟩, h3, h4⟩
    exact ⟨⟨h1, h3⟩, h2, h4⟩
  · rintro ⟨⟨h1, h3⟩, h2, h4⟩
    exact ⟨⟨h1, h2⟩, h3, h4⟩

theorem segs_nil : Segs mem [] q := ⟨trivial, by simp⟩

/-- Every address of a chain is live. -/
theorem Segs.live (h : Segs mem xs q) (hx : x ∈ xs) (ha : a ∈ x.addrs) : mem a ≠ none := by
  rcases List.mem_cons.1 ha with rfl | ha
  · obtain ⟨q', hq⟩ := h.1.cell hx
    show mem x.addr ≠ none
    simp [hq]
  · obtain ⟨m, hm, rfl⟩ := List.mem_map.1 ha
    obtain ⟨q', hq⟩ := (h.2 x hx).cell hm
    simp [hq]

/-! ## The whole context -/

/-- **The memory is the list of chains.** -/
structure Shape (c : ContextMem) (xs : List Chain) : Prop where
  root : c.root = first Chain.addr xs none
  segs : Segs c.mem xs none
  nodup : (xs.flatMap Chain.addrs).Nodup
  rootTable : (c.rootTable.getD []).Perm (xs.map Chain.head)
  good : ∀ x ∈ xs, x.Good
  sorted : xs.Pairwise fun x y => Precedes x.val y.val

/-! ## Writing -/

theorem write_eq {n n' : ExtenNode} {f : ExtenNode → Option ExtenNode} (h : c.mem a = some n)
    (hf : f n = some n') :
    c.write (some a) f = some { c with mem := Function.update c.mem a (some n') } := by
  unfold ContextMem.write
  simp [h, hf]

end Pbx

end Trismedia
