import Mathlib.Logic.Function.Basic
import Trismedia.Pbx.ExtCmp
/-!
# A context in memory

`tris_context_remove_extension_callerid2` of `main/pbx.c`, pointer by
pointer. The first priority of an extension, the
head, is on the context's list by `next`; the other priorities follow by
`peer`. The head owns a table of the priorities and one of the labels, and
the context owns a table of the heads.

A table is the list of what is in it, with the fields it compares: none
of them is written after the entry is made. What the operations of a table
do to that list is proved in `Hashtab`. The pattern tree is absent, as it
is until the first lookup under `extenpatternmatchnew`; hints, messages,
locks and the destructor of the data are left out. The result `none` is an
access through a null pointer or to what is freed, or a loop that has not
ended in `fuel` rounds.
-/


namespace Trismedia

namespace Pbx

open CString

abbrev Addr := ℕ

/-! ## Tables -/

/-- A table: the entries in it. -/
abbrev ExtenTable := List (Addr × Exten)

/-- `hashtab_compare_extens` finds no difference. -/
def compareExtens (a b : Exten) : Bool :=
  a.exten = b.exten ∧ a.matchcid = b.matchcid ∧ (a.matchcid → a.cidmatch = b.cidmatch)

/-- `hashtab_compare_exten_numbers` -/
def compareExtenNumbers (a b : Exten) : Bool := a.priority = b.priority

/-- `tris_hashtab_lookup` -/
def lookup (same : Exten → Exten → Bool) (t : Option ExtenTable) (x : Exten) :
    Option (Addr × Exten) :=
  t.bind fun t => t.find? fun y => same x y.2

/-- `tris_hashtab_insert_immediate` -/
def insertImmediate (t : Option ExtenTable) (x : Addr × Exten) : Option ExtenTable :=
  t.map fun t => x :: t

/-- `tris_hashtab_remove_this_object` -/
def removeThisObject (t : Option ExtenTable) (a : Addr) : Option ExtenTable :=
  t.map fun t => t.eraseP fun y => y.1 = a

/-! ## Memory -/

/-- `struct tris_exten` with its links and tables. -/
structure ExtenNode extends Exten where
  next : Option Addr
  peer : Option Addr
  peerTable : Option ExtenTable
  peerLabelTable : Option ExtenTable
  deriving DecidableEq

/-- A context and the memory its extensions are in. -/
structure ContextMem where
  mem : Addr → Option ExtenNode
  root : Option Addr
  rootTable : Option ExtenTable

namespace ContextMem

/-- Write through a pointer. -/
def write (c : ContextMem) (p : Option Addr) (f : ExtenNode → Option ExtenNode) :
    Option ContextMem := do
  let a ← p
  let n ← c.mem a
  let n ← f n
  return { c with mem := Function.update c.mem a (some n) }

/-- `tris_free` -/
def free (c : ContextMem) (a : Addr) : Option ContextMem := do
  let _ ← c.mem a
  return { c with mem := Function.update c.mem a none }

/-- What led to an extension is made to lead to `p`: the extension before
it on the list, or the root. -/
def linkAfter (c : ContextMem) (el p : Option Addr) : Option ContextMem :=
  if el.isSome then c.write el fun n => some { n with next := p }
  else some { c with root := p }

end ContextMem

/-- The comparison in the scan by which `tris_add_extension2` finds the place
of an entry: first the names, then the caller ids, where an entry with one
comes first. -/
def scanCmp (e tmp : Exten) : Option ℤ := do
  let res ← extCmp e.exten tmp.exten
  if res = 0 then
    if !e.matchcid && !tmp.matchcid then some 0
    else if tmp.matchcid && !e.matchcid then some 1
    else if e.matchcid && !tmp.matchcid then some (-1)
    else extCmp e.cidmatch tmp.cidmatch
  else some res

/-! ## Removing -/

/-- The arguments of `tris_context_remove_extension_callerid2`. -/
structure RemoveArgs where
  extension : CString
  priority : ℤ
  callerid : Option CString
  matchcallerid : Bool
  registrar : Option CString

/-- `ex`, by which the tables are searched. The fields that no comparison
reads are empty. -/
def RemoveArgs.ex (x : RemoveArgs) : Exten where
  exten := trisCopyString x.extension 1024
  matchcid := x.matchcallerid && !trisStrlenZero x.callerid
  cidmatch := x.callerid.getD []
  priority := x.priority
  label := none
  app := []
  data := []
  registrar := []

/-- The tests of the name and the caller id in the loops over the lists. -/
def RemoveArgs.names (x : RemoveArgs) (e : Exten) : Bool :=
  e.exten = x.extension ∧
    (!x.matchcallerid ∨
      (!trisStrlenZero x.callerid ∧ e.cidmatch ≠ [] ∧ e.cidmatch = x.callerid.getD []) ∨
      (trisStrlenZero x.callerid ∧ e.cidmatch = []))

/-- `!registrar || !strcmp(exten->registrar, registrar)` -/
def RemoveArgs.registers (x : RemoveArgs) (e : Exten) : Bool :=
  x.registrar = none ∨ x.registrar = some e.registrar

/-- `priority == 0 || peer->priority == priority` -/
def RemoveArgs.numbers (x : RemoveArgs) (e : Exten) : Bool :=
  x.priority = 0 ∨ e.priority = x.priority

/-- The test in the loop over the priorities. -/
def RemoveArgs.takes (x : RemoveArgs) (e : Exten) : Bool :=
  x.numbers e ∧ (x.callerid = none ∨ !x.matchcallerid ∨ x.callerid = some e.cidmatch) ∧
    x.registers e

/-- The first part: the tables. -/
def removeFromTables (c : ContextMem) (x : RemoveArgs) : Option ContextMem :=
  match lookup compareExtens c.rootTable x.ex with
  | none => some c
  | some (exten, _) =>
    if x.priority = 0 then some { c with rootTable := removeThisObject c.rootTable exten }
    else do
      let n ← c.mem exten
      match lookup compareExtenNumbers n.peerTable x.ex with
      | none => some c
      | some (exten2, e2) => do
        let c ← c.write (some exten) fun n =>
          let n := if e2.label.isSome then
            { n with peerLabelTable := removeThisObject n.peerLabelTable exten2 } else n
          some { n with peerTable := removeThisObject n.peerTable exten2 }
        let m ← c.mem exten2
        let c ←
          if exten2 = exten ∧ m.peer.isSome then do
            -- the object that is taken out is dereferenced
            let t ← c.rootTable
            let _ ← t.find? fun y => y.1 = exten
            let b ← m.peer
            let p ← c.mem b
            some { c with
              rootTable := insertImmediate (removeThisObject c.rootTable exten) (b, p.toExten) }
          else some c
        let n ← c.mem exten
        let t ← n.peerTable
        if t = [] then some { c with rootTable := removeThisObject c.rootTable exten }
        else some c

/-- The search for the first extension whose registrar matches. -/
def findLoop (mem : Addr → Option ExtenNode) (x : RemoveArgs) :
    ℕ → Option Addr → Option Addr → Option (Option Addr × Option Addr)
  | _, prev, none => some (prev, none)
  | 0, _, some _ => none
  | fuel + 1, prev, some exten => do
    let n ← mem exten
    if x.names n.toExten ∧ x.registers n.toExten then some (prev, some exten)
    else findLoop mem x fuel (some exten) n.next

/-- The first priority is unlinked: its tables go to the next one, which
takes its place on the list. -/
def unlinkHead (c : ContextMem) (prevExten : Option Addr) (p : Addr) : Option ContextMem := do
  let n ← c.mem p
  let nextNode := if n.peer.isSome then n.peer else n.next
  let c ←
    if n.peer.isSome then do
      let c ← c.write n.peer fun m =>
        some { m with peerTable := n.peerTable, peerLabelTable := n.peerLabelTable }
      c.write (some p) fun m => some { m with peerTable := none, peerLabelTable := none }
    else some c
  let c ← c.linkAfter prevExten nextNode
  if n.peer.isSome then do
    let n ← c.mem p
    c.write n.peer fun m => some { m with next := n.next }
  else some c

/-- `next_peer->peer ? next_peer->peer : next_peer->next` -/
def nextPeer (mem : Addr → Option ExtenNode) (p : Option Addr) : Option (Option Addr) :=
  match p with
  | none => some none
  | some a => do
    let n ← mem a
    return if n.peer.isSome then n.peer else n.next

/-- The scan of the priorities, which frees what it takes. -/
def removeLoop (x : RemoveArgs) (prevExten : Option Addr) :
    ℕ → ContextMem → Option Addr → Option Addr → Option Addr → Bool → Option (ContextMem × Bool)
  | _, c, none, _, _, found => some (c, found)
  | 0, _, some _, _, _, _ => none
  | fuel + 1, c, some peer, next, prev, found => do
    let n ← c.mem peer
    if !x.names n.toExten then some (c, found)
    else if x.takes n.toExten then do
      let c ←
        if prev.isNone then unlinkHead c prevExten peer
        else c.write prev fun m => some { m with peer := n.peer }
      let c ← c.free peer
      let next' ← nextPeer c.mem next
      removeLoop x prevExten fuel c next next' prev true
    else do
      let next' ← nextPeer c.mem next
      removeLoop x prevExten fuel c next next' (some peer) found

/-- **`tris_context_remove_extension_callerid2`**, with the value it
returns. -/
def trisContextRemoveExtensionCallerid2 (fuel : ℕ) (c : ContextMem) (x : RemoveArgs) :
    Option (ContextMem × ℤ) := do
  let c ← removeFromTables c x
  let (prevExten, exten) ← findLoop c.mem x fuel none c.root
  match exten with
  | none => some (c, -1)
  | some exten => do
    let next ← nextPeer c.mem (some exten)
    let (c, found) ← removeLoop x prevExten fuel c (some exten) next none false
    return (c, if found then 0 else -1)

end Pbx

end Trismedia
