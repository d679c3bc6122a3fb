import Mathlib.Data.Int.Notation
import Trismedia.Common.CString
/-!
# The dialplan

Contexts, their extensions and what else is in them, as `main/pbx.c` has
them. The extensions of a context are a list, and each is the list of its
priorities: `first` is the head, which is on the context's list and owns
the tables of the others. A table is looked up by name or number, so it is
modelled by the list of what is in it.
-/


namespace Trismedia

namespace Pbx

open CString

/-- `struct tris_exten`: one priority of an extension. `cidmatch` is empty
where `matchcid` is not set. -/
structure Exten where
  exten : CString
  matchcid : Bool
  cidmatch : CString
  priority : ℤ
  label : Option CString
  app : CString
  data : CString
  registrar : CString
  deriving DecidableEq, Repr

/-- The priorities of one extension, the head first. -/
structure Extension where
  first : Exten
  rest : List Exten
  deriving DecidableEq, Repr

/-- What is in the `peer_table`. -/
def Extension.peers (x : Extension) : List Exten := x.first :: x.rest

/-- `tris_hashtab_lookup` in the `peer_table`. -/
def Extension.peerTable (x : Extension) (priority : ℤ) : Option Exten :=
  x.peers.find? fun e => e.priority = priority

/-- `tris_hashtab_lookup` in the `peer_label_table`. -/
def Extension.peerLabelTable (x : Extension) (label : CString) : Option Exten :=
  x.peers.find? fun e => e.label = some label

/-- `struct tris_timing` -/
structure Timing where
  monthmask : BitVec 32
  daymask : BitVec 32
  dowmask : BitVec 32
  minmask : Vector (BitVec 32) 48
  timezone : Option CString
  deriving DecidableEq

/-- `struct tris_tm`, as far as it is used. -/
structure Tm where
  tmMon : ℕ
  tmMday : ℕ
  tmWday : ℕ
  tmHour : ℤ
  tmMin : ℕ
  deriving DecidableEq, Repr

/-- `struct tris_include` -/
structure Include where
  name : CString
  rname : CString
  registrar : CString
  hastime : Bool
  timing : Timing
  deriving DecidableEq

/-- `struct tris_sw` -/
structure Sw where
  name : CString
  registrar : CString
  data : CString
  eval : Bool
  deriving DecidableEq, Repr

/-- `struct tris_ignorepat` -/
structure Ignorepat where
  registrar : CString
  pattern : CString
  deriving DecidableEq, Repr

/-- `struct tris_context` -/
structure Context where
  name : CString
  root : List Extension
  includes : List Include
  ignorepats : List Ignorepat
  registrar : CString
  refcount : ℤ
  alts : List Sw
  deriving DecidableEq

/-- `tris_hashtab_lookup` in a table of contexts, whose names differ. -/
def findContext (contexts : List Context) (name : CString) : Option Context :=
  contexts.find? fun c => c.name = name

/-- The bit `i` of a mask is set. -/
def maskBit (mask : BitVec 32) (i : ℕ) : Bool := mask &&& (1 <<< i) ≠ 0

/-- `tris_check_timing`, at the local time of each time zone. -/
def trisCheckTiming (localtime : Option CString → Tm) (i : Timing) : Bool :=
  let tm := localtime i.timezone
  if !maskBit i.monthmask tm.tmMon then false
  else if !maskBit i.daymask (tm.tmMday - 1) then false
  else if !maskBit i.dowmask tm.tmWday then false
  else if tm.tmHour < 0 ∨ 23 < tm.tmHour then false
  else
    let half := tm.tmHour.toNat * 2 + (if 30 ≤ tm.tmMin then 1 else 0)
    maskBit (i.minmask[half]?.getD 0) (if 30 ≤ tm.tmMin then tm.tmMin - 30 else tm.tmMin)

/-- `include_valid` -/
def includeValid (localtime : Option CString → Tm) (i : Include) : Bool :=
  if !i.hastime then true else trisCheckTiming localtime i.timing

variable {contexts : List Context} {name : CString} {c : Context}

theorem findContext_name (h : findContext contexts name = some c) : c.name = name := by
  simpa using List.find?_some h

theorem findContext_mem (h : findContext contexts name = some c) : c ∈ contexts :=
  List.mem_of_find?_eq_some h

end Pbx

end Trismedia
