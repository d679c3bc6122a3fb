import Trismedia.Heap.Runs
import Trismedia.Hashtab.Ops
import Trismedia.Sched.Time
/-!
# The scheduler

`main/sched.c` over the models of its heap and its hash table. A context
keeps each entry in a heap by due time, in a table by id, and counts
them; entries no longer needed go to a cache of at most
`SCHED_MAX_CACHE`. `mem` is the memory of the entries: `none` where none
is allocated. A call takes from its environment what the clock reads and
the addresses that `calloc` returns.

`tris_sched_runq` is cut where it gives up the lock: `runqNext` up to the
call of the callback, `runqReturn` after it.
-/


namespace Trismedia

namespace Sched

open Heap Hashtab

/-- The address of an entry: the one `tris_sched_del` has on its stack,
or one from `calloc`. -/
inductive Ptr
  | tmp
  | cell (n : ℕ)
  deriving DecidableEq, Repr

/-- `struct sched`. The position in the heap is kept by the heap. -/
structure Entry where
  id : ℤ
  when : Timeval
  resched : ℤ
  variableRes : ℤ
  data : ℕ
  callback : ℕ
  deriving DecidableEq, Repr

/-- `struct sched_context` and the memory of the entries. -/
structure SchedContext where
  eventcnt : ℕ
  schedcnt : ℕ
  highwater : ℕ
  schedqHt : TrisHashtab Ptr
  schedHeap : TrisHeap Ptr
  /-- The cache, first entry first. -/
  schedc : List Ptr
  schedccnt : ℕ
  mem : Ptr → Option Entry

/-- What a call is given from outside: the clock, an entry and a bucket
from `calloc`. -/
structure Env where
  now : Clock
  fresh : ℕ
  addr : Addr

/-- `calloc` returns memory that is not in use. -/
def Env.Fresh (env : Env) (con : SchedContext) : Prop :=
  con.mem (.cell env.fresh) = none ∧ con.schedqHt.object env.addr = none

def schedMaxCache : ℕ := 128

/-- Arithmetic of `unsigned int`. -/
def uint (n : ℕ) : ℕ := n % 2 ^ 32

/-- An `unsigned int` stored in an `int`. -/
def toInt (n : ℕ) : ℤ := if n < 2 ^ 31 then n else n - 2 ^ 32

def zeroEntry : Entry := ⟨0, ⟨0, 0⟩, 0, 0, 0, 0⟩

def idOf (mem : Ptr → Option Entry) (p : Ptr) : ℤ := ((mem p).getD zeroEntry).id

def whenOf (mem : Ptr → Option Entry) (p : Ptr) : Timeval := ((mem p).getD zeroEntry).when

def schedCmp (mem : Ptr → Option Entry) (a b : Ptr) : ℤ :=
  if idOf mem a ≠ idOf mem b then 1 else 0

def schedHash (mem : Ptr → Option Entry) (obj : Ptr) : ℕ := toUnsigned (idOf mem obj)

def schedTimeCmp (mem : Ptr → Option Entry) (a b : Ptr) : ℤ := trisTvcmp (whenOf mem b) (whenOf mem a)

/-- `sched_context_create`; `nulls` is what the empty structures hold. -/
def schedContextCreate : Option SchedContext := do
  let ht ← trisHashtabCreate Ptr 23 (some .java) (some .java)
  some {
    eventcnt := 1
    schedcnt := 0
    highwater := 0
    schedqHt := ht
    schedHeap := trisHeapCreate .tmp (fun _ => 0) 8 0
    schedc := []
    schedccnt := 0
    mem := fun _ => none }

variable (con : SchedContext)

def schedAlloc (env : Env) : SchedContext × Ptr :=
  match con.schedc with
  | tmp :: rest => ({ con with schedc := rest, schedccnt := con.schedccnt - 1 }, tmp)
  | [] =>
    ({ con with mem := Function.update con.mem (.cell env.fresh) (some zeroEntry) },
      .cell env.fresh)

def schedRelease (tmp : Ptr) : SchedContext :=
  if con.schedccnt < schedMaxCache then
    { con with schedc := tmp :: con.schedc, schedccnt := con.schedccnt + 1 }
  else { con with mem := Function.update con.mem tmp none }

/-- `schedule`. That the table refuses a duplicate id is logged and no
more. -/
def schedule (s : Ptr) (addr : Addr) : Option SchedContext := do
  let heap := trisHeapPush (schedTimeCmp con.mem) con.schedHeap s
  let (ht, _) ← trisHashtabInsertSafe (schedCmp con.mem) (schedHash con.mem) con.schedqHt
    (some s) addr
  let schedcnt := uint (con.schedcnt + 1)
  some { con with
    schedHeap := heap
    schedqHt := ht
    schedcnt := schedcnt
    highwater := if schedcnt > con.highwater then schedcnt else con.highwater }

/-- `sched_settime`: what it stores through `t`. It always returns `0`. -/
def schedSettime (t : Timeval) (when : ℤ) (now : Timeval) : Timeval :=
  let t := if trisTvzero t then now else t
  let t := trisTvadd t (trisSamp2tv (toUnsigned when) 1000)
  if trisTvcmp t now < 0 then now else t

def trisSchedAddVariable (env : Env) (when : ℤ) (callback data : ℕ) (variableRes : ℤ) :
    Option (SchedContext × ℤ) := do
  let (con, tmp) := schedAlloc con env
  let id := toInt con.eventcnt
  let entry : Entry := ⟨id, schedSettime (trisTv 0 0) when env.now.tv, when, variableRes, data, callback⟩
  let con := { con with
    eventcnt := uint (con.eventcnt + 1)
    mem := Function.update con.mem tmp (some entry) }
  let con ← schedule con tmp env.addr
  some (con, id)

def trisSchedAdd (env : Env) (when : ℤ) (callback data : ℕ) : Option (SchedContext × ℤ) :=
  trisSchedAddVariable con env when callback data 0

/-- What `tris_sched_del` and `tris_sched_runq` do about the table and the
count once `s` is out of the heap. -/
def dequeue (heap : TrisHeap Ptr) (s : Ptr) : Option SchedContext := do
  let (ht, _) ← trisHashtabRemoveThisObject (schedHash con.mem) con.schedqHt (some s)
  some { con with
    schedHeap := heap
    schedqHt := ht
    schedcnt := uint (con.schedcnt + (2 ^ 32 - 1)) }

/-- The lookup by id, through an entry on the stack. -/
def findId (id : ℤ) : Option (Option Ptr) :=
  let mem := Function.update con.mem .tmp (some { zeroEntry with id := id })
  trisHashtabLookup (schedCmp mem) (schedHash mem) con.schedqHt (some .tmp)

def trisSchedDel (id : ℤ) : Option (SchedContext × ℤ) := do
  match ← findId con id with
  | some s =>
    let con ← dequeue con (trisHeapRemove (schedTimeCmp con.mem) con.schedHeap s).2 s
    some (schedRelease con s, 0)
  | none => some (con, -1)

/-- The loop of `TRIS_SCHED_DEL`, with `n` attempts left of ten;
`schedRes` is the value of the macro. -/
def trisSchedDelLoop (id : ℤ) : ℕ → SchedContext → ℤ → Option (SchedContext × ℤ)
  | 0, con, schedRes => some (con, schedRes)
  | n + 1, con, schedRes =>
    if id > -1 then do
      let (con, schedRes) ← trisSchedDel con id
      if schedRes ≠ 0 then trisSchedDelLoop id n con schedRes else some (con, schedRes)
    else some (con, schedRes)

/-- The deletion that `tris_sched_replace_variable` starts with: `0` means
the item is new. -/
def replaceVariableDel (oldId : ℤ) : Option (SchedContext × ℤ) :=
  if oldId > 0 then trisSchedDelLoop oldId 10 con (-1) else some (con, -1)

/-- The deletion that `tris_sched_replace` starts with. -/
def replaceDel (oldId : ℤ) : Option (SchedContext × ℤ) :=
  if oldId > -1 then trisSchedDelLoop oldId 10 con (-1) else some (con, -1)

def trisSchedReplaceVariable (env : Env) (oldId when : ℤ) (callback data : ℕ) (variableRes : ℤ) :
    Option (SchedContext × ℤ) := do
  let (con, _) ← replaceVariableDel con oldId
  trisSchedAddVariable con env when callback data variableRes

def trisSchedReplace (env : Env) (oldId when : ℤ) (callback data : ℕ) :
    Option (SchedContext × ℤ) := do
  let (con, _) ← replaceDel con oldId
  trisSchedAdd con env when callback data

def trisSchedWait (now : Clock) : ℤ :=
  match trisHeapPeek con.schedHeap 1 with
  | some s =>
    let ms := trisTvdiffMs (whenOf con.mem s) now.tv
    if ms < 0 then 0 else ms
  | none => -1

/-! ## One pass -/

/-- `when` in `tris_sched_runq`: what is due before it runs in this pass. -/
def runqLimit (now : Clock) : Timeval := trisTvadd now.tv (trisTv 0 1000)

/-- From the test of the loop to the call of the callback: the entry to
run, `none` when the loop ends. -/
def runqNext (limit : Timeval) : Option (SchedContext × Option Ptr) :=
  match trisHeapPeek con.schedHeap 1 with
  | none => some (con, none)
  | some current =>
    if trisTvcmp (whenOf con.mem current) limit ≠ -1 then some (con, none)
    else
      match trisHeapPop (schedTimeCmp con.mem) con.schedHeap with
      | (none, _) => some (con, none)
      | (some current, heap) => do
        let con ← dequeue con heap current
        some (con, some current)

/-- `current->variable? res : current->resched` -/
def chosenDelay (e : Entry) (res : ℤ) : ℤ := if e.variableRes ≠ 0 then res else e.resched

/-- `sched_settime(&current->when, current->variable? res : current->resched)` -/
def setWhen (current : Ptr) (res : ℤ) (now : Clock) : SchedContext :=
  let e := (con.mem current).getD zeroEntry
  let when := schedSettime e.when (chosenDelay e res) now.tv
  { con with mem := Function.update con.mem current (some { e with when := when }) }

/-- After the callback of `current` returned `res`. -/
def runqReturn (current : Ptr) (res : ℤ) (env : Env) : Option SchedContext :=
  if res ≠ 0 then schedule (setWhen con current res env.now) current env.addr
  else some (schedRelease con current)

end Sched

end Trismedia
