import Mathlib.Logic.Function.Basic
import Trismedia.Common.CInt
/-!
# Reference counted objects and their containers

`main/astobj2.c` as it computes: objects with a reference counter, and a
container that keeps them in buckets by the hash of their data. An object
is a cell of memory, known by its address; `none` is memory not in use,
and reading it makes the whole call `none`, as does an index outside the
bucket array or a division that traps. What an object holds for its user
(`κ`) does not change while it lives.

A bucket is the list of its `bucket_list` records, oldest first. Locks,
the magic number, destructors and the log are left out, and so is the
container's own life as an object. The counters are the code's own `int`s.
-/


namespace Trismedia

namespace Ao2

open CInt

/-- `struct astobj2`: the counter and the user's data. -/
structure Astobj2 (κ : Type) where
  refCounter : ℤ
  userData : κ
  deriving DecidableEq, Repr

/-- The objects in memory, by address. -/
abbrev Memory (α κ : Type) := α → Option (Astobj2 κ)

/-- `struct bucket_list`: one link. -/
structure BucketList (α : Type) where
  version : ℤ
  astobj : α
  deriving DecidableEq, Repr

/-- `struct ao2_container`. `size` bucket heads are allocated behind it;
`nBuckets` is what the `int` field holds of that number. -/
structure Ao2Container (α : Type) where
  nBuckets : ℤ
  elements : ℤ
  version : ℤ
  size : ℕ
  buckets : ℕ → List (BucketList α)

/-- `CMP_MATCH` -/
def cmpMatch : BitVec 32 := 1

/-- `CMP_STOP` -/
def cmpStop : BitVec 32 := 2

/-- `enum search_flags` -/
structure SearchFlags where
  objUnlink : Bool
  objNodata : Bool
  objMultiple : Bool
  objPointer : Bool
  objContinue : Bool
  deriving DecidableEq, Repr

/-- A callback sees an object and the argument `γ`, which it may change. -/
abbrev Callback (α κ γ : Type) := γ → α → κ → BitVec 32 × γ

variable {α κ γ : Type} [DecidableEq α]

/-! ## Strings -/

/-- The loop of `tris_str_hash` and `tris_str_hash_add`; a `char` is signed. -/
def strHashLoop (str : List (BitVec 8)) (hash : BitVec 32) : BitVec 32 :=
  str.foldl (fun hash c => hash * 33 ^^^ c.signExtend 32) hash

/-- `tris_str_hash_add` -/
def trisStrHashAdd (str : List (BitVec 8)) (hash : BitVec 32) : BitVec 32 :=
  (strHashLoop str hash).abs

/-- `tris_str_hash` -/
def trisStrHash (str : List (BitVec 8)) : BitVec 32 := trisStrHashAdd str 5381

/-! ## References -/

/-- `tris_atomic_fetchadd_int`, the value it leaves. -/
def fetchAdd (v delta : ℤ) : ℤ := wrapInt (v + delta)

/-- `__ao2_ref`: the counter before, and the object freed with its last
reference. -/
def ao2Ref (mem : Memory α κ) (userData : α) (delta : ℤ) : Option (Memory α κ × ℤ) := do
  let obj ← mem userData
  if delta = 0 then
    some (mem, obj.refCounter)
  else
    let ret := obj.refCounter
    let currentValue := fetchAdd ret delta
    if currentValue ≤ 0 ∧ 0 < ret then
      some (Function.update mem userData none, ret)
    else
      some (Function.update mem userData (some { obj with refCounter := currentValue }), ret)

/-- `__ao2_alloc`, at the address `calloc` returned. -/
def ao2Alloc (mem : Memory α κ) (addr : α) (userData : κ) : Memory α κ :=
  Function.update mem addr (some ⟨1, userData⟩)

/-! ## Containers -/

/-- `_ao2_container_alloc`. The size is unsigned, the field is not. -/
def ao2ContainerAlloc (α : Type) (nBuckets : BitVec 32) : Ao2Container α where
  nBuckets := nBuckets.toInt
  elements := 0
  version := 1
  size := nBuckets.toNat
  buckets _ := []

/-- The bucket `__ao2_link` takes for a hash. -/
def linkIndex (nBuckets : ℤ) (hash : BitVec 32) : Option ℤ := cRem (cAbs hash.toInt) nBuckets

/-- The bucket array is indexed inside its bounds. -/
def Ao2Container.Inside (c : Ao2Container α) (i : ℤ) : Prop := 0 ≤ i ∧ i < c.size

instance (c : Ao2Container α) (i : ℤ) : Decidable (c.Inside i) :=
  inferInstanceAs (Decidable (0 ≤ i ∧ i < c.size))

/-- `_ao2_link` with `__ao2_link`. -/
def ao2Link (hashFn : κ → BitVec 32) (mem : Memory α κ) (c : Ao2Container α) (userData : α) :
    Option (Memory α κ × Ao2Container α) := do
  let obj ← mem userData
  let i ← linkIndex c.nBuckets (hashFn obj.userData)
  if c.Inside i then
    let p : BucketList α := ⟨c.version, userData⟩
    let c := { c with
      version := fetchAdd c.version 1
      buckets := Function.update c.buckets i.toNat (c.buckets i.toNat ++ [p])
      elements := fetchAdd c.elements 1 }
    let (mem, _) ← ao2Ref mem userData 1
    some (mem, c)
  else
    none

/-! ## Searching -/

/-- What `__ao2_callback` carries from one record to the next. -/
structure Search (α κ γ : Type) where
  mem : Memory α κ
  elements : ℤ
  version : ℤ
  arg : γ
  ret : Option α

/-- If the object must be returned, record it. -/
def returnObject (flags : SearchFlags) (s : Search α κ γ) (cur : BucketList α) :
    Option (Search α κ γ) :=
  if flags.objNodata then
    some s
  else do
    let (mem, _) ← ao2Ref s.mem cur.astobj 1
    some { s with mem := mem, ret := some cur.astobj }

/-- If the object must be unlinked, the container's reference goes. -/
def unlinkObject (flags : SearchFlags) (s : Search α κ γ) (cur : BucketList α) :
    Option (Search α κ γ) :=
  if flags.objUnlink then do
    let (mem, _) ← ao2Ref s.mem cur.astobj (-1)
    some { s with
      mem := mem
      version := fetchAdd s.version 1
      elements := fetchAdd s.elements (-1) }
  else
    some s

/-- What is done with a record that matches: the value is recorded before
the unlink. -/
def matchRecord (flags : SearchFlags) (s : Search α κ γ) (cur : BucketList α) :
    Option (Search α κ γ) := do
  let s ← returnObject flags s cur
  unlinkObject flags s cur

/-- The traversal of one bucket: the records that stay in it, and whether
the search is to stop. -/
def traverse (flags : SearchFlags) (cb : Callback α κ γ) :
    List (BucketList α) → Search α κ γ → Option (List (BucketList α) × Search α κ γ × Bool)
  | [], s => some ([], s, false)
  | cur :: rest, s => do
    let obj ← s.mem cur.astobj
    let (res, arg) := cb s.arg cur.astobj obj.userData
    let s := { s with arg := arg }
    let m := (cmpMatch ||| cmpStop) &&& res
    if m = 0 then
      let (kept, s, stop) ← traverse flags cb rest s
      some (cur :: kept, s, stop)
    else if m = cmpStop then
      some (cur :: rest, s, true)
    else
      let s ← matchRecord flags s cur
      if m &&& cmpStop ≠ 0 ∨ flags.objMultiple = false then
        some (if flags.objUnlink then rest else cur :: rest, s, true)
      else
        let (kept, s, stop) ← traverse flags cb rest s
        some (if flags.objUnlink then kept else cur :: kept, s, stop)

/-- The bounds `start`, `i` and `last` of the search. -/
def searchRange (nBuckets : ℤ) (flags : SearchFlags) (hash : BitVec 32) : Option (ℤ × ℤ × ℤ) := do
  let i ← if flags.objPointer then cRem hash.toInt nBuckets else some (-1)
  if i < 0 then
    some (0, 0, nBuckets)
  else if flags.objContinue then
    some (i, i, nBuckets)
  else
    some (i, i, wrapInt (i + 1))

/-- The loop over the buckets, for at most `fuel` rounds. -/
def bucketLoop (flags : SearchFlags) (cb : Callback α κ γ) (nBuckets : ℤ) (size : ℕ) (start : ℤ) :
    ℕ → ℤ → ℤ → (ℕ → List (BucketList α)) → Search α κ γ →
      Option ((ℕ → List (BucketList α)) × Search α κ γ)
  | 0, _, _, _, _ => none
  | fuel + 1, i, last, buckets, s =>
    if i < last then
      if 0 ≤ i ∧ i < size then do
        let (kept, s, stop) ← traverse flags cb (buckets i.toNat) s
        let buckets := Function.update buckets i.toNat kept
        let i := if stop then last else i
        if s.ret.isSome then
          some (buckets, s)
        else if i = nBuckets - 1 ∧ flags.objPointer ∧ flags.objContinue then
          -- move to the beginning
          bucketLoop flags cb nBuckets size start fuel 0 start buckets s
        else
          bucketLoop flags cb nBuckets size start fuel (wrapInt (i + 1)) last buckets s
      else
        none
    else
      some (buckets, s)

/-- `__ao2_callback`. `hash` is what the hash function says of the argument. -/
def ao2Callback (fuel : ℕ) (mem : Memory α κ) (c : Ao2Container α) (flags : SearchFlags)
    (hash : BitVec 32) (cb : Callback α κ γ) (arg : γ) :
    Option (Memory α κ × Ao2Container α × γ × Option α) :=
  if flags.objMultiple ∧ flags.objNodata = false then
    some (mem, c, arg, none)
  else do
    let (start, i, last) ← searchRange c.nBuckets flags hash
    let (buckets, s) ← bucketLoop flags cb c.nBuckets c.size start fuel i last c.buckets
      ⟨mem, c.elements, c.version, arg, none⟩
    some (s.mem, { c with buckets := buckets, elements := s.elements, version := s.version },
      s.arg, s.ret)

/-- `ao2_match_by_addr` -/
def ao2MatchByAddr (userData : α) : Callback α κ Unit := fun arg obj _ =>
  (if obj = userData then cmpMatch ||| cmpStop else 0, arg)

/-- `_ao2_unlink` -/
def ao2Unlink (hashFn : κ → BitVec 32) (fuel : ℕ) (mem : Memory α κ) (c : Ao2Container α)
    (userData : α) : Option (Memory α κ × Ao2Container α) := do
  let obj ← mem userData
  let (mem, c, _, _) ← ao2Callback fuel mem c ⟨true, true, false, true, false⟩
    (hashFn obj.userData) (ao2MatchByAddr userData) ()
  some (mem, c)

/-- The comparison function of a container, as a callback. -/
def cmpCallback (cmpFn : κ → κ → BitVec 32) (arg : κ) : Callback α κ Unit := fun g _ data =>
  (cmpFn data arg, g)

/-- `_ao2_find` -/
def ao2Find (hashFn : κ → BitVec 32) (cmpFn : κ → κ → BitVec 32) (fuel : ℕ) (mem : Memory α κ)
    (c : Ao2Container α) (arg : κ) (flags : SearchFlags) :
    Option (Memory α κ × Ao2Container α × Option α) := do
  let (mem, c, _, ret) ← ao2Callback fuel mem c flags (hashFn arg) (cmpCallback cmpFn arg) ()
  some (mem, c, ret)

end Ao2

end Trismedia
