import Mathlib.NumberTheory.Bertrand
import Trismedia.Common.Dll
/-!
# The hash table

`main/hashtab.c` as it computes. A table is an array of buckets' heads
and a list `tlist` of all buckets, newest first; every bucket sits in
the doubly linked chain of its array slot (`next`, `prev`) and in `tlist`
(`tnext`, `tprev`). The buckets are cells of memory, so the struct is
modelled with one field function of the address per member; `object a`
is `none` where no bucket is allocated. `malloc` may return any address
that is not in use: an insertion takes the one it returned as `addr`.

The comparison and hash functions read memory the caller owns, so they
are arguments of each call instead of members. Loops along links end
with the list; they run here for at most as many buckets as the table
counts and give `none` past that.
-/


namespace Trismedia

namespace Hashtab

open Dll

/-- The address of a bucket. -/
abbrev Addr := ℕ

/-- The `resize` functions: when to grow. -/
inductive ResizeFn
  | java
  | tight
  | none
  deriving DecidableEq, Repr

/-- The `newsize` functions: how far to grow. -/
inductive NewsizeFn
  | java
  | tight
  | none
  deriving DecidableEq, Repr

/-- `struct tris_hashtab`, with the memory of its buckets. -/
structure TrisHashtab (α : Type) where
  array : ℕ → Option Addr
  tlist : Option Addr
  resize : ResizeFn
  newsize : NewsizeFn
  hashTabSize : ℕ
  hashTabElements : ℕ
  largestBucketSize : ℕ
  resizeCount : ℕ
  object : Addr → Option α
  next : Addr → Option Addr
  prev : Addr → Option Addr
  tnext : Addr → Option Addr
  tprev : Addr → Option Addr

variable {α : Type} (compare : α → α → ℤ) (hash : α → ℕ) (tab : TrisHashtab α)

/-! ## Growing -/

/-- The trial divisions of `tris_is_prime`, from `tnum` up to `limit`. -/
def isPrimeLoop (num tnum limit : ℕ) : Bool :=
  if tnum < limit then
    if num % tnum = 0 then false else isPrimeLoop num (tnum + 2) (num / tnum)
  else true
termination_by max limit num - tnum
decreasing_by
  have hdiv : num / tnum ≤ num := Nat.div_le_self _ _
  omega

/-- `tris_is_prime`. A limit that is not positive ends the loop at once,
so every odd negative number passes. -/
def trisIsPrime (num : ℤ) : Bool :=
  if num % 2 = 0 then false else isPrimeLoop num.toNat 3 num.toNat

def nextPrimeLoop : ℕ → ℤ → ℤ
  | 0, i => i
  | n + 1, i => if trisIsPrime i then i else nextPrimeLoop n (i + 1)

/-- `while (!tris_is_prime(i)) i++;`. The bound is never the reason to
stop: see `trisIsPrime_nextPrime`. -/
def nextPrime (i : ℤ) : ℤ := nextPrimeLoop (i.toNat + 2) i

/-- `loadfactor > 0.75`. Both counts fit an `int`, so the quotient of the
doubles exceeds three quarters exactly where the rational one does. -/
def trisHashtabResizeJava : Bool := 4 * tab.hashTabElements > 3 * tab.hashTabSize

def trisHashtabResizeTight : Bool := tab.hashTabElements > tab.hashTabSize

def trisHashtabNewsizeJava : ℕ := (nextPrime (tab.hashTabSize * 2 : ℕ)).toNat

def trisHashtabNewsizeTight : ℕ :=
  (nextPrime (tab.hashTabSize + tab.hashTabSize * 2 : ℕ)).toNat

/-- `(*tab->resize)(tab)` -/
def callResize : Bool :=
  match tab.resize with
  | .java => trisHashtabResizeJava tab
  | .tight => trisHashtabResizeTight tab
  | .none => false

/-- `(*tab->newsize)(tab)` -/
def callNewsize : ℕ :=
  match tab.newsize with
  | .java => trisHashtabNewsizeJava tab
  | .tight => trisHashtabNewsizeTight tab
  | .none => tab.hashTabSize

/-- `tris_hashtab_create`. An array of a negative size is not allocated. -/
def trisHashtabCreate (α : Type) (initialBuckets : ℤ) (resize : Option ResizeFn)
    (newsize : Option NewsizeFn) : Option (TrisHashtab α) :=
  let size := nextPrime initialBuckets
  if size < 0 then none
  else some {
    array := fun _ => none
    tlist := none
    resize := resize.getD .java
    newsize := newsize.getD .java
    hashTabSize := size.toNat
    hashTabElements := 0
    largestBucketSize := 0
    resizeCount := 0
    object := fun _ => none
    next := fun _ => none
    prev := fun _ => none
    tnext := fun _ => none
    tprev := fun _ => none }

/-! ## The two lists -/

/-- `tlist_del_item` on `tab->tlist` -/
def tlistDelItem (item : Addr) : TrisHashtab α :=
  if tab.tlist = some item then
    { tab with
      tlist := tab.tnext item
      tprev := setAt tab.tprev (tab.tnext item) none }
  else
    let tnext := setAt tab.tnext (tab.tprev item) (tab.tnext item)
    { tab with
      tnext := tnext
      tprev := setAt tab.tprev (tnext item) (tab.tprev item) }

/-- `tlist_add_head` on `tab->tlist` -/
def tlistAddHead (item : Addr) : TrisHashtab α :=
  match tab.tlist with
  | some head =>
    { tab with
      tnext := Function.update tab.tnext item (some head)
      tprev := Function.update (Function.update tab.tprev item none) head (some item)
      tlist := some item }
  | none =>
    { tab with
      tlist := some item
      tprev := Function.update tab.tprev item none
      tnext := Function.update tab.tnext item none }

/-- `b->next = tab->array[h]; if (b->next) b->next->prev = b; tab->array[h] = b;` -/
def linkBucket (b : Addr) (h : ℕ) : TrisHashtab α :=
  { tab with
    next := Function.update tab.next b (tab.array h)
    prev := setAt tab.prev (tab.array h) (some b)
    array := Function.update tab.array h (some b) }

/-- `(*tab->hash)(obj) % tab->hash_tab_size` -/
def slotOf (obj : α) : ℕ := hash obj % tab.hashTabSize

/-- The second loop of `tris_hashtab_resize`: every bucket of `tlist` to
the front of its new slot. -/
def rehashLoop : ℕ → Option Addr → TrisHashtab α → Option (TrisHashtab α)
  | _, none, tab => some tab
  | 0, some _, _ => none
  | n + 1, some b, tab =>
    let tab := { tab with prev := Function.update tab.prev b none }
    let bn := tab.tnext b
    let h := (tab.object b).elim 0 (slotOf hash tab)
    rehashLoop n bn (linkBucket tab b h)

/-- The last loop of `tris_hashtab_resize`, from slot `i` on for `n` slots. -/
def largestLoop (i largest : ℕ) : ℕ → Option ℕ
  | 0 => some largest
  | n + 1 => do
    let c ← countLinks tab.next tab.hashTabElements (tab.array i)
    largestLoop (i + 1) (if c > largest then c else largest) n

def trisHashtabResize : Option (TrisHashtab α) := do
  let newsize := callNewsize tab
  let tab := { tab with
    array := fun _ => none
    resizeCount := tab.resizeCount + 1
    hashTabSize := newsize
    largestBucketSize := 0 }
  let tab ← rehashLoop hash tab.hashTabElements tab.tlist tab
  let largest ← largestLoop tab 0 tab.largestBucketSize tab.hashTabSize
  some { tab with largestBucketSize := largest }

/-- `if ((*tab->resize)(tab)) tris_hashtab_resize(tab);` -/
def resizeIfAsked : Option (TrisHashtab α) :=
  if callResize tab then trisHashtabResize hash tab else some tab

/-! ## Insertion -/

/-- `tris_hashtab_insert_immediate_bucket` from the bucket `addr` that
`calloc` returns, all zero, to the new count. -/
def addBucket (obj : α) (h : ℕ) (addr : Addr) : TrisHashtab α :=
  let tab := { tab with
    object := Function.update tab.object addr (some obj)
    prev := Function.update tab.prev addr none }
  let tab := tlistAddHead (linkBucket tab addr h) addr
  { tab with hashTabElements := tab.hashTabElements + 1 }

def trisHashtabInsertImmediateBucket (obj : Option α) (h : ℕ) (addr : Addr) :
    Option (TrisHashtab α × ℤ) :=
  match obj with
  | none => some (tab, 0)
  | some obj => do
    let c ← countLinks tab.next tab.hashTabElements (tab.array h)
    let tab := { tab with
      largestBucketSize := if c + 1 > tab.largestBucketSize then c + 1 else tab.largestBucketSize }
    let tab := addBucket tab obj h addr
    let tab ← resizeIfAsked hash tab
    some (tab, 1)

def trisHashtabInsertImmediate (obj : Option α) (addr : Addr) : Option (TrisHashtab α × ℤ) :=
  match obj with
  | none => some (tab, 0)
  | some o => trisHashtabInsertImmediateBucket hash tab obj (slotOf hash tab o) addr

/-! ## Lookup -/

/-- The bucket of chain `h` at which `found` first holds of the object. -/
def findBucket (found : α → Bool) (h : ℕ) : Option (Option Addr) :=
  findLink tab.next (fun b => (tab.object b).elim false found) tab.hashTabElements (tab.array h)

def trisHashtabLookupInternal (obj : α) (h : ℕ) : Option (Option α) := do
  let b ← findBucket tab (fun o => compare obj o == 0) h
  some (b.bind tab.object)

/-- `tris_hashtab_lookup_bucket`, with the bucket it stores through its
last argument. -/
def trisHashtabLookupBucket (obj : Option α) : Option (Option α × ℕ) :=
  match obj with
  | none => some (none, 0)
  | some o => do
    let h := slotOf hash tab o
    let ret ← trisHashtabLookupInternal compare tab o h
    some (ret, h)

def trisHashtabLookup (obj : Option α) : Option (Option α) :=
  match obj with
  | none => some none
  | some o => trisHashtabLookupInternal compare tab o (slotOf hash tab o)

def trisHashtabInsertSafe (obj : Option α) (addr : Addr) : Option (TrisHashtab α × ℤ) := do
  let (found, bucket) ← trisHashtabLookupBucket compare hash tab obj
  match found with
  | none => trisHashtabInsertImmediateBucket hash tab obj bucket addr
  | some _ => some (tab, 0)

/-! ## Removal -/

/-- Bucket `b` out of chain `h`: the first statements of
`tris_hashtab_remove_object_internal`. -/
def unlinkBucket (b : Addr) (h : ℕ) : TrisHashtab α :=
  let tab :=
    match tab.prev b with
    | some p => { tab with next := Function.update tab.next p (tab.next b) }
    | none => { tab with array := Function.update tab.array h (tab.next b) }
  { tab with prev := setAt tab.prev (tab.next b) (tab.prev b) }

def trisHashtabRemoveObjectInternal (b : Addr) (h : ℕ) : TrisHashtab α × Option α :=
  let tab := tlistDelItem (unlinkBucket tab b h) b
  let obj2 := tab.object b
  -- the bucket is freed: its address is free for the next `calloc`
  ({ tab with
      object := Function.update tab.object b none
      hashTabElements := tab.hashTabElements - 1 }, obj2)

/-- The loop both removals share: the first bucket of the object's chain
at which `found` holds goes. -/
def removeFirst (found : α → Bool) (obj : α) : Option (TrisHashtab α × Option α) := do
  let h := slotOf hash tab obj
  match ← findBucket tab found h with
  | some b => some (trisHashtabRemoveObjectInternal tab b h)
  | none => some (tab, none)

def trisHashtabRemoveObjectViaLookup (obj : Option α) : Option (TrisHashtab α × Option α) :=
  match obj with
  | none => some (tab, none)
  | some o => removeFirst hash tab (fun o' => compare o o' == 0) o

/-- `tris_hashtab_remove_this_object`: the pointers are compared, not the
objects. -/
def trisHashtabRemoveThisObject [DecidableEq α] (obj : Option α) :
    Option (TrisHashtab α × Option α) :=
  match obj with
  | none => some (tab, none)
  | some o => removeFirst hash tab (fun o' => o == o') o

/-! ## Traversal -/

/-- The cursor of `tris_hashtab_start_traversal`: the bucket to visit. -/
def trisHashtabStartTraversal : Option Addr := tab.tlist

/-- `tris_hashtab_next`: the object, and the cursor after it. -/
def trisHashtabNext (it : Option Addr) : Option α × Option Addr :=
  match it with
  | some retval => (tab.object retval, tab.tnext retval)
  | none => (none, none)

/-- `while ((obj = tris_hashtab_next(it)))`: the objects handed out, for
at most `n` calls that return one. -/
def nextLoop : ℕ → Option Addr → Option (List α)
  | n, it =>
    match trisHashtabNext tab it with
    | (none, _) => some []
    | (some obj, it') =>
      match n with
      | 0 => none
      | n + 1 => (nextLoop n it').map (obj :: ·)

/-- A whole traversal. -/
def traversal : Option (List α) :=
  nextLoop tab tab.hashTabElements (trisHashtabStartTraversal tab)

end Hashtab

end Trismedia
