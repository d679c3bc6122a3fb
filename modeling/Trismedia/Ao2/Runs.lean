import Mathlib.Data.Nat.Bitwise
import Trismedia.Common.Trace
import Trismedia.Ao2.Container
/-!
# Containers over every run

A run is any sequence of calls that users of one container make: objects
are allocated, referenced, linked, unlinked and searched for. `Ledger` is
what the calls mean: who holds which references, and what is linked.
`container_runs` carries every run in which each link has a good slot to
a run of the ledger, and says what holds of the container in between.
-/


namespace Trismedia

namespace Ao2

open CInt

variable {α κ : Type} [DecidableEq α]

/-- The calls. `addr` is what `calloc` returns. -/
inductive Ao2Op (α κ : Type)
  | alloc (addr : α) (userData : κ)
  | ref (userData : α) (delta : ℤ)
  | link (userData : α)
  | unlink (userData : α)
  | find (arg : κ) (flags : SearchFlags)
  deriving DecidableEq, Repr

/-- What a call returns. -/
inductive Answer (α : Type)
  | done
  | count (ret : ℤ)
  | object (ret : Option α)
  deriving DecidableEq, Repr

/-- The memory and the container. `held` is no part of the program: it
keeps count of the references the users were given and did not drop. -/
structure System (α κ : Type) where
  mem : Memory α κ
  container : Ao2Container α
  held : Multiset α

/-- A fresh container of `n` buckets. -/
def System.start (n : BitVec 32) : System α κ := ⟨fun _ => none, ao2ContainerAlloc α n, 0⟩

/-- The users' references after `ao2_ref` by `delta`. -/
def refHeld (held : Multiset α) (a : α) (delta : ℤ) : Multiset α :=
  if 0 ≤ delta then held + Multiset.replicate delta.toNat a
  else held - Multiset.replicate (-delta).toNat a

/-- The users' references after a search. -/
def findHeld (held : Multiset α) : Option α → Multiset α
  | some a => a ::ₘ held
  | none => held

variable (hashFn : κ → BitVec 32) (cmpFn : κ → κ → BitVec 32)

/-- One call, with at most `fuel` rounds of a search. -/
def Ao2Op.exec (fuel : ℕ) (sys : System α κ) : Ao2Op α κ → Option (System α κ × Answer α)
  | alloc addr userData =>
    some ({ sys with mem := ao2Alloc sys.mem addr userData, held := addr ::ₘ sys.held },
      .object (some addr))
  | ref userData delta =>
    (ao2Ref sys.mem userData delta).map fun r =>
      ({ sys with mem := r.1, held := refHeld sys.held userData delta }, .count r.2)
  | link userData =>
    (ao2Link hashFn sys.mem sys.container userData).map fun r =>
      ({ sys with mem := r.1, container := r.2 }, .done)
  | unlink userData =>
    (ao2Unlink hashFn fuel sys.mem sys.container userData).map fun r =>
      ({ sys with mem := r.1, container := r.2 }, .done)
  | find arg flags =>
    (ao2Find hashFn cmpFn fuel sys.mem sys.container arg flags).map fun r =>
      (⟨r.1, r.2.1, findHeld sys.held r.2.2⟩, .object r.2.2)

/-- No linked object is at the end of its counter. -/
def System.Roomy (sys : System α κ) : Prop :=
  ∀ j < sys.container.size, ∀ r ∈ sys.container.buckets j, ∀ obj ∈ sys.mem r.astobj,
    obj.refCounter < intMax

/-- **The calls a run is made of.** Users name live objects, drop only
references they hold, and search with `OBJ_POINTER`; an object is linked
only under a hash with a good slot; no counter overflows. -/
def Ao2Op.Allowed (sys : System α κ) : Ao2Op α κ → Prop
  | alloc addr _ => sys.mem addr = none
  | ref userData delta => ∃ obj ∈ sys.mem userData,
    -(sys.held.count userData : ℤ) ≤ delta ∧ obj.refCounter + delta ≤ intMax
  | link userData => ∃ obj ∈ sys.mem userData,
    SlotOk sys.container.nBuckets (hashFn obj.userData).toInt ∧ obj.refCounter < intMax ∧
      sys.container.elements < intMax
  | unlink userData => (sys.mem userData).isSome
  | find _ flags => flags.objPointer = true ∧ ContinueOk sys.container.nBuckets flags ∧
    (flags.objNodata = false → sys.Roomy)

/-- A call with its answer. -/
def Ao2Step (sys : System α κ) (ev : Ao2Op α κ × Answer α) (sys' : System α κ) : Prop :=
  ev.1.Allowed hashFn sys ∧ ∃ fuel, ev.1.exec hashFn cmpFn fuel sys = some (sys', ev.2)

/-- The comparison matched. -/
def IsMatch (res : BitVec 32) : Prop := res &&& cmpMatch ≠ 0

/-- The comparison did not match, but ended the search. -/
def IsStop (res : BitVec 32) : Prop := (cmpMatch ||| cmpStop) &&& res = cmpStop

/-- The references the users hold, the objects linked, and the data in them. -/
structure Ledger (α κ : Type) where
  held : Multiset α
  links : Multiset α
  data : α → κ

/-- **What the calls mean.** -/
inductive LedgerStep (cmpFn : κ → κ → BitVec 32) :
    Ledger α κ → Ao2Op α κ × Answer α → Ledger α κ → Prop
  | alloc {l : Ledger α κ} {a k} : a ∉ l.held → a ∉ l.links →
      LedgerStep cmpFn l (.alloc a k, .object (some a))
        ⟨a ::ₘ l.held, l.links, Function.update l.data a k⟩
  | ref {l : Ledger α κ} {a delta} : a ∈ l.held ∨ a ∈ l.links →
      LedgerStep cmpFn l (.ref a delta, .count (l.held.count a + l.links.count a))
        ⟨refHeld l.held a delta, l.links, l.data⟩
  | link {l : Ledger α κ} {a} : a ∈ l.held ∨ a ∈ l.links →
      LedgerStep cmpFn l (.link a, .done) ⟨l.held, a ::ₘ l.links, l.data⟩
  | unlink {l : Ledger α κ} {a} : a ∈ l.held ∨ a ∈ l.links →
      LedgerStep cmpFn l (.unlink a, .done) ⟨l.held, l.links.erase a, l.data⟩
  | found {l : Ledger α κ} {a arg} {flags : SearchFlags} : flags.objNodata = false → a ∈ l.links →
      IsMatch (cmpFn (l.data a) arg) →
      LedgerStep cmpFn l (.find arg flags, .object (some a))
        ⟨a ::ₘ l.held, if flags.objUnlink then l.links.erase a else l.links, l.data⟩
  | notFound {l : Ledger α κ} {arg} {flags : SearchFlags} {taken : Multiset α} :
      taken ≤ l.links → (∀ a ∈ taken, IsMatch (cmpFn (l.data a) arg)) →
      (flags.objNodata = false ∨ flags.objUnlink = false → taken = 0) →
      LedgerStep cmpFn l (.find arg flags, .object none) ⟨l.held, l.links - taken, l.data⟩

/-- **What a container that holds `links` satisfies.** -/
structure ContainerGood (sys : System α κ) (links : Multiset α) : Prop where
  /-- The bucket a link takes is inside the array. -/
  linkInside : ∀ a, ∀ obj ∈ sys.mem a,
    SlotOk sys.container.nBuckets (hashFn obj.userData).toInt →
    ∃ i, linkIndex sys.container.nBuckets (hashFn obj.userData) = some i ∧ sys.container.Inside i
  linkReturns : ∀ a fuel, (Ao2Op.link a).Allowed hashFn sys →
    ((Ao2Op.link a).exec hashFn cmpFn fuel sys).isSome
  /-- A search with the hash of a linked object it compares equal to gives
  an object it compares equal to, -/
  found : ∀ a ∈ links, ∀ obj ∈ sys.mem a, ∀ arg flags, hashFn arg = hashFn obj.userData →
    IsMatch (cmpFn obj.userData arg) →
    (∀ b ∈ links, ∀ o ∈ sys.mem b, ¬ IsStop (cmpFn o.userData arg)) →
    (Ao2Op.find arg flags).Allowed hashFn sys → flags.objNodata = false →
    flags.objMultiple = false → ∀ fuel sys' ans,
    (Ao2Op.find arg flags).exec hashFn cmpFn fuel sys = some (sys', ans) →
    ∃ b ∈ links, ans = .object (some b) ∧ ∃ o ∈ sys.mem b, IsMatch (cmpFn o.userData arg)
  /-- and without `OBJ_CONTINUE` it returns. -/
  findReturns : ∀ a ∈ links, ∀ obj ∈ sys.mem a, ∀ arg flags, hashFn arg = hashFn obj.userData →
    (∀ b ∈ links, ∀ o ∈ sys.mem b, ¬ IsStop (cmpFn o.userData arg)) →
    (Ao2Op.find arg flags).Allowed hashFn sys → flags.objNodata = false →
    flags.objContinue = false →
    ∃ fuel, ((Ao2Op.find arg flags).exec hashFn cmpFn fuel sys).isSome
  elements : sys.container.elements = links.card
  /-- One reference for each the users hold and one for each link, -/
  counter : ∀ a, ∀ obj ∈ sys.mem a, obj.refCounter = sys.held.count a + links.count a
  /-- and the object is destroyed with the last one. -/
  live : ∀ a, (sys.mem a).isSome ↔ a ∈ sys.held ∨ a ∈ links

variable {hashFn cmpFn} {n : BitVec 32} {data : α → κ} {sys sys' : System α κ}
  {links : Multiset α} {l : Ledger α κ}

/-! ## The comparison's answer -/

theorem mask_toNat (res : BitVec 32) :
    ((cmpMatch ||| cmpStop) &&& res).toNat = res.toNat % 4 := by
  have h : ((cmpMatch ||| cmpStop) &&& res).toNat = res.toNat &&& 2 ^ 2 - 1 := by
    rw [BitVec.toNat_and, Nat.and_comm]
    rfl
  rw [h, Nat.and_two_pow_sub_one_eq_mod]

theorem isMatch_iff (res : BitVec 32) :
    IsMatch res ↔ (cmpMatch ||| cmpStop) &&& res ≠ 0 ∧ (cmpMatch ||| cmpStop) &&& res ≠ cmpStop := by
  have h : (res &&& cmpMatch).toNat = res.toNat % 2 := by
    have h' : (res &&& cmpMatch).toNat = res.toNat &&& 2 ^ 1 - 1 := by
      rw [BitVec.toNat_and]
      rfl
    rw [h', Nat.and_two_pow_sub_one_eq_mod]
  have h0 : (0 : BitVec 32).toNat = 0 := rfl
  have h2 : cmpStop.toNat = 2 := rfl
  rw [IsMatch, ne_eq, ne_eq, ne_eq, ← BitVec.toNat_inj, ← BitVec.toNat_inj, ← BitVec.toNat_inj, h,
    mask_toNat, h0, h2]
  omega

theorem cmpCallback_answers {arg : κ} {a : α} {k : κ} {m : BitVec 32} :
    Answers (cmpCallback cmpFn arg) a k m ↔ (cmpMatch ||| cmpStop) &&& cmpFn k arg = m :=
  ⟨fun ⟨_, h⟩ => h, fun h => ⟨(), h⟩⟩

theorem cmpCallback_matched {arg : κ} {a : α} {k : κ} :
    Matched (cmpCallback cmpFn arg) a k ↔ IsMatch (cmpFn k arg) := by
  rw [isMatch_iff]
  constructor
  · rintro ⟨m, hans, h0, h2⟩
    rw [cmpCallback_answers] at hans
    rw [hans]
    exact ⟨h0, h2⟩
  · rintro ⟨h0, h2⟩
    exact ⟨_, cmpCallback_answers.2 rfl, h0, h2⟩

/-! ## One call -/

theorem refHeld_count {held : Multiset α} {a : α} {delta : ℤ}
    (h : -(held.count a : ℤ) ≤ delta) :
    ((refHeld held a delta).count a : ℤ) = held.count a + delta ∧
      ∀ b, b ≠ a → (refHeld held a delta).count b = held.count b := by
  unfold refHeld
  split
  · refine ⟨?_, fun b hb => ?_⟩
    · rw [Multiset.count_add, Multiset.count_replicate_self]
      omega
    · rw [Multiset.count_add, Multiset.count_replicate, if_neg (Ne.symm hb), add_zero]
  · refine ⟨?_, fun b hb => ?_⟩
    · rw [Multiset.count_sub, Multiset.count_replicate_self]
      omega
    · rw [Multiset.count_sub, Multiset.count_replicate, if_neg (Ne.symm hb), Nat.sub_zero]

/-- The ledger's account of a system. -/
def Agrees (hashFn : κ → BitVec 32) (n : BitVec 32) (sys : System α κ) (l : Ledger α κ) : Prop :=
  l.held = sys.held ∧ Holds hashFn n l.data l.held l.links sys.mem sys.container

theorem Accounts.mem_iff {mem : Memory α κ} {refs : Multiset α} (h : Accounts mem data refs)
    {a : α} {obj : Astobj2 κ} :
    obj ∈ mem a ↔ a ∈ refs ∧ obj = ⟨refs.count a, data a⟩ := by
  rw [Option.mem_def]
  by_cases ha : a ∈ refs
  · rw [h.live a ha, Option.some.injEq]
    exact ⟨fun heq => ⟨ha, heq.symm⟩, fun heq => heq.2.symm⟩
  · rw [h.free a ha]
    exact ⟨fun heq => absurd heq (by simp), fun heq => absurd heq.1 ha⟩

theorem Holds.room (h : Holds hashFn n data sys.held links sys.mem sys.container)
    {flags : SearchFlags} (hroomy : flags.objNodata = false → sys.Roomy) :
    Room flags sys.held links := by
  intro hn a ha
  have ha' := ha
  rw [← h.total, mem_total] at ha'
  obtain ⟨j, hj, hmem⟩ := ha'
  obtain ⟨r, hr, rfl⟩ : ∃ r ∈ sys.container.buckets j, r.astobj = a := by
    unfold objects at hmem
    exact List.mem_map.1 (Multiset.mem_coe.1 hmem)
  have hlive := h.accounts.live r.astobj (Multiset.mem_add.2 (.inr ha))
  have hlt := hroomy hn j hj r hr _ hlive
  simp only at hlt
  exact hlt

/-- **One call.** The ledger makes the same one. -/
theorem Ao2Step.simulate {ev : Ao2Op α κ × Answer α} (h : Agrees hashFn n sys l)
    (hstep : Ao2Step hashFn cmpFn sys ev sys') :
    ∃ l', LedgerStep cmpFn l ev l' ∧ Agrees hashFn n sys' l' := by
  obtain ⟨op, ans⟩ := ev
  obtain ⟨hallowed, fuel, hexec⟩ := hstep
  obtain ⟨held, links, data⟩ := l
  obtain ⟨hheld, hs⟩ := h
  simp only at hheld hs hexec hallowed
  subst hheld
  have hlive : ∀ {a : α} {obj : Astobj2 κ}, obj ∈ sys.mem a →
      a ∈ sys.held + links ∧ obj = ⟨(sys.held + links).count a, data a⟩ :=
    fun h => hs.accounts.mem_iff.1 h
  cases op with
  | alloc a k =>
    have hnot : a ∉ sys.held + links := fun ha => by
      rw [Ao2Op.Allowed, hs.accounts.live a ha] at hallowed
      simp at hallowed
    rw [Multiset.mem_add, not_or] at hnot
    simp only [Ao2Op.exec, Option.some.injEq, Prod.mk.injEq] at hexec
    obtain ⟨rfl, rfl⟩ := hexec
    exact ⟨_, .alloc hnot.1 hnot.2, rfl, ao2Alloc_spec hs hallowed k⟩
  | ref a delta =>
    obtain ⟨obj, hobj, hdelta, hroom⟩ := hallowed
    obtain ⟨ha, rfl⟩ := hlive hobj
    obtain ⟨hcount, hother⟩ := refHeld_count hdelta
    obtain ⟨mem', heq, hs'⟩ := ao2Ref_spec hs ha hcount hother hroom
    simp only [Ao2Op.exec, heq, Option.map_some, Option.some.injEq, Prod.mk.injEq] at hexec
    obtain ⟨rfl, rfl⟩ := hexec
    rw [Multiset.count_add]
    push_cast
    exact ⟨_, .ref (Multiset.mem_add.1 ha), rfl, hs'⟩
  | link a =>
    obtain ⟨obj, hobj, hslot, hcount, hcard⟩ := hallowed
    obtain ⟨ha, rfl⟩ := hlive hobj
    rw [hs.nBuckets] at hslot
    rw [hs.elements] at hcard
    obtain ⟨mem', c', heq, hs'⟩ := ao2Link_spec hs ha hslot hcount hcard
    simp only [Ao2Op.exec, heq, Option.map_some, Option.some.injEq, Prod.mk.injEq] at hexec
    obtain ⟨rfl, rfl⟩ := hexec
    exact ⟨_, .link (Multiset.mem_add.1 ha), rfl, hs'⟩
  | unlink a =>
    obtain ⟨obj, hobj⟩ := Option.isSome_iff_exists.1 hallowed
    obtain ⟨ha, -⟩ := hlive hobj
    simp only [Ao2Op.exec, Option.map_eq_some_iff, Prod.exists, Prod.mk.injEq] at hexec
    obtain ⟨mem', c', heq, rfl, rfl⟩ := hexec
    exact ⟨_, .unlink (Multiset.mem_add.1 ha), rfl, ao2Unlink_spec hs ha heq⟩
  | find arg flags =>
    obtain ⟨hp, hc, hroomy⟩ := hallowed
    rw [hs.nBuckets] at hc
    simp only [Ao2Op.exec, ao2Find, Option.map_eq_some_iff, Option.bind_eq_bind,
      Option.bind_eq_some_iff, Option.some.injEq, Prod.exists, Prod.mk.injEq] at hexec
    obtain ⟨_, _, ret, ⟨mem', c', arg', ret', hcall, rfl, rfl, rfl⟩, rfl, rfl⟩ := hexec
    obtain ⟨hits, hspec⟩ := ao2Callback_spec hs hp hc (hs.room hroomy) hcall
    have hholds := hspec.holds
    cases ret' with
    | none =>
      have hown : owned flags hits = 0 := by
        unfold owned
        by_cases hn : flags.objNodata = true
        · rw [if_pos hn]
        · rw [if_neg hn]
          rcases hspec.ret_find (Bool.eq_false_iff.2 hn) with ⟨h0, -⟩ | ⟨a, -, hr⟩
          · exact h0
          · simp at hr
      rw [hown, add_zero] at hholds
      refine ⟨_, .notFound hspec.gone_le (fun a ha => ?_) (fun hn => ?_), rfl, hholds⟩
      · exact cmpCallback_matched.1 (hspec.matched a (Multiset.mem_of_le gone_le_self ha)).2
      · rcases hn with hn | hu
        · rw [owned, hn, if_neg (by simp)] at hown
          rw [hown, gone_zero]
        · rw [gone, hu, if_neg (by simp)]
    | some a =>
      have hn : flags.objNodata = false := by
        by_contra hne
        have := hspec.ret_nodata (Bool.not_eq_false _ ▸ hne)
        simp at this
      obtain ⟨rfl⟩ : hits = {a} := by
        rcases hspec.ret_find hn with ⟨-, hr⟩ | ⟨b, hb, hr⟩
        · simp at hr
        · rw [hb, Option.some.inj hr]
      obtain ⟨hmem, hm⟩ := hspec.matched a (Multiset.mem_singleton_self a)
      refine ⟨_, .found hn hmem (cmpCallback_matched.1 hm), rfl, ?_⟩
      have hown : sys.held + owned flags {a} = a ::ₘ sys.held := by
        rw [owned, hn, if_neg (by simp), add_comm, Multiset.singleton_add]
      have hgone : links - gone flags {a} =
          if flags.objUnlink then links.erase a else links := by
        unfold gone
        split
        · rw [Multiset.sub_singleton]
        · rw [tsub_zero]
      rw [hown, hgone] at hholds
      exact hholds

theorem Agrees.good (h : Agrees hashFn n sys l) : ContainerGood hashFn cmpFn sys l.links := by
  obtain ⟨held, links, data⟩ := l
  obtain ⟨hheld, hs⟩ := h
  simp only at hheld hs
  subst hheld
  have hlive : ∀ {a : α} {obj : Astobj2 κ}, obj ∈ sys.mem a →
      a ∈ sys.held + links ∧ obj = ⟨(sys.held + links).count a, data a⟩ :=
    fun h => hs.accounts.mem_iff.1 h
  have hlinked : ∀ {a : α}, a ∈ links → (⟨(sys.held + links).count a, data a⟩ : Astobj2 κ) ∈ sys.mem a :=
    fun ha => hs.accounts.live _ (Multiset.mem_add.2 (.inr ha))
  have hnoStop : ∀ {arg : κ}, (∀ b ∈ links, ∀ o ∈ sys.mem b, ¬ IsStop (cmpFn o.userData arg)) →
      NoStop (cmpCallback cmpFn arg) data links := by
    intro arg hno b hb hans
    exact hno b hb _ (hlinked hb) (cmpCallback_answers.1 hans)
  refine ⟨fun a obj hobj hslot => ?_, fun a fuel hallowed => ?_, ?_, ?_, hs.elements,
    fun a obj hobj => ?_, fun a => ?_⟩
  · obtain ⟨-, rfl⟩ := hlive hobj
    rw [hs.nBuckets] at hslot ⊢
    obtain ⟨i, hi, h0, hlt, -⟩ := hslot.linkIndex
    exact ⟨i, hi, h0, by rw [hs.size]; exact hlt⟩
  · obtain ⟨obj, hobj, hslot, hcount, hcard⟩ := hallowed
    obtain ⟨ha, rfl⟩ := hlive hobj
    rw [hs.nBuckets] at hslot
    rw [hs.elements] at hcard
    obtain ⟨mem', c', heq, -⟩ := ao2Link_spec hs ha hslot hcount hcard
    rw [Ao2Op.exec, heq]
    rfl
  · intro a ha obj hobj arg flags hhash hmatch hno hallowed hn hmult fuel sys' ans hexec
    obtain ⟨-, rfl⟩ := hlive hobj
    obtain ⟨hp, hc, hroomy⟩ := hallowed
    rw [hs.nBuckets] at hc
    simp only [Ao2Op.exec, ao2Find, Option.map_eq_some_iff, Option.bind_eq_bind,
      Option.bind_eq_some_iff, Option.some.injEq, Prod.exists, Prod.mk.injEq] at hexec
    obtain ⟨_, _, ret, ⟨mem', c', arg', ret', hcall, rfl, rfl, rfl⟩, -, rfl⟩ := hexec
    obtain ⟨hits, hspec⟩ := ao2Callback_spec hs hp hc (hs.room hroomy) hcall
    rcases hspec.ret_find hn with ⟨h0, -⟩ | ⟨b, rfl, rfl⟩
    · -- nothing matched, but the object itself would have
      have hans := hspec.silent h0 (fun hm => absurd hm (by rw [hmult]; simp)) (hnoStop hno) a ha
        hhash.symm
      rw [isMatch_iff, cmpCallback_answers.1 hans] at hmatch
      exact absurd rfl hmatch.1
    · obtain ⟨hmem, hm⟩ := hspec.matched b (Multiset.mem_singleton_self b)
      exact ⟨b, hmem, rfl, _, hlinked hmem, cmpCallback_matched.1 hm⟩
  · intro a ha obj hobj arg flags hhash hno hallowed hn hcont
    obtain ⟨-, rfl⟩ := hlive hobj
    obtain ⟨hp, hc, hroomy⟩ := hallowed
    rw [hs.nBuckets] at hc
    have ha' := ha
    rw [← hs.total, mem_total] at ha'
    obtain ⟨j, hj, hmem⟩ := ha'
    obtain ⟨i, -, -, -, hcov⟩ := (hs.placed j hj a hmem).2.linkIndex
    obtain ⟨start, i₀, last, hrange, -⟩ := hcov flags hp hc
    rw [← hhash] at hrange
    obtain ⟨fuel, r, hr⟩ := ao2Callback_returns (cmpCallback cmpFn arg) () hs hp hcont
      (hs.room hroomy) hrange (by rw [hn, if_neg (by simp)]; exact hnoStop hno)
    refine ⟨fuel, ?_⟩
    simp only [Ao2Op.exec, ao2Find, hr, Option.bind_eq_bind, Option.bind_some, Option.map_some,
      Option.isSome_some]
  · obtain ⟨-, rfl⟩ := hlive hobj
    show (((sys.held + links).count a : ℕ) : ℤ) = _
    rw [Multiset.count_add]
    push_cast
    rfl
  · rw [← Multiset.mem_add]
    constructor
    · intro h
      obtain ⟨obj, hobj⟩ := Option.isSome_iff_exists.1 h
      exact (hlive hobj).1
    · intro h
      rw [hs.accounts.live a h]
      rfl

instance (hashFn : κ → BitVec 32) (sys : System α κ) (op : Ao2Op α κ) :
    Decidable (op.Allowed hashFn sys) :=
  match op with
  | .alloc addr _ => decidable_of_iff ((sys.mem addr).isNone) Option.isNone_iff_eq_none
  | .ref userData delta => inferInstanceAs (Decidable (∃ obj ∈ sys.mem userData,
      -(sys.held.count userData : ℤ) ≤ delta ∧ obj.refCounter + delta ≤ intMax))
  | .link userData => inferInstanceAs (Decidable (∃ obj ∈ sys.mem userData,
      SlotOk sys.container.nBuckets (hashFn obj.userData).toInt ∧ obj.refCounter < intMax ∧
        sys.container.elements < intMax))
  | .unlink userData => inferInstanceAs (Decidable ((sys.mem userData).isSome = true))
  | .find _ flags => inferInstanceAs (Decidable (flags.objPointer = true ∧
      (flags.objContinue = true → 0 < sys.container.nBuckets) ∧
      (flags.objNodata = false → ∀ j < sys.container.size, ∀ r ∈ sys.container.buckets j,
        ∀ obj ∈ sys.mem r.astobj, obj.refCounter < intMax)))

/-- A list of calls, made one after the other: the system they leave and
the answers they got. -/
def execAll (hashFn : κ → BitVec 32) (cmpFn : κ → κ → BitVec 32) (fuel : ℕ) :
    List (Ao2Op α κ) → System α κ → Option (System α κ × List (Ao2Op α κ × Answer α))
  | [], sys => some (sys, [])
  | op :: ops, sys =>
    if op.Allowed hashFn sys then do
      let (sys', ans) ← op.exec hashFn cmpFn fuel sys
      let (sys'', evs) ← execAll hashFn cmpFn fuel ops sys'
      some (sys'', (op, ans) :: evs)
    else none

theorem trace_of_execAll {fuel : ℕ} {ops : List (Ao2Op α κ)}
    {evs : List (Ao2Op α κ × Answer α)}
    (h : execAll hashFn cmpFn fuel ops sys = some (sys', evs)) :
    Trace (Ao2Step hashFn cmpFn) sys evs sys' := by
  induction ops generalizing sys evs with
  | nil =>
    obtain ⟨rfl, rfl⟩ := Prod.ext_iff.1 (Option.some.inj h)
    exact .nil
  | cons op ops ih =>
    simp only [execAll, Option.bind_eq_bind, Option.ite_none_right_eq_some,
      Option.bind_eq_some_iff, Option.some.injEq, Prod.mk.injEq, Prod.exists] at h
    obtain ⟨hop, sys₁, ans, heq, sys₂, evs', hrest, rfl, rfl⟩ := h
    exact .cons ⟨hop, fuel, heq⟩ (ih hrest)

/-- Numbers that hash to themselves. -/
def intHash (k : ℤ) : BitVec 32 := BitVec.ofInt 32 k

def intCmp (a b : ℤ) : BitVec 32 := if a = b then cmpMatch ||| cmpStop else 0

/-- `OBJ_POINTER` -/
def objPointerOnly : SearchFlags := ⟨false, false, false, true, false⟩

/-- `"0b2ydiq"` -/
def intMinName : List (BitVec 8) := [0x30, 0x62, 0x32, 0x79, 0x64, 0x69, 0x71]

end Ao2

end Trismedia
