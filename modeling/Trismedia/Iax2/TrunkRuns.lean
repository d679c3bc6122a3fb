import Mathlib.Data.List.Induction
import Mathlib.Tactic.SplitIfs
import Trismedia.Iax.Parse
import Trismedia.Iax2.Trunk
/-!
# What trunks keep and deliver

The test for space counts four octets for the header of an entry, and makes
room once. The header with a timestamp has six, so an entry may end one octet
behind what is allocated, and a frame larger than what is added ends behind it
too. The receiver steps over the header of an entry whose call it does not
know, not over the payload, which it then takes for entries. And its loop
starts on four octets, where the header with a timestamp has six.
-/


namespace Trismedia

namespace Iax2

open Iax

variable {c : Trunking} {p : TrunkPeer} {t u : Trunk} {e : TrunkEvent} {f : TrunkFrame}
variable {evs : List TrunkEvent} {mini grown : Bool} {r : Receiver} {iaxs : ℕ → Option Rx}

/-! ## The space -/

theorem length_entry (mini : Bool) (f : TrunkFrame) :
    (f.entry mini).length = sizeofEntry mini + f.payload.length := by
  cases mini <;> simp [TrunkFrame.entry, sizeofEntry, htons] <;> omega

/-- **There is room for an entry.** If the test asks for more, what is added
holds it; if not, the sum did not wrap around, and the entry is not one that
ends an octet behind. -/
def Trunk.Room (c : Trunking) (t : Trunk) : TrunkEvent → Prop
  | .queue f grown _ =>
    if t.peer.need f ≥ t.peer.trunkdataalloc then
      t.peer.trunkdataalloc < c.trunkmaxsize → grown = true →
        t.peer.trunkdata.length + sizeofEntry c.timestamps + f.payload.length ≤
          t.peer.trunkdataalloc + defaultTrunkdata
    else
      t.peer.trunkdata.length + f.payload.length + 4 < 2 ^ 32 ∧
        (c.timestamps = true →
          t.peer.trunkdata.length + f.payload.length + 5 ≠ t.peer.trunkdataalloc)
  | .timer _ => True

/-- Every step of a run finds room. -/
def RoomAlong (c : Trunking) (evs : List TrunkEvent) : Prop :=
  ∀ pre e post t, evs = pre ++ e :: post → Trunk.run c pre = some t → t.Room c e

/-- What any run keeps: the data are the entries of the frames pending, a
trunk frame has those of its frames behind its headers. -/
structure Trunk.Kept (c : Trunking) (t : Trunk) : Prop where
  alloc : t.peer.trunkdataalloc < 2 ^ 32
  data : t.peer.trunkdata = t.pending.flatMap (TrunkFrame.entry c.timestamps)
  sent : ∀ fs octets, (fs, octets) ∈ t.sent → ∃ ts, octets =
    [0, 0, 1, if c.timestamps then 1 else 0] ++ htonl ts ++
      fs.flatMap (TrunkFrame.entry c.timestamps)

/-- The peer with an entry appended. -/
def TrunkPeer.append (c : Trunking) (p : TrunkPeer) (f : TrunkFrame) : TrunkPeer :=
  { p with trunkdata := p.trunkdata ++ f.entry c.timestamps }

/-- **One call of `iax2_trunk_queue`**: refused, or an entry that does not fit,
or one appended, and what `send_trunk` does if it is called. -/
theorem iax2TrunkQueue_cases (c : Trunking) (p : TrunkPeer) (f : TrunkFrame) (grown : Bool)
    (ts : BitVec 32) :
    (makeSpace c p f grown = none ∧ iax2TrunkQueue c p f grown ts = .refused) ∨
      ∃ q, makeSpace c p f grown = some q ∧
        (q.trunkdataalloc < q.trunkdata.length + (f.entry c.timestamps).length ∧
            iax2TrunkQueue c p f grown ts = .overrun ∨
          q.trunkdata.length + (f.entry c.timestamps).length ≤ q.trunkdataalloc ∧
            (iax2TrunkQueue c p f grown ts = .queued (q.append c f) none ∨
              iax2TrunkQueue c p f grown ts =
                .queued (sendTrunk c (q.append c f) ts).1 (sendTrunk c (q.append c f) ts).2)) := by
  cases hq : makeSpace c p f grown with
  | none => exact .inl ⟨rfl, by simp [iax2TrunkQueue, hq]⟩
  | some q =>
    refine .inr ⟨q, rfl, ?_⟩
    by_cases hover : q.trunkdata.length + (f.entry c.timestamps).length > q.trunkdataalloc
    · exact .inl ⟨hover, by simp only [iax2TrunkQueue, hq, if_pos hover]⟩
    · refine .inr ⟨by omega, ?_⟩
      simp only [iax2TrunkQueue, hq, if_neg hover, TrunkPeer.append]
      split_ifs
      · exact .inr rfl
      · exact .inl rfl

/-- More space leaves the data. -/
theorem makeSpace_cases {q : TrunkPeer} (h : makeSpace c p f grown = some q) :
    q.trunkdata = p.trunkdata ∧
      (p.need f < p.trunkdataalloc ∧ q.trunkdataalloc = p.trunkdataalloc ∨
        p.trunkdataalloc ≤ p.need f ∧ p.trunkdataalloc < c.trunkmaxsize ∧ grown = true ∧
          q.trunkdataalloc = p.trunkdataalloc + defaultTrunkdata) := by
  unfold makeSpace at h
  split_ifs at h with hneed hmax hgrown
  · obtain rfl := Option.some.inj h
    exact ⟨rfl, .inr ⟨hneed, hmax, hgrown, rfl⟩⟩
  · obtain rfl := Option.some.inj h
    exact ⟨rfl, .inl ⟨by omega, rfl⟩⟩

theorem makeSpace_of_lt (h : p.need f < p.trunkdataalloc) : makeSpace c p f grown = some p := by
  unfold makeSpace
  rw [if_neg (by omega)]

theorem makeSpace_of_grown (h : p.trunkdataalloc ≤ p.need f) (hmax : p.trunkdataalloc < c.trunkmaxsize) :
    makeSpace c p f true = some { p with trunkdataalloc := p.trunkdataalloc + defaultTrunkdata } := by
  unfold makeSpace
  rw [if_pos h, if_pos hmax, if_pos rfl]

/-- **Nothing is written behind what is allocated** exactly if there is room. -/
theorem step_isSome_iff (hk : t.Kept c) : (∃ u, t.step c e = some u) ↔ t.Room c e := by
  cases e with
  | timer ts => exact ⟨fun _ => trivial, fun _ => ⟨_, rfl⟩⟩
  | queue f grown ts =>
    have halloc := hk.alloc
    have hlen := length_entry c.timestamps f
    have hstep : (∃ u, t.step c (.queue f grown ts) = some u) ↔
        ∀ q, makeSpace c t.peer f grown = some q →
          q.trunkdata.length + (f.entry c.timestamps).length ≤ q.trunkdataalloc := by
      simp only [Trunk.step]
      rcases iax2TrunkQueue_cases c t.peer f grown ts with
        ⟨hnone, h⟩ | ⟨q, hq, ⟨hover, h⟩ | ⟨hfit, h | h⟩⟩
      · simp [h, hnone]
      · simp only [h, hq, reduceCtorEq, exists_false, Option.some.injEq, forall_eq', false_iff]
        omega
      · simp only [h, hq, Option.some.injEq, exists_eq', forall_eq', true_iff]
        exact hfit
      · simp only [h, hq, Option.some.injEq, exists_eq', forall_eq', true_iff]
        exact hfit
    rw [hstep]
    simp only [Trunk.Room]
    by_cases hneed : t.peer.need f ≥ t.peer.trunkdataalloc
    · rw [if_pos hneed]
      constructor
      · intro h hmax hgrown
        subst hgrown
        have hfit := h _ (makeSpace_of_grown hneed hmax)
        simp only at hfit
        omega
      · intro h q hq
        obtain ⟨hdata, ⟨hlt, -⟩ | ⟨-, hmax, hgrown, hq'⟩⟩ := makeSpace_cases hq
        · omega
        · have hfit := h hmax hgrown
          rw [hdata, hq']
          omega
    · rw [if_neg hneed]
      have hsize : sizeofEntry c.timestamps = if c.timestamps = true then 6 else 4 := rfl
      have hsum : t.peer.need f = (t.peer.trunkdata.length + f.payload.length + 4) % 2 ^ 32 := rfl
      constructor
      · intro h
        have hfit := h _ (makeSpace_of_lt (by omega))
        refine ⟨?_, fun hmini => ?_⟩
        · split_ifs at hsize <;> omega
        · rw [if_pos hmini] at hsize
          omega
      · rintro ⟨hwrap, hmini⟩ q hq
        obtain ⟨hdata, ⟨hlt, hq'⟩ | ⟨hge, -⟩⟩ := makeSpace_cases hq
        · rw [hdata, hq', hlen, hsize]
          split_ifs with hm
          · have hne := hmini hm
            omega
          · omega
        · omega

/-! ## Runs of the sender -/

theorem sendTrunk_cases (c : Trunking) (p : TrunkPeer) (ts : BitVec 32) :
    (p.trunkdata = [] ∧ sendTrunk c p ts = (p, none)) ∨
      sendTrunk c p ts = ({ p with trunkdata := [] },
        some ([0, 0, 1, if c.timestamps then 1 else 0] ++ htonl ts ++ p.trunkdata)) := by
  unfold sendTrunk
  by_cases h : p.trunkdata = []
  · exact .inl ⟨h, if_pos h⟩
  · exact .inr (if_neg h)

theorem Trunk.Kept.record (hk : t.Kept c) (ts : BitVec 32) :
    (t.record (sendTrunk c t.peer ts).1 (sendTrunk c t.peer ts).2).Kept c := by
  rcases sendTrunk_cases c t.peer ts with ⟨-, h⟩ | h
  · rw [h]
    exact ⟨hk.alloc, hk.data, hk.sent⟩
  · rw [h]
    refine ⟨hk.alloc, rfl, fun fs octets hmem => ?_⟩
    rcases List.mem_append.1 hmem with hold | hnew
    · exact hk.sent fs octets hold
    · obtain ⟨rfl, rfl⟩ := Prod.mk.inj (List.mem_singleton.1 hnew)
      exact ⟨ts, by rw [hk.data]⟩

theorem Trunk.Kept.step (hk : t.Kept c) (h : t.step c e = some u) : u.Kept c := by
  cases e with
  | timer ts =>
    obtain rfl := Option.some.inj h
    exact hk.record ts
  | queue f grown ts =>
    simp only [Trunk.step] at h
    rcases iax2TrunkQueue_cases c t.peer f grown ts with ⟨-, hres⟩ | ⟨q, hq, ⟨-, hres⟩ | ⟨-, hres⟩⟩
    · rw [hres] at h
      obtain rfl := Option.some.inj h
      exact hk
    · rw [hres] at h
      exact absurd h (by simp)
    · -- the state with the entry appended, before anything is sent
      have happ : (Trunk.mk (q.append c f) (t.pending ++ [f]) t.sent).Kept c := by
        have hlt := c.trunkmaxsize_lt
        have halloc := hk.alloc
        have hdef : defaultTrunkdata = 6400 := rfl
        obtain ⟨hdata, hgrow⟩ := makeSpace_cases hq
        refine ⟨?_, ?_, hk.sent⟩
        · simp only [TrunkPeer.append]
          rcases hgrow with ⟨-, hq'⟩ | ⟨-, hmax, -, hq'⟩ <;> omega
        · simp only [TrunkPeer.append]
          rw [hdata, hk.data, List.flatMap_append, List.flatMap_singleton]
      rcases hres with hres | hres
      · rw [hres] at h
        obtain rfl := Option.some.inj h
        exact happ
      · rw [hres] at h
        obtain rfl := Option.some.inj h
        exact happ.record ts

theorem run_snoc (c : Trunking) (evs : List TrunkEvent) (e : TrunkEvent) :
    Trunk.run c (evs ++ [e]) = (Trunk.run c evs).bind fun t => t.step c e := by
  unfold Trunk.run
  rw [List.foldlM_append]
  simp [bind]

theorem run_append {pre post : List TrunkEvent} (h : Trunk.run c (pre ++ post) = some u) :
    ∃ t, Trunk.run c pre = some t := by
  unfold Trunk.run at h
  rw [List.foldlM_append] at h
  obtain ⟨t, ht, -⟩ := Option.bind_eq_some_iff.1 h
  exact ⟨t, ht⟩

theorem kept_of_run (h : Trunk.run c evs = some t) : t.Kept c := by
  induction evs using List.reverseRecOn generalizing t with
  | nil =>
    obtain rfl := Option.some.inj h
    exact ⟨by decide, rfl, fun _ _ hmem => absurd hmem List.not_mem_nil⟩
  | append_singleton evs e ih =>
    rw [run_snoc] at h
    obtain ⟨s, hs, he⟩ := Option.bind_eq_some_iff.1 h
    exact (ih hs).step he

/-- **A run writes nothing behind what is allocated** exactly if each of its
steps finds room. -/
theorem run_isSome_iff : (∃ t, Trunk.run c evs = some t) ↔ RoomAlong c evs := by
  constructor
  · rintro ⟨u, hu⟩ pre e post t rfl ht
    have hsplit : pre ++ e :: post = (pre ++ [e]) ++ post := by simp
    rw [hsplit] at hu
    obtain ⟨s, hs⟩ := run_append hu
    rw [run_snoc, ht] at hs
    exact (step_isSome_iff (kept_of_run ht)).1 ⟨s, hs⟩
  · intro hroom
    induction evs using List.reverseRecOn with
    | nil => exact ⟨.init, rfl⟩
    | append_singleton evs e ih =>
      obtain ⟨t, ht⟩ := ih fun pre e' post t h => hroom pre e' (post ++ [e]) t (by simp [h])
      obtain ⟨u, hu⟩ := (step_isSome_iff (kept_of_run ht)).2 (hroom evs e [] t rfl ht)
      exact ⟨u, by rw [run_snoc, ht, Option.bind_some, hu]⟩

/-! ## One entry received -/

/-- **The calls that take voice**: known to the receiver, with a voice format
and started. -/
def known (r : Receiver) (iaxs : ℕ → Option Rx) (f : TrunkFrame) : Bool :=
  r.findCallno f.callno ≠ 0 ∧
    (iaxs (r.findCallno f.callno)).any fun p => p.voiceformat ≠ 0 ∧ p.started

/-- What is compared of a frame sent, and of one passed on: the call, the
lower 16 bits of the timestamp if there is one, and the payload. -/
def TrunkFrame.content (r : Receiver) (mini : Bool) (f : TrunkFrame) : ℕ × ℕ × List CChar :=
  (r.findCallno f.callno, if mini then f.ts % 2 ^ 16 else 0, f.payload)

def Delivery.content (mini : Bool) (d : Delivery) : ℕ × ℕ × List CChar :=
  (d.callno, if mini then d.ts % 2 ^ 16 else 0, d.payload)

/-- **A frame the receiver gets right**, in a trunk frame with the timestamp
`ts`: its length fits the field, a call not known has no payload, and a
timestamp whose lower bits are 0 meets one of the peer. -/
def TrunkFrame.Fits (r : Receiver) (mini : Bool) (iaxs : ℕ → Option Rx) (ts : ℕ)
    (f : TrunkFrame) : Prop :=
  f.payload.length < 2 ^ 16 ∧ (r.findCallno f.callno = 0 → f.payload = []) ∧
    (mini = true → known r iaxs f = true → f.ts % 2 ^ 16 = 0 →
      r.fixPeerts (r.findCallno f.callno) ts % 2 ^ 16 = 0)

/-- The upper bits alone are corrected. -/
theorem unwrapTimestamp_mod (last ts : ℕ) : unwrapTimestamp false last ts % 2 ^ 16 = ts % 2 ^ 16 := by
  simp only [unwrapTimestamp, upper, lower, tsShift, Bool.false_eq_true, reduceIte]
  split_ifs <;> omega

theorem readEntry_entry {ptr : ℕ} {rest : List CChar} (hlen : f.payload.length < 2 ^ 16)
    (h : octets r.mem ptr (f.entry mini ++ rest).length = f.entry mini ++ rest) :
    readEntry r.mem mini ptr =
        (f.payload.length, f.callno, if mini then f.ts % 2 ^ 16 else 0) ∧
      octets r.mem (ptr + sizeofEntry mini) f.payload.length = f.payload ∧
      octets r.mem (ptr + sizeofEntry mini + f.payload.length) rest.length = rest := by
  have hback : ∀ n : BitVec 16, ntoh (htons n) = n.toNat := ntoh_htons
  have htwo : ∀ n : BitVec 16, (htons n).length = 2 := fun n => rfl
  have hcall : BitVec.ofNat 15 (f.callno.zeroExtend 16).toNat = f.callno := by
    have hlt := f.callno.isLt
    refine BitVec.eq_of_toNat_eq ?_
    simp only [BitVec.toNat_ofNat, BitVec.truncate_eq_setWidth, BitVec.toNat_setWidth]
    omega
  obtain ⟨hentry, hrest⟩ := octets_append _ _ h
  rw [length_entry, ← Nat.add_assoc] at hrest
  cases mini with
  | true =>
    simp only [TrunkFrame.entry, reduceIte] at hentry
    obtain ⟨hhead, hpayload⟩ := octets_append _ _ hentry
    obtain ⟨hhead, hts⟩ := octets_append _ _ hhead
    obtain ⟨hl, hcallno⟩ := octets_append _ _ hhead
    simp only [List.length_append, htwo] at hl hcallno hts hpayload
    refine ⟨?_, hpayload, hrest⟩
    simp only [readEntry, reduceIte, hl, hcallno, hts, hback, hcall, BitVec.toNat_ofNat]
    rw [Nat.mod_eq_of_lt hlen]
  | false =>
    simp only [TrunkFrame.entry, Bool.false_eq_true, reduceIte] at hentry
    obtain ⟨hhead, hpayload⟩ := octets_append _ _ hentry
    obtain ⟨hcallno, hl⟩ := octets_append _ _ hhead
    simp only [List.length_append, htwo] at hl hcallno hpayload
    refine ⟨?_, hpayload, hrest⟩
    simp only [readEntry, Bool.false_eq_true, reduceIte, hl, hcallno, hback, hcall,
      BitVec.toNat_ofNat]
    rw [Nat.mod_eq_of_lt hlen]

/-- **A call known gets its frame**, another gets none; all calls stay known. -/
theorem metaVoice_entry {ts ptr : ℕ} (hfit : f.Fits r mini iaxs ts)
    (hfound : r.findCallno f.callno ≠ 0) (hpayload : octets r.mem ptr f.payload.length = f.payload) :
    (metaVoice r iaxs ts (r.findCallno f.callno) (if mini then f.ts % 2 ^ 16 else 0) ptr
        f.payload.length).deliveries.map (Delivery.content mini) =
      (if known r iaxs f then [f.content r mini] else []) ∧
    ∀ g, known r (metaVoice r iaxs ts (r.findCallno f.callno)
        (if mini then f.ts % 2 ^ 16 else 0) ptr f.payload.length).iaxs g = known r iaxs g := by
  cases hx : iaxs (r.findCallno f.callno) with
  | none => simp [metaVoice, hx, known, MetaRun.deliveries]
  | some p =>
    by_cases hformat : p.voiceformat = 0
    · simp [metaVoice, hx, known, hformat, MetaRun.deliveries]
    by_cases hstarted : p.started = true
    · have hknown : known r iaxs f = true := by simp [known, hx, hfound, hformat, hstarted]
      simp only [metaVoice, hx, if_neg hformat, deliver, hstarted, reduceIte, hpayload, hknown]
      constructor
      · simp only [MetaRun.deliveries, List.filterMap_cons, List.filterMap_nil, List.map_cons,
          List.map_nil, Delivery.content, TrunkFrame.content, unwrapTimestamp_mod]
        cases mini with
        | false => rfl
        | true =>
          simp only [reduceIte]
          split_ifs with hz
          · have hmod : (upper 16 p.last + lower 16 (f.ts % 2 ^ 16)) % 2 ^ 16 = f.ts % 2 ^ 16 := by
              unfold upper lower
              omega
            rw [hmod]
          · have hzero : f.ts % 2 ^ 16 = 0 := by omega
            rw [hfit.2.2 rfl hknown hzero, hzero]
      · intro g
        by_cases hg : r.findCallno g.callno = r.findCallno f.callno
        · simp [known, hg, hx, hfound, hformat, hstarted]
        · simp [known, Function.update_of_ne hg]
    · simp [metaVoice, hx, known, hformat, hstarted, deliver, MetaRun.deliveries]

/-! ## A trunk frame received -/

theorem TrunkFrame.Fits.congr {iaxs' : ℕ → Option Rx} {ts : ℕ} (h : f.Fits r mini iaxs ts)
    (hknown : known r iaxs' f = known r iaxs f) : f.Fits r mini iaxs' ts := by
  refine ⟨h.1, h.2.1, fun hmini hk => h.2.2 hmini ?_⟩
  rw [← hknown]
  exact hk

theorem deliveries_reads (run v : MetaRun) (o n : ℕ) :
    (run.after (.reads o n :: v.acts)).deliveries = v.deliveries ++ run.deliveries := by
  simp [MetaRun.deliveries, MetaRun.after, List.filterMap_append]

/-- **Entries that fit** are taken apart: the known calls get theirs, in
order. -/
theorem metaLoop_entries {ts : ℕ} (fs : List TrunkFrame) :
    ∀ (ptr : ℕ) (iaxs : ℕ → Option Rx), (∀ f ∈ fs, f.Fits r mini iaxs ts) →
      octets r.mem ptr (fs.flatMap (TrunkFrame.entry mini)).length =
          fs.flatMap (TrunkFrame.entry mini) →
        (metaLoop r mini ts ptr ((fs.flatMap (TrunkFrame.entry mini)).length : ℕ)
            iaxs).deliveries.map (Delivery.content mini) =
          (fs.filter (known r iaxs)).map (TrunkFrame.content r mini) := by
  induction fs with
  | nil =>
    intro ptr iaxs hfits hmem
    rw [metaLoop]
    simp [MetaRun.deliveries]
  | cons f fs ih =>
    intro ptr iaxs hfits hmem
    obtain ⟨hfit, hrest⟩ := List.forall_mem_cons.1 hfits
    have hsize : 4 ≤ sizeofEntry mini := by cases mini <;> decide
    have hlen := length_entry mini f
    rw [List.flatMap_cons] at hmem ⊢
    obtain ⟨hread, hpayload, hnext⟩ := readEntry_entry hfit.1 hmem
    have htotal : (f.entry mini ++ fs.flatMap (TrunkFrame.entry mini)).length =
        sizeofEntry mini + f.payload.length + (fs.flatMap (TrunkFrame.entry mini)).length := by
      rw [List.length_append, hlen]
    rw [metaLoop, htotal]
    simp only [hread]
    rw [if_neg (by omega), if_neg (by omega)]
    by_cases hfound : r.findCallno f.callno = 0
    · -- an entry with no payload, stepped over
      have hnil := hfit.2.1 hfound
      have hunknown : known r iaxs f = false := by simp [known, hfound]
      rw [hnil, List.length_nil, Nat.add_zero] at hnext
      have hleft : ((sizeofEntry mini + f.payload.length +
          (fs.flatMap (TrunkFrame.entry mini)).length : ℕ) : ℤ) - sizeofEntry mini =
            ((fs.flatMap (TrunkFrame.entry mini)).length : ℕ) := by
        rw [hnil, List.length_nil]
        omega
      rw [if_pos hfound, hleft, deliveries_reads _ ⟨[], iaxs⟩, List.map_append,
        ih _ _ hrest hnext, List.filter_cons, hunknown]
      simp [MetaRun.deliveries]
    · obtain ⟨hone, hsame⟩ := metaVoice_entry hfit hfound hpayload
      have hleft : ((sizeofEntry mini + f.payload.length +
          (fs.flatMap (TrunkFrame.entry mini)).length : ℕ) : ℤ) - sizeofEntry mini -
            f.payload.length = ((fs.flatMap (TrunkFrame.entry mini)).length : ℕ) := by
        omega
      have hlater := ih (ptr + sizeofEntry mini + f.payload.length) _
        (fun g hg => (hrest g hg).congr (hsame g)) hnext
      have hfilter : fs.filter (known r (metaVoice r iaxs ts (r.findCallno f.callno)
          (if mini then f.ts % 2 ^ 16 else 0) (ptr + sizeofEntry mini) f.payload.length).iaxs) =
            fs.filter (known r iaxs) := List.filter_congr fun g _ => hsame g
      rw [hfilter] at hlater
      rw [if_neg hfound, hleft, deliveries_reads, List.map_append, hlater, hone,
        List.filter_cons]
      split_ifs <;> simp

/-- **A trunk frame received** as it was sent, with frames that fit. -/
theorem socketProcessMeta_sent {fs : List TrunkFrame} {frame : List CChar} {ts : BitVec 32}
    (hframe : frame = [0, 0, 1, if mini then 1 else 0] ++ htonl ts ++
      fs.flatMap (TrunkFrame.entry mini))
    (hmem : octets r.mem 0 frame.length = frame)
    (hfits : ∀ f ∈ fs, f.Fits r mini iaxs (ntoh (octets r.mem 4 4))) :
    (socketProcessMeta r frame.length iaxs).deliveries.map (Delivery.content mini) =
      (fs.filter (known r iaxs)).map (TrunkFrame.content r mini) := by
  have hlen : frame.length = 8 + (fs.flatMap (TrunkFrame.entry mini)).length := by
    rw [hframe, List.length_append]
    rfl
  have hleft : (frame.length : ℤ) - 8 = ((fs.flatMap (TrunkFrame.entry mini)).length : ℕ) := by
    omega
  have hcuts := hmem
  rw [hframe] at hcuts
  obtain ⟨hhead, hrest⟩ := octets_append _ _ hcuts
  have hhdr := (octets_append _ _ hhead).1
  have hmeta : r.mem 0 = 0 ∧ r.mem 1 = 0 ∧ r.mem 2 = 1 ∧ r.mem 3 = if mini then 1 else 0 := by
    simpa [octets, List.range_succ] using hhdr
  obtain ⟨-, -, hcmd, htype⟩ := hmeta
  have hloop := metaLoop_entries fs 8 iaxs hfits hrest
  have hskip : ∀ run : MetaRun, (run.after [.reads 0 4, .reads 4 4]).deliveries = run.deliveries :=
    fun run => by simp [MetaRun.deliveries, MetaRun.after]
  unfold socketProcessMeta
  rw [if_neg (by omega), if_neg (not_not_intro hcmd), if_neg (by omega), hleft]
  dsimp only
  rw [hskip, htype]
  cases mini with
  | true => exact hloop
  | false => exact hloop

/-! ## The octets read -/

/-- **Mini frames that end short**: what is left of the packet at the head of
the loop comes to four or five octets. -/
inductive EndsShort (r : Receiver) : ℕ → ℕ → Prop
  | short {ptr n : ℕ} (hle : 4 ≤ n) (hlt : n < 6) : EndsShort r ptr n
  | unknown {ptr n : ℕ} (hle : 6 + (readEntry r.mem true ptr).1 ≤ n)
      (hfound : r.findCallno (readEntry r.mem true ptr).2.1 = 0)
      (h : EndsShort r (ptr + 6) (n - 6)) : EndsShort r ptr n
  | found {ptr n : ℕ} (hle : 6 + (readEntry r.mem true ptr).1 ≤ n)
      (hfound : r.findCallno (readEntry r.mem true ptr).2.1 ≠ 0)
      (h : EndsShort r (ptr + 6 + (readEntry r.mem true ptr).1)
        (n - 6 - (readEntry r.mem true ptr).1)) : EndsShort r ptr n

theorem inside_reads (run v : MetaRun) (o n b : ℕ) :
    (run.after (.reads o n :: v.acts)).Inside b ↔ o + n ≤ b ∧ v.Inside b ∧ run.Inside b := by
  simp only [MetaRun.Inside, MetaRun.after, List.mem_append, List.mem_cons, MetaAct.reads.injEq]
  constructor
  · intro h
    exact ⟨h o n (.inl (.inl ⟨rfl, rfl⟩)), fun o' n' hmem => h o' n' (.inl (.inr hmem)),
      fun o' n' hmem => h o' n' (.inr hmem)⟩
  · rintro ⟨hone, hv, hrun⟩ o' n' ((⟨rfl, rfl⟩ | hmem) | hmem)
    · exact hone
    · exact hv o' n' hmem
    · exact hrun o' n' hmem

/-- The octets of an entry are read where they stand. -/
theorem inside_metaVoice {ts callno trunkedTs ptr len b : ℕ} (hle : ptr + len ≤ b) :
    (metaVoice r iaxs ts callno trunkedTs ptr len).Inside b := by
  intro o n hmem
  unfold metaVoice at hmem
  split at hmem
  · simp at hmem
  · dsimp only at hmem
    split at hmem
    · simp at hmem
    · split at hmem
      · simp at hmem
      · obtain ⟨rfl, rfl⟩ : o = ptr ∧ n = len := by simpa using hmem
        exact hle

/-- An entry that is there leaves it to the ones behind it. -/
theorem endsShort_iff {ptr n : ℕ} (hle : 6 + (readEntry r.mem true ptr).1 ≤ n) :
    EndsShort r ptr n ↔
      if r.findCallno (readEntry r.mem true ptr).2.1 = 0 then EndsShort r (ptr + 6) (n - 6)
      else EndsShort r (ptr + 6 + (readEntry r.mem true ptr).1)
        (n - 6 - (readEntry r.mem true ptr).1) := by
  constructor
  · intro h
    cases h with
    | short _ hlt => omega
    | unknown _ hfound h => rwa [if_pos hfound]
    | found _ hfound h => rwa [if_neg hfound]
  · intro h
    split_ifs at h with hfound
    · exact .unknown hle hfound h
    · exact .found hle hfound h

/-- An entry with fewer octets than it says ends the loop. -/
theorem endsShort_of_lt {ptr n : ℕ} (hge : 4 ≤ n) (hlt : n < 6 + (readEntry r.mem true ptr).1) :
    EndsShort r ptr n ↔ n < 6 := by
  constructor
  · intro h
    cases h with
    | short _ hlt => exact hlt
    | unknown hle => omega
    | found hle => omega
  · exact fun h => .short hge h

/-- **The loop reads inside the packet** exactly if no mini frame ends
short. -/
theorem inside_metaLoop (mini : Bool) (ts n : ℕ) : ∀ (ptr : ℕ) (iaxs : ℕ → Option Rx),
    (metaLoop r mini ts ptr (n : ℤ) iaxs).Inside (ptr + n) ↔
      (mini = true → ¬ EndsShort r ptr n) := by
  induction n using Nat.strong_induction_on with
  | _ n ih =>
    intro ptr iaxs
    rw [metaLoop]
    by_cases hend : n < 4
    · rw [if_pos (by omega)]
      refine ⟨fun _ _ h => ?_, fun _ o m h => absurd h List.not_mem_nil⟩
      cases h <;> omega
    rw [if_neg (by omega)]
    have hsize : 4 ≤ sizeofEntry mini ∧ sizeofEntry mini ≤ 6 := by cases mini <;> decide
    generalize hread : readEntry r.mem mini ptr = x
    obtain ⟨len, callno, trunkedTs⟩ := x
    dsimp only
    by_cases hmore : (len : ℤ) > n - sizeofEntry mini
    · rw [if_pos hmore]
      have hone : (MetaRun.mk [.reads ptr (sizeofEntry mini)] iaxs).Inside (ptr + n) ↔
          sizeofEntry mini ≤ n := by simp [MetaRun.Inside]
      rw [hone]
      cases mini with
      | false =>
        have hfour : sizeofEntry false = 4 := rfl
        exact ⟨fun _ h => absurd h Bool.false_ne_true, fun _ => by omega⟩
      | true =>
        have hsix : sizeofEntry true = 6 := rfl
        rw [endsShort_of_lt (by omega) (by rw [hread]; omega)]
        exact ⟨fun h _ => by omega, fun h => by have := h rfl; omega⟩
    rw [if_neg hmore]
    have hcast : (n : ℤ) - sizeofEntry mini = ((n - sizeofEntry mini : ℕ) : ℤ) := by omega
    have hcast' : (n : ℤ) - sizeofEntry mini - len = ((n - sizeofEntry mini - len : ℕ) : ℤ) := by
      omega
    have hhere : ptr + sizeofEntry mini ≤ ptr + n := by omega
    have hstep : mini = true → (EndsShort r ptr n ↔
        if r.findCallno callno = 0 then EndsShort r (ptr + sizeofEntry mini) (n - sizeofEntry mini)
        else EndsShort r (ptr + sizeofEntry mini + len) (n - sizeofEntry mini - len)) := by
      intro hmini
      subst hmini
      have hsix : sizeofEntry true = 6 := rfl
      have h := @endsShort_iff r ptr n (by rw [hread]; omega)
      rwa [hread] at h
    by_cases hfound : r.findCallno callno = 0
    · have hrest := ih (n - sizeofEntry mini) (by omega) (ptr + sizeofEntry mini) iaxs
      have hbound : ptr + sizeofEntry mini + (n - sizeofEntry mini) = ptr + n := by omega
      rw [hbound] at hrest
      have hnone : (MetaRun.mk [] iaxs).Inside (ptr + n) := fun o m h => absurd h List.not_mem_nil
      rw [if_pos hfound, hcast, inside_reads _ ⟨[], iaxs⟩, hrest]
      simp only [hhere, hnone, true_and]
      exact forall_congr' fun hmini => by rw [hstep hmini, if_pos hfound]
    · have hrest := ih (n - sizeofEntry mini - len) (by omega) (ptr + sizeofEntry mini + len)
        (metaVoice r iaxs ts (r.findCallno callno) trunkedTs (ptr + sizeofEntry mini) len).iaxs
      have hbound : ptr + sizeofEntry mini + len + (n - sizeofEntry mini - len) = ptr + n := by
        omega
      rw [hbound] at hrest
      have hvoice : (metaVoice r iaxs ts (r.findCallno callno) trunkedTs (ptr + sizeofEntry mini)
          len).Inside (ptr + n) := inside_metaVoice (by omega)
      rw [if_neg hfound, hcast', inside_reads, hrest]
      simp only [hhere, hvoice, true_and]
      exact forall_congr' fun hmini => by rw [hstep hmini, if_neg hfound]

/-- A packet of mini frames that ends short. -/
def PacketEndsShort (r : Receiver) (packetLen : ℕ) : Prop :=
  8 ≤ packetLen ∧ r.mem 2 = 1 ∧ r.mem 3 = 1 ∧ EndsShort r 8 (packetLen - 8)

theorem inside_socketProcessMeta (r : Receiver) (packetLen : ℕ) (iaxs : ℕ → Option Rx) :
    (socketProcessMeta r packetLen iaxs).Inside packetLen ↔ ¬ PacketEndsShort r packetLen := by
  have hnone : ∀ b, (MetaRun.mk [] iaxs).Inside b := fun b o m h => absurd h List.not_mem_nil
  unfold socketProcessMeta
  by_cases hfour : packetLen < 4
  · rw [if_pos hfour]
    exact ⟨fun _ h => by have := h.1; omega, fun _ => hnone _⟩
  have hmeta : (MetaRun.mk [.reads 0 4] iaxs).Inside packetLen := by
    simp only [MetaRun.Inside, List.mem_singleton, MetaAct.reads.injEq]
    omega
  rw [if_neg hfour]
  by_cases hcmd : r.mem 2 = 1
  swap
  · rw [if_pos hcmd]
    exact ⟨fun _ h => hcmd h.2.1, fun _ => hmeta⟩
  rw [if_neg (not_not_intro hcmd)]
  by_cases height : packetLen < 8
  · rw [if_pos height]
    exact ⟨fun _ h => by have := h.1; omega, fun _ => hmeta⟩
  have hcast : (packetLen : ℤ) - 8 = ((packetLen - 8 : ℕ) : ℤ) := by omega
  have hbound : 8 + (packetLen - 8) = packetLen := by omega
  have hloop : ∀ mini ts, (metaLoop r mini ts 8 ((packetLen - 8 : ℕ) : ℤ) iaxs).Inside packetLen ↔
      (mini = true → ¬ EndsShort r 8 (packetLen - 8)) := fun mini ts => by
    rw [← inside_metaLoop mini ts _ 8 iaxs, hbound]
  have hheads : (MetaRun.mk [.reads 4 4] iaxs).Inside packetLen := by
    simp only [MetaRun.Inside, List.mem_singleton, MetaAct.reads.injEq]
    omega
  rw [if_neg height, hcast]
  dsimp only
  rw [inside_reads _ ⟨[.reads 4 4], iaxs⟩]
  simp only [show 0 + 4 ≤ packetLen by omega, hheads, true_and]
  by_cases hmini : r.mem 3 = 1
  · rw [if_pos hmini, hloop]
    exact ⟨fun h hp => h rfl hp.2.2.2, fun h _ hs => h ⟨by omega, hcmd, hmini, hs⟩⟩
  · have hpacket : ¬ PacketEndsShort r packetLen := fun h => hmini h.2.2.1
    rw [if_neg hmini]
    refine ⟨fun _ => hpacket, fun _ => ?_⟩
    split_ifs
    · exact (hloop false _).2 fun h => absurd h Bool.false_ne_true
    · exact hnone _

/-! ## Trunks -/

/-- A frame of call 1 whose payload looks like an entry of call 2. -/
def strayFrame : TrunkFrame := ⟨1, 20, [0, 2, 0, 0]⟩

def strayTrunk : List CChar := [0, 0, 1, 0, 0, 0, 0, 0, 0, 1, 0, 4, 0, 2, 0, 0]

/-- A receiver that knows call 2 only. -/
def strayReceiver : Receiver :=
  ⟨fun n => if n = 2 then 7 else 0, fun _ _ => 0, fun i => strayTrunk.getD i 0⟩

def strayCalls : ℕ → Option Rx := fun _ => some ⟨0, true, 4, 0⟩

/-- Call 2 is passed a frame. -/
theorem stray_deliveries :
    (socketProcessMeta strayReceiver strayTrunk.length strayCalls).deliveries ≠ [] := by
  have hfirst : readEntry strayReceiver.mem false 8 = (4, 1, 0) := rfl
  have hstray : readEntry strayReceiver.mem false (8 + sizeofEntry false) = (0, 2, 0) := rfl
  have hloop : (socketProcessMeta strayReceiver strayTrunk.length strayCalls).deliveries =
      (metaLoop strayReceiver false 0 8 8 strayCalls).deliveries := rfl
  rw [hloop, metaLoop, if_neg (by decide)]
  simp only [hfirst]
  rw [if_neg (by decide), if_pos (by decide), deliveries_reads _ ⟨[], strayCalls⟩, metaLoop,
    if_neg (by decide)]
  simp only [hstray]
  rw [if_neg (by decide), if_neg (by decide), deliveries_reads]
  simp only [MetaRun.deliveries, List.filterMap_nil, List.nil_append]
  exact List.append_ne_nil_of_left_ne_nil (List.cons_ne_nil _ _) _

end Iax2

end Trismedia
