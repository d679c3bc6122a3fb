import Trismedia.Dundi.Model
/-!
# Who is answered

A received command reads no element that is absent, asks the database only for a
peer that is authenticated and permitted, and leaves the peers as they are unless
one registers: exactly where the conditions here hold of the message.
-/


namespace Trismedia

namespace Dundi

open CString

/-! ## What is allowed -/

def Ies.context (ies : Ies) : CString := ies.calledContext.getD (str "e164")

/-- The entry of the peer that a message comes from, where it is authenticated. -/
def requester (w : World) (ies : Ies) (encrypted : Bool) : Option Entry :=
  (w.findPeer ies.firstEid).bind fun a =>
    if (w.mem a).inkey.isEmpty || encrypted then some (w.mem a).toEntry else none

/-- The model and the permissions of a peer allow the context. -/
def Allows (model : BitVec 32) (permlist : List Permission) (ccontext : CString) : Prop :=
  model &&& modelInbound ≠ 0 ∧ hasPermission permlist ccontext = true

/-- The message has the command and comes from an authenticated peer with the
property. -/
def From (w : World) (q : Message × Bool) (cmd : Command) (P : Entry → Prop) : Prop :=
  ∃ ies p, q.1.ies = some ies ∧ command q.1.cmdresp = cmd ∧ requester w ies q.2 = some p ∧ P p

/-- What a message may have done. -/
def Justified (w : World) (q : Message × Bool) : Action → Prop
  | .answerQuery ccontext => From w q .dpdiscover fun p => Allows p.model p.permit ccontext
  | .propPrecache ccontext => From w q .precacherq fun p => Allows p.pcmodel p.incl ccontext
  | .answerEntity ccontext => From w q .eidquery fun p => Allows p.model p.permit ccontext
  | _ => True

/-- The message is a registration that passes authentication. -/
def Registers (w : World) (q : Message × Bool) : Prop :=
  From w q .regreq fun p => p.dynamic = true

/-- The peers and their entries are the same. -/
structure SameEntries (w w' : World) : Prop where
  peers : w'.peers = w.peers
  anyPeer : w'.anyPeer = w.anyPeer
  entry : ∀ a, (w'.mem a).toEntry = (w.mem a).toEntry

/-- No absent element was read; what was done and changed is so for one of the
messages `qs`. -/
def Keeps (w : World) (qs : List (Message × Bool)) (out : Option (World × BitVec 8)) : Prop :=
  ∃ w' cmdresp acts, out = some (w', cmdresp) ∧ w'.log = w.log ++ acts ∧
    (∀ a ∈ acts, ∃ q ∈ qs, Justified w q a) ∧
      (¬ SameEntries w w' → ∃ q ∈ qs, Registers w q)

/-! ## Steps that are harmless -/

/-- The actions that are the answer to a query. -/
def Action.isQuery : Action → Bool
  | .answerQuery _ => true
  | .propPrecache _ => true
  | .answerEntity _ => true
  | _ => false

/-- The entries stay, and no query is answered. -/
structure Harmless (w w' : World) : Prop extends SameEntries w w' where
  acts : ∃ acts, w'.log = w.log ++ acts ∧ ∀ a ∈ acts, a.isQuery = false

variable {w w' w₁ w₂ : World} {q : Message × Bool} {qs : List (Message × Bool)}

theorem justified_of_not_isQuery {a : Action} (h : a.isQuery = false) : Justified w q a := by
  cases a <;> trivial

theorem SameEntries.refl (w : World) : SameEntries w w := ⟨rfl, rfl, fun _ => rfl⟩

theorem SameEntries.symm (h : SameEntries w w') : SameEntries w' w :=
  ⟨h.peers.symm, h.anyPeer.symm, fun a => (h.entry a).symm⟩

theorem SameEntries.trans (h : SameEntries w w₁) (h' : SameEntries w₁ w₂) : SameEntries w w₂ :=
  ⟨h'.peers.trans h.peers, h'.anyPeer.trans h.anyPeer, fun a => (h'.entry a).trans (h.entry a)⟩

theorem Harmless.trans (h : Harmless w w₁) (h' : Harmless w₁ w₂) : Harmless w w₂ := by
  obtain ⟨acts, hlog, hq⟩ := h.acts
  obtain ⟨acts', hlog', hq'⟩ := h'.acts
  refine ⟨h.toSameEntries.trans h'.toSameEntries, acts ++ acts', ?_, ?_⟩
  · rw [hlog', hlog, List.append_assoc]
  · intro a ha
    rcases List.mem_append.1 ha with ha | ha
    · exact hq a ha
    · exact hq' a ha

/-- Nothing but the transaction is changed. -/
theorem harmless_trans (w : World) (trans : Transaction) : Harmless w { w with trans := trans } :=
  ⟨⟨rfl, rfl, fun _ => rfl⟩, [], (List.append_nil _).symm, fun _ h => absurd h List.not_mem_nil⟩

theorem Harmless.refl (w : World) : Harmless w w := harmless_trans w w.trans

theorem harmless_act (w : World) {a : Action} (h : a.isQuery = false) : Harmless w (w.act a) :=
  ⟨⟨rfl, rfl, fun _ => rfl⟩, [a], rfl, fun _ hb => (List.mem_singleton.1 hb) ▸ h⟩

theorem harmless_send (w : World) (cmd : Command) (final : Bool) (ied : List Element) :
    Harmless w (w.send cmd final ied) :=
  (harmless_act w rfl).trans (harmless_trans _ _)

theorem harmless_ack (w : World) (final : Bool) : Harmless w (w.ack final) :=
  (harmless_act w rfl).trans (harmless_trans _ _)

theorem harmless_cancel (w : World) (final : Bool) (ied : List Element) :
    Harmless w (w.cancel final ied) := by
  unfold World.cancel
  split
  · exact Harmless.refl w
  · exact harmless_send w _ _ _

theorem harmless_rejectEncryption (w : World) (final : Bool) :
    Harmless w (w.rejectEncryption final) := by
  unfold World.rejectEncryption
  split
  · exact Harmless.refl w
  · exact (harmless_trans w _).trans (harmless_send _ _ _ _)

/-- A cached key is not of the entry. -/
theorem harmless_update (w : World) {a : ℕ} {peer : Peer}
    (h : peer.toEntry = (w.mem a).toEntry) :
    Harmless w { w with mem := Function.update w.mem a peer } := by
  refine ⟨⟨rfl, rfl, fun b => ?_⟩, [], (List.append_nil _).symm,
    fun _ h => absurd h List.not_mem_nil⟩
  show (Function.update w.mem a peer b).toEntry = (w.mem b).toEntry
  by_cases hb : b = a
  · subst hb
    rw [Function.update_self, h]
  · rw [Function.update_of_ne hb]

theorem harmless_startThread (env : Env) (w : World) (resp : Command) (st : QueryState) :
    Harmless w (w.startThread env resp st).1 := by
  unfold World.startThread
  split
  · exact (harmless_act w rfl).trans (harmless_trans _ _)
  · exact (harmless_trans w _).trans (harmless_send _ _ _ _)

theorem harmless_unsupported (w : World) (resp : Command) (res : ℤ) :
    Harmless w (w.unsupported resp res) := by
  unfold World.unsupported
  split
  · exact harmless_send w _ _ _
  · exact Harmless.refl w

theorem harmless_outOfMemory (w : World) (resp : Command) :
    Harmless w (w.outOfMemory resp).1 := harmless_send w _ _ _

/-! ## A query that is answered -/

/-- What one message does, where it opens no other. -/
def KeepsOne (w : World) (q : Message × Bool) (out : Option World) : Prop :=
  ∃ w' acts, out = some w' ∧ w'.log = w.log ++ acts ∧ (∀ a ∈ acts, Justified w q a) ∧
    (¬ SameEntries w w' → Registers w q)

theorem Harmless.keepsOne (h : Harmless w w') : KeepsOne w q (some w') := by
  obtain ⟨acts, hlog, hq⟩ := h.acts
  exact ⟨w', acts, rfl, hlog, fun a ha => justified_of_not_isQuery (hq a ha),
    fun hne => absurd h.toSameEntries hne⟩

theorem not_keepsOne_none : ¬ KeepsOne w q none := fun ⟨_, _, h, _⟩ => Option.some_ne_none _ h.symm

/-- After one action nothing is done but what is harmless: the action decides. -/
theorem Harmless.keepsOne_iff {a : Action} (h : Harmless (w.act a) w') :
    KeepsOne w q (some w') ↔ Justified w q a := by
  obtain ⟨acts, hlog, hq⟩ := h.acts
  have hall : w'.log = w.log ++ (a :: acts) := by
    rw [hlog, World.act, List.append_assoc, List.singleton_append]
  constructor
  · rintro ⟨w₁, acts', hw, hlog', hjust, -⟩
    obtain rfl := Option.some.inj hw
    have heq := List.append_cancel_left (hall.symm.trans hlog')
    exact hjust a (heq ▸ List.mem_cons_self)
  · intro ha
    refine ⟨w', a :: acts, rfl, hall, fun b hb => ?_, fun hne => absurd ?_ hne⟩
    · rcases List.mem_cons.1 hb with rfl | hb
      · exact ha
      · exact justified_of_not_isQuery (hq b hb)
    · exact ⟨h.peers, h.anyPeer, h.entry⟩

/-- A query with a context and a number reads nothing that is absent. -/
theorem query_spec (env : Env) (w : World) (resp : Command) (ies : Ies) {context number : CString}
    (hcontext : ies.calledContext = some context) (hnumber : ies.calledNumber = some number)
    (ccontext : CString) : ∃ r, w.query env resp ies ccontext = some r ∧ Harmless w r.1 := by
  unfold World.query
  split_ifs
  · exact ⟨_, rfl, Harmless.refl w⟩
  · rw [hcontext, hnumber]
    exact ⟨_, rfl, harmless_startThread env w resp _⟩
  · exact ⟨_, rfl, harmless_outOfMemory w resp⟩

theorem dundiAnswerQuery_spec (env : Env) (w : World) (ies : Ies) {context number : CString}
    (hcontext : ies.calledContext = some context) (hnumber : ies.calledNumber = some number)
    (ccontext : CString) : ∃ r, dundiAnswerQuery env w ies ccontext = some r ∧
      Harmless (w.act (.answerQuery ccontext)) r.1 :=
  query_spec env (w.act (.answerQuery ccontext)) .dpresponse ies hcontext hnumber ccontext

theorem dundiPropPrecache_spec (env : Env) (w : World) (ies : Ies) {context number : CString}
    (hcontext : ies.calledContext = some context) (hnumber : ies.calledNumber = some number)
    (ccontext : CString) : ∃ r, dundiPropPrecache env w ies ccontext = some r ∧
      Harmless (w.act (.propPrecache ccontext)) r.1 := by
  unfold dundiPropPrecache
  rw [hnumber]
  dsimp only
  obtain ⟨r, hr, hharm⟩ := query_spec env _ .precacherp ies hcontext hnumber ccontext
  refine ⟨r, hr, Harmless.trans ?_ hharm⟩
  cases ies.hint with
  | none => exact (harmless_trans _ _).trans (harmless_act _ rfl)
  | some hint => exact ((harmless_trans _ _).trans (harmless_act _ rfl)).trans (harmless_act _ rfl)

/-- An entity is only asked for where it was named, unless there is no memory. -/
theorem dundiAnswerEntity_spec (env : Env) (w : World) (ies : Ies) {context : CString}
    (hcontext : ies.calledContext = some context) (ccontext : CString) :
    if env.callocQuery = true ∧ ies.reqeid = none then
      dundiAnswerEntity env w ies ccontext = none
    else ∃ r, dundiAnswerEntity env w ies ccontext = some r ∧
      Harmless (w.act (.answerEntity ccontext)) r.1 := by
  unfold dundiAnswerEntity
  rw [hcontext]
  cases env.callocQuery with
  | false =>
    rw [if_neg fun h => Bool.false_ne_true h.1]
    exact ⟨_, rfl, harmless_outOfMemory _ _⟩
  | true =>
    cases ies.reqeid with
    | none => rw [if_pos ⟨rfl, rfl⟩, if_pos rfl]
    | some reqeid =>
      rw [if_neg fun h => Option.some_ne_none _ h.2, if_pos rfl]
      exact ⟨_, rfl, harmless_startThread env _ _ _⟩

/-! ## The messages that do no harm -/

/-- **A message does no harm** if a discovery from an authenticated peer is not
passed on as a precache, an entity is asked for by a peer that is permitted and
is named, and what is sent as the wildcard peer has an entity and registers. -/
def Safe (env : Env) (w : World) (q : Message × Bool) : Prop :=
  ∀ ies, q.1.ies = some ies → match command q.1.cmdresp with
    | .dpdiscover => ∀ p, requester w ies q.2 = some p →
      trisStrlenZero ies.calledNumber = false → Allows p.pcmodel p.incl ies.context →
        Allows p.model p.permit ies.context
    | .eidquery => ∀ p, requester w ies q.2 = some p →
      Allows p.model p.permit ies.context ∧ (env.callocQuery = true → ies.reqeid ≠ none)
    | .regreq => ∀ any, w.anyPeer = some any → w.findPeer ies.firstEid = some any →
      env.callocPeer ≠ none → ies.firstEid ≠ none ∧ Registers w q
    | _ => True

theorem requester_of_find {a : ℕ} {ies : Ies} (encrypted : Bool)
    (hfind : w.findPeer ies.firstEid = some a) :
    requester w ies encrypted =
      if (w.mem a).inkey.isEmpty || encrypted then some (w.mem a).toEntry else none := by
  unfold requester
  rw [hfind, Option.bind_some]

/-- What a message from a peer is justified by, read off that peer. -/
theorem from_iff {cmd : Command} {P : Entry → Prop} {ies : Ies} {p : Entry} (hies : q.1.ies = some ies)
    (hcmd : command q.1.cmdresp = cmd) (hreq : requester w ies q.2 = some p) :
    From w q cmd P ↔ P p := by
  constructor
  · rintro ⟨ies', p', hies', -, hreq', hP⟩
    obtain rfl := Option.some.inj (hies.symm.trans hies')
    obtain rfl := Option.some.inj (hreq.symm.trans hreq')
    exact hP
  · exact fun hP => ⟨ies, p, hies, hcmd, hreq, hP⟩

theorem not_from {cmd cmd' : Command} {P : Entry → Prop} (hcmd : command q.1.cmdresp = cmd)
    (hne : cmd ≠ cmd') : ¬ From w q cmd' P :=
  fun ⟨_, _, _, hcmd', _⟩ => hne (hcmd.symm.trans hcmd')

theorem exists_of_strlen {s : Option CString} (h : ¬ trisStrlenZero s = true) :
    ∃ t, s = some t := by
  cases s with
  | none => exact absurd rfl h
  | some t => exact ⟨t, rfl⟩

variable {env : Env} {resp : Command} {ies : Ies}

/-- An answer to an entity, by what the peer that asks is permitted. -/
theorem authorize_eidquery {peer : Peer} (hies : q.1.ies = some ies)
    (hcmd : command q.1.cmdresp = .eidquery) (hreq : requester w ies q.2 = some peer.toEntry)
    (trans : Transaction) :
    KeepsOne w q (({ w with trans := trans } : World).authorize env .eidquery resp ies peer) ↔
      Allows peer.model peer.permit ies.context ∧ (env.callocQuery = true → ies.reqeid ≠ none) := by
  unfold World.authorize
  rw [if_pos rfl]
  have hspec := dundiAnswerEntity_spec env { w with trans := trans }
    { ies with calledContext := some ies.context } rfl ies.context
  by_cases hnull : env.callocQuery = true ∧ ies.reqeid = none
  · rw [if_pos hnull] at hspec
    constructor
    · intro h
      exact absurd (hspec ▸ h) not_keepsOne_none
    · intro h
      exact absurd hnull.2 (h.2 hnull.1)
  · rw [if_neg hnull] at hspec
    obtain ⟨r, hr, hharm⟩ := hspec
    have hkeeps : KeepsOne w q (some r.1) ↔ Justified w q (.answerEntity ies.context) :=
      ((harmless_trans _ _).trans hharm).keepsOne_iff
    have hnamed : env.callocQuery = true → ies.reqeid ≠ none := fun h hnone => hnull ⟨h, hnone⟩
    rw [and_iff_left hnamed, ← from_iff (P := fun p => Allows p.model p.permit ies.context)
      hies hcmd hreq]
    refine Iff.trans (iff_of_eq ?_) hkeeps
    exact congrArg (KeepsOne w q) (congrArg (Option.map Prod.fst) hr)

/-- What is answered is followed by a reply at most. -/
theorem keepsOne_answered {w₀ : World} {a : Action} {out : Option (World × ℤ)}
    (h : ∃ r, out = some r ∧ Harmless (w₀.act a) r.1) (h₀ : Harmless (w.act a) (w₀.act a))
    (resp : Command) :
    KeepsOne w q (out.map fun r => r.1.unsupported resp r.2) ↔ Justified w q a := by
  obtain ⟨r, rfl, hharm⟩ := h
  exact ((h₀.trans hharm).trans (harmless_unsupported r.1 resp r.2)).keepsOne_iff

/-- A discovery is passed on as a precache where the peer is permitted that. -/
theorem authorize_dpdiscover {peer : Peer} (hies : q.1.ies = some ies)
    (hcmd : command q.1.cmdresp = .dpdiscover) (hreq : requester w ies q.2 = some peer.toEntry)
    (trans : Transaction) :
    KeepsOne w q (({ w with trans := trans } : World).authorize env .dpdiscover resp ies peer) ↔
      (trisStrlenZero ies.calledNumber = false → Allows peer.pcmodel peer.incl ies.context →
        Allows peer.model peer.permit ies.context) := by
  have hharm := harmless_trans w trans
  unfold World.authorize
  rw [if_neg (by decide)]
  by_cases hzero : trisStrlenZero ies.calledNumber = true
  · rw [if_pos hzero]
    refine iff_of_true (hharm.trans (harmless_send _ _ _ _)).keepsOne fun hnz => ?_
    exact absurd (hzero.symm.trans hnz) (by decide)
  · obtain ⟨number, hnumber⟩ := exists_of_strlen hzero
    rw [if_neg hzero]
    by_cases hmodel : Allows peer.model peer.permit ies.context
    · rw [if_pos ⟨rfl, hmodel⟩]
      have hspec := dundiAnswerQuery_spec env { w with trans := trans }
        { ies with calledContext := some ies.context } rfl hnumber ies.context
      have hjust : Justified w q (.answerQuery ies.context) :=
        (from_iff (P := fun p => Allows p.model p.permit ies.context) hies hcmd hreq).2 hmodel
      exact iff_of_true ((keepsOne_answered hspec (harmless_trans _ _) resp).2 hjust)
        fun _ _ => hmodel
    · rw [if_neg fun h => hmodel h.2]
      by_cases hpc : Allows peer.pcmodel peer.incl ies.context
      · rw [if_pos ⟨hpc.1, hpc.2⟩]
        refine iff_of_false ?_ fun h => hmodel (h (Bool.eq_false_iff.2 hzero) hpc)
        have hspec := dundiPropPrecache_spec env { w with trans := trans }
          { ies with calledContext := some ies.context } rfl hnumber ies.context
        exact fun h => not_from hcmd (by decide)
          ((keepsOne_answered hspec (harmless_trans _ _) resp).1 h)
      · rw [if_neg fun h => hpc ⟨h.1, h.2⟩]
        exact iff_of_true (hharm.trans (harmless_send _ _ _ _)).keepsOne fun _ h => absurd h hpc

/-- A precache is passed on only where it is asked for. -/
theorem authorize_precacherq {peer : Peer} (hies : q.1.ies = some ies)
    (hcmd : command q.1.cmdresp = .precacherq) (hreq : requester w ies q.2 = some peer.toEntry)
    (trans : Transaction) :
    KeepsOne w q (({ w with trans := trans } : World).authorize env .precacherq resp ies peer) := by
  have hharm := harmless_trans w trans
  unfold World.authorize
  rw [if_neg (by decide)]
  split_ifs with hzero hmodel hpc
  · exact (hharm.trans (harmless_send _ _ _ _)).keepsOne
  · exact absurd hmodel.1 (by decide)
  · obtain ⟨number, hnumber⟩ := exists_of_strlen hzero
    have hspec := dundiPropPrecache_spec env { w with trans := trans }
      { ies with calledContext := some ies.context } rfl hnumber ies.context
    exact (keepsOne_answered hspec (harmless_trans _ _) resp).2
      ((from_iff (P := fun p => Allows p.pcmodel p.incl ies.context) hies hcmd hreq).2 hpc)
  · exact (hharm.trans (harmless_send _ _ _ _)).keepsOne

/-- A query is answered for a peer that is authenticated, and for no other. -/
theorem handleQuery_keepsOne {cmd : Command} {C : Entry → Prop}
    (hauth : ∀ peer : Peer, requester w ies q.2 = some peer.toEntry → ∀ trans,
      (KeepsOne w q (({ w with trans := trans } : World).authorize env cmd resp ies peer) ↔
        C peer.toEntry)) :
    KeepsOne w q (handleQuery env w cmd resp ies q.2) ↔
      ∀ p, requester w ies q.2 = some p → C p := by
  unfold handleQuery
  cases hfind : w.findPeer ies.firstEid with
  | none =>
    refine iff_of_true (harmless_send _ _ _ _).keepsOne fun p hp => ?_
    rw [requester, hfind] at hp
    exact absurd hp (Option.some_ne_none _).symm
  | some a =>
    have hreq := requester_of_find q.2 hfind
    dsimp only
    split_ifs with hkey
    · rw [if_pos hkey] at hreq
      rw [hauth (w.mem a) hreq _, hreq]
      exact ⟨fun h p hp => Option.some.inj hp ▸ h, fun h => h _ rfl⟩
    · rw [if_neg hkey] at hreq
      refine iff_of_true ((harmless_trans _ _).trans (harmless_send _ _ _ _)).keepsOne
        fun p hp => ?_
      rw [hreq] at hp
      exact absurd hp (Option.some_ne_none _).symm

/-! ## Registrations -/

/-- No query is answered. -/
def Quiet (w w' : World) : Prop :=
  ∃ acts, w'.log = w.log ++ acts ∧ ∀ a ∈ acts, a.isQuery = false

theorem Quiet.keepsOne (h : Quiet w w') (hreg : ¬ SameEntries w w' → Registers w q) :
    KeepsOne w q (some w') := by
  obtain ⟨acts, hlog, hq⟩ := h
  exact ⟨w', acts, rfl, hlog, fun a ha => justified_of_not_isQuery (hq a ha), hreg⟩

theorem register_peers (env : Env) (w : World) (a : ℕ) : (w.register env a).peers = w.peers := by
  unfold World.register
  dsimp only
  split_ifs <;> rfl

theorem Quiet.act (h : Quiet w w') {a : Action} (ha : a.isQuery = false) : Quiet w (w'.act a) := by
  obtain ⟨acts, hlog, hq⟩ := h
  refine ⟨acts ++ [a], ?_, fun b hb => ?_⟩
  · rw [World.act, hlog, List.append_assoc]
  · rcases List.mem_append.1 hb with hb | hb
    · exact hq b hb
    · exact List.mem_singleton.1 hb ▸ ha

theorem register_quiet (env : Env) (w : World) (a : ℕ) : Quiet w (w.register env a) := by
  have hput : Quiet w (w.act (.dbPut (w.mem a).eid w.trans.addr env.defaultExpiration)) :=
    Quiet.act (Harmless.refl w).acts rfl
  have hsent : Quiet w ((w.act (.dbPut (w.mem a).eid w.trans.addr env.defaultExpiration)).send
      .regresponse true [.expiration env.defaultExpiration]) := hput.act rfl
  unfold World.register
  dsimp only
  split_ifs
  · exact hsent.act rfl
  · exact hsent

/-- What `REGREQ` does with a peer that was found or copied. -/
def handlePeer (env : Env) (w : World) (encrypted : Bool) (a : ℕ) : World :=
  if (w.mem a).dynamic then
    let w := { w with trans := { w.trans with usEid := (w.mem a).usEid } }
    if (w.mem a).inkey.isEmpty || encrypted then w.register env a else w
  else w.send .regresponse true [.cause 3 none]

theorem handlePeer_quiet (env : Env) (w : World) (encrypted : Bool) (a : ℕ) :
    Quiet w (handlePeer env w encrypted a) ∧ (handlePeer env w encrypted a).peers = w.peers := by
  unfold handlePeer
  dsimp only
  split_ifs
  · exact ⟨register_quiet env _ a, register_peers env _ a⟩
  · exact ⟨(harmless_trans w _).acts, rfl⟩
  · exact ⟨(harmless_send w _ _ _).acts, rfl⟩

theorem handlePeer_changes {a : ℕ} {encrypted : Bool}
    (h : ¬ SameEntries w (handlePeer env w encrypted a)) :
    (w.mem a).dynamic = true ∧ ((w.mem a).inkey.isEmpty || encrypted) = true := by
  unfold handlePeer at h
  dsimp only at h
  split_ifs at h with hdyn hkey
  · exact ⟨hdyn, hkey⟩
  · exact absurd (harmless_trans w _).toSameEntries h
  · exact absurd (harmless_send w _ _ _).toSameEntries h

/-- The wildcard peer is copied. -/
theorem handleRegreq_copied {any a : ℕ} (hany : w.anyPeer = some any)
    (hfind : w.findPeer ies.firstEid = some any) (hcalloc : env.callocPeer = some a) :
    KeepsOne w q (handleRegreq env w ies q.2) ↔ ies.firstEid ≠ none ∧ Registers w q := by
  have hcopy : copyAnyPeer env w ies = ies.firstEid.map fun eid => ({ w with
      peers := a :: w.peers
      mem := Function.update w.mem a { deepCopyPeer (w.mem any) with eid := eid } }, some a) := by
    unfold copyAnyPeer
    dsimp only
    rw [hany, hcalloc, hfind]
    dsimp only
    rw [if_pos rfl]
    cases ies.firstEid <;> rfl
  unfold handleRegreq
  rw [hcopy]
  cases heid : ies.firstEid with
  | none => exact iff_of_false not_keepsOne_none fun h => h.1 rfl
  | some eid =>
    let copied : World := { w with
      peers := a :: w.peers
      mem := Function.update w.mem a { deepCopyPeer (w.mem any) with eid := eid } }
    obtain ⟨⟨acts, hlog, hq⟩, hpeers⟩ := handlePeer_quiet env copied q.2 a
    have hnot : ¬ SameEntries w (handlePeer env copied q.2 a) := by
      intro h
      have hlen := congrArg List.length (h.peers.symm.trans hpeers)
      rw [List.length_cons] at hlen
      omega
    rw [and_iff_right (Option.some_ne_none eid)]
    show KeepsOne w q (some (handlePeer env copied q.2 a)) ↔ Registers w q
    constructor
    · rintro ⟨w', _, hw, -, -, hreg⟩
      obtain rfl := Option.some.inj hw
      exact hreg hnot
    · exact fun hreg => Quiet.keepsOne ⟨acts, hlog, hq⟩ fun _ => hreg

/-- No peer is copied: what is found registers or stays. -/
theorem handleRegreq_found (hies : q.1.ies = some ies) (hcmd : command q.1.cmdresp = .regreq)
    (hnot : ¬ ∃ any, w.anyPeer = some any ∧ w.findPeer ies.firstEid = some any ∧
      env.callocPeer ≠ none) : KeepsOne w q (handleRegreq env w ies q.2) := by
  have hcopy : copyAnyPeer env w ies = some (w, none) ∨
      copyAnyPeer env w ies = some (w, w.findPeer ies.firstEid) := by
    unfold copyAnyPeer
    dsimp only
    cases hany : w.anyPeer with
    | none => exact .inr rfl
    | some any =>
      cases hcalloc : env.callocPeer with
      | none =>
        dsimp only
        split_ifs
        · exact .inl rfl
        · exact .inr rfl
      | some a =>
        dsimp only
        rw [if_neg fun h => hnot ⟨any, hany, h, by rw [hcalloc]; exact Option.some_ne_none a⟩]
        exact .inr rfl
  unfold handleRegreq
  rcases hcopy with hcopy | hcopy
  · rw [hcopy]
    exact (harmless_send w _ _ _).keepsOne
  · rw [hcopy]
    cases hfind : w.findPeer ies.firstEid with
    | none => exact (harmless_send w _ _ _).keepsOne
    | some a =>
      show KeepsOne w q (some (handlePeer env w q.2 a))
      refine Quiet.keepsOne (handlePeer_quiet env w q.2 a).1 fun hne => ?_
      obtain ⟨hdyn, hkey⟩ := handlePeer_changes hne
      have hreq := requester_of_find q.2 hfind
      rw [if_pos hkey] at hreq
      exact (from_iff hies hcmd hreq).2 hdyn

/-! ## Responses and keys -/

theorem harmless_passAnswers (env : Env) (w : World) (ies : Ies) :
    Harmless w (w.passAnswers env ies) := by
  unfold World.passAnswers
  cases w.trans.parent with
  | none => exact Harmless.refl w
  | some req =>
    dsimp only
    by_cases hnone : req.dr.isNone = true
    · rw [if_pos hnone]
      exact Harmless.refl w
    · rw [if_neg hnone]
      refine Harmless.trans ?_ (harmless_trans _ _)
      cases ies.hint with
      | none => exact harmless_act _ rfl
      | some hint => exact (harmless_act _ rfl).trans (harmless_act _ rfl)

theorem harmless_passEntity (env : Env) (w : World) (ies : Ies) :
    Harmless w (w.passEntity env ies) := by
  unfold World.passEntity
  split
  · exact Harmless.refl w
  · split
    · exact harmless_trans w _
    · exact Harmless.refl w

theorem harmless_handleDpresponse (env : Env) (w : World) (ies : Ies) (final encrypted : Bool) :
    Harmless w (handleDpresponse env w ies final encrypted) := by
  unfold handleDpresponse
  split_ifs
  · exact (harmless_passAnswers env w ies).trans (harmless_cancel _ _ _)
  · exact Harmless.refl w
  · exact harmless_cancel w _ _

theorem harmless_handleEidresponse (env : Env) (w : World) (ies : Ies) (final encrypted : Bool) :
    Harmless w (handleEidresponse env w ies final encrypted) := by
  unfold handleEidresponse
  split_ifs
  · exact (harmless_passEntity env w ies).trans (harmless_cancel _ _ _)
  · exact Harmless.refl w
  · exact harmless_cancel w _ _

theorem harmless_handleRegresponse (w : World) (ies : Ies) (final encrypted : Bool) :
    Harmless w (handleRegresponse w ies final encrypted) := by
  unfold handleRegresponse
  split_ifs <;> exact harmless_cancel w _ _

theorem harmless_handleEncrej (env : Env) (w : World) (cmdresp : BitVec 8) :
    Harmless w (handleEncrej env w cmdresp).1 := by
  unfold handleEncrej
  split
  · split_ifs
    · exact harmless_cancel w _ _
    · have hack := (harmless_trans w { w.trans with sendfullkey := true }).trans
        (harmless_ack _ true)
      dsimp only
      split
      · exact hack.trans (harmless_trans _ _)
      · exact ((hack.trans (harmless_trans _ _)).trans (harmless_send _ _ _ _)).trans
          (harmless_update _ rfl)
    · exact harmless_trans w _
  · exact harmless_cancel w _ _

variable {K : Type} {c : Crypto K} {hdr : Message} {encrypted : Bool}

theorem checkKey_toEntry (c : Crypto K) (peer : Peer) (newkey newsig : Option Octets)
    (keycrc32 : BitVec 32) : (checkKey c peer newkey newsig keycrc32).2.toEntry = peer.toEntry := by
  unfold checkKey
  split_ifs
  · rfl
  · split
    · split_ifs
      · rfl
      · split
        · split_ifs
          · rfl
          · dsimp only
            split_ifs <;> rfl
        · rfl
    · rfl

/-- What opens a session changes the keys of a peer and the transaction. -/
theorem openSession_same (h : openSession c env w ies = some w') :
    SameEntries w w' ∧ w'.log = w.log := by
  unfold openSession at h
  by_cases hfirst : w.trans.iseqno = 1 ∧ w.trans.oseqno = 0
  · rw [if_pos hfirst] at h
    split at h
    · split_ifs at h
      dsimp only at h
      split_ifs at h
      obtain rfl := Option.some.inj h
      exact ⟨((harmless_update w (checkKey_toEntry c _ _ _ _)).trans
        (harmless_trans _ _)).toSameEntries, rfl⟩
    · exact absurd h (Option.some_ne_none _).symm
  · rw [if_neg hfirst] at h
    exact Option.some.inj h ▸ ⟨SameEntries.refl w, rfl⟩

/-! ## Where the entries are the same -/

theorem SameEntries.findPeer (h : SameEntries w w') (eid : Option Eid) :
    w'.findPeer eid = w.findPeer eid := by
  unfold World.findPeer
  rw [h.peers, h.anyPeer]
  have heid : ∀ a, (w'.mem a).eid = (w.mem a).eid := fun a => congrArg Entry.eid (h.entry a)
  simp only [heid]

theorem SameEntries.requester (h : SameEntries w w') (ies : Ies) (encrypted : Bool) :
    requester w' ies encrypted = requester w ies encrypted := by
  have hkey : ∀ a, (w'.mem a).inkey = (w.mem a).inkey := fun a => congrArg Entry.inkey (h.entry a)
  unfold Dundi.requester
  rw [h.findPeer]
  refine Option.bind_congr fun a _ => ?_
  rw [hkey a, h.entry a]

theorem SameEntries.from_iff (h : SameEntries w w') (q : Message × Bool) (cmd : Command)
    (P : Entry → Prop) : From w' q cmd P ↔ From w q cmd P := by
  unfold From
  simp only [h.requester]

theorem SameEntries.justified_iff (h : SameEntries w w') (q : Message × Bool) (a : Action) :
    Justified w' q a ↔ Justified w q a := by
  cases a <;> first | exact h.from_iff q _ _ | exact Iff.rfl

theorem SameEntries.safe_iff (h : SameEntries w w') (env : Env) (q : Message × Bool) :
    Safe env w' q ↔ Safe env w q := by
  unfold Safe Registers
  simp only [h.requester, h.findPeer, h.anyPeer, h.from_iff]

/-- What one message does is judged by the entries and the log alone. -/
theorem SameEntries.keepsOne_iff (h : SameEntries w w₁) (hlog : w₁.log = w.log)
    (q : Message × Bool) (out : Option World) : KeepsOne w₁ q out ↔ KeepsOne w q out := by
  unfold KeepsOne Registers
  have hsame : ∀ w', SameEntries w₁ w' ↔ SameEntries w w' :=
    fun w' => ⟨fun h' => h.trans h', fun h' => h.symm.trans h'⟩
  simp only [hlog, hsame, h.justified_iff, h.from_iff]

/-! ## A message and the one in it -/

/-- The message that another one has encrypted, where a session is opened for it. -/
def inner (c : Crypto K) (env : Env) (w : World) (hdr : Message) : Option Message :=
  match hdr.ies with
  | none => none
  | some ies =>
    if command hdr.cmdresp = .encrypt then
      (openSession c env w ies).bind fun w => decoded c w ies hdr.oseqno
    else none

/-- What is handled of a message: itself, and the one in it. -/
def handled (c : Crypto K) (env : Env) (w : World) (hdr : Message) (encrypted : Bool) :
    List (Message × Bool) :=
  (hdr, encrypted) ::
    if encrypted then [] else (inner c env w hdr).toList.map fun dhdr => (dhdr, true)

/-- **One message** keeps the rules exactly if it is safe; what it has encrypted
is looked at apart. -/
theorem handleCommand_keepsOne (nested : World → Message → Option (World × BitVec 8))
    (h : command hdr.cmdresp ≠ .encrypt ∨ encrypted = true) :
    KeepsOne w (hdr, encrypted) ((handleCommand c env nested w hdr encrypted).map Prod.fst) ↔
      Safe env w (hdr, encrypted) := by
  unfold handleCommand Safe
  cases hies : hdr.ies with
  | none => exact iff_of_true (Harmless.refl w).keepsOne fun ies h => absurd h (Option.some_ne_none _).symm
  | some ies =>
    have hone : ∀ P : Ies → Prop, (∀ ies', some ies = some ies' → P ies') ↔ P ies :=
      fun P => ⟨fun h => h ies rfl, fun h ies' heq => Option.some.inj heq ▸ h⟩
    rw [hone]
    dsimp only
    have hmap : ∀ out : Option World,
        (out.map fun w => (w, hdr.cmdresp)).map Prod.fst = out := fun out => by
      rw [Option.map_map]
      exact Option.map_id'
    cases hcmd : command hdr.cmdresp with
    | dpdiscover =>
      dsimp only
      rw [hmap]
      exact handleQuery_keepsOne (q := (hdr, encrypted)) fun peer hreq trans =>
        authorize_dpdiscover hies hcmd hreq trans
    | eidquery =>
      dsimp only
      rw [hmap]
      exact handleQuery_keepsOne (q := (hdr, encrypted)) fun peer hreq trans =>
        authorize_eidquery hies hcmd hreq trans
    | precacherq =>
      dsimp only
      rw [hmap]
      exact iff_of_true ((handleQuery_keepsOne (q := (hdr, encrypted)) (C := fun _ => True)
        fun peer hreq trans => iff_true_intro (authorize_precacherq hies hcmd hreq trans)).2
          fun _ _ => trivial) trivial
    | regreq =>
      dsimp only
      rw [hmap]
      by_cases hcopied : ∃ any, w.anyPeer = some any ∧ w.findPeer ies.firstEid = some any ∧
          env.callocPeer ≠ none
      · obtain ⟨any, hany, hfind, hcalloc⟩ := hcopied
        obtain ⟨a, ha⟩ := Option.ne_none_iff_exists'.1 hcalloc
        rw [handleRegreq_copied (q := (hdr, encrypted)) hany hfind ha]
        exact ⟨fun h _ _ _ _ => h, fun h => h any hany hfind hcalloc⟩
      · exact iff_of_true (handleRegreq_found (q := (hdr, encrypted)) hies hcmd hcopied)
          fun any hany hfind hcalloc => absurd ⟨any, hany, hfind, hcalloc⟩ hcopied
    | encrypt =>
      obtain rfl : encrypted = true := h.resolve_left fun hne => hne hcmd
      exact iff_of_true (harmless_rejectEncryption w _).keepsOne trivial
    | dpresponse => exact iff_of_true (harmless_handleDpresponse env w ies _ _).keepsOne trivial
    | eidresponse => exact iff_of_true (harmless_handleEidresponse env w ies _ _).keepsOne trivial
    | regresponse => exact iff_of_true (harmless_handleRegresponse w ies _ _).keepsOne trivial
    | encrej => exact iff_of_true (harmless_handleEncrej env w _).keepsOne trivial
    | invalid | null | precacherp => exact iff_of_true (harmless_cancel w _ _).keepsOne trivial
    | unknown | cancel | other =>
      refine iff_of_true (Harmless.keepsOne ?_) trivial
      dsimp only
      split
      · exact Harmless.refl w
      · exact harmless_send w _ _ _

variable {qs : List (Message × Bool)} {out : Option (World × BitVec 8)}

theorem keeps_single : Keeps w [q] out ↔ KeepsOne w q (out.map Prod.fst) := by
  constructor
  · rintro ⟨w', cmdresp, acts, rfl, hlog, hjust, hreg⟩
    refine ⟨w', acts, rfl, hlog, fun a ha => ?_, fun hne => ?_⟩
    · obtain ⟨q', hq', hj⟩ := hjust a ha
      exact List.mem_singleton.1 hq' ▸ hj
    · obtain ⟨q', hq', hr⟩ := hreg hne
      exact List.mem_singleton.1 hq' ▸ hr
  · rintro ⟨w', acts, hout, hlog, hjust, hreg⟩
    obtain ⟨r, rfl, rfl⟩ := Option.map_eq_some_iff.1 hout
    exact ⟨r.1, r.2, acts, rfl, hlog, fun a ha => ⟨q, List.mem_singleton_self q, hjust a ha⟩,
      fun hne => ⟨q, List.mem_singleton_self q, hreg hne⟩⟩

/-- A message that is encrypted justifies nothing by itself. -/
theorem keeps_pair {q' : Message × Bool} (hcmd : command q.1.cmdresp = .encrypt) :
    Keeps w [q, q'] out ↔ Keeps w [q'] out := by
  have hskip : ∀ P : Message × Bool → Prop, (P q → P q') →
      ((∃ p ∈ [q, q'], P p) ↔ ∃ p ∈ [q'], P p) := by
    intro P hP
    simp only [List.mem_cons, exists_eq_or_imp, List.not_mem_nil, or_false]
    exact or_iff_right_of_imp fun hq => ⟨q', rfl, hP hq⟩
  have hjust : ∀ a, (∃ p ∈ [q, q'], Justified w p a) ↔ ∃ p ∈ [q'], Justified w p a := by
    refine fun a => hskip _ fun hj => justified_of_not_isQuery ?_
    cases a <;> first | rfl | exact absurd hj (not_from hcmd (by decide))
  have hreg := hskip (Registers w) fun hr => absurd hr (not_from hcmd (by decide))
  unfold Keeps
  simp only [hjust, hreg]

/-- **A message that opens no other** keeps the rules exactly if it is safe. -/
theorem keeps_iff_of_not_opens (nested : World → Message → Option (World × BitVec 8))
    (h : command hdr.cmdresp ≠ .encrypt ∨ encrypted = true) :
    Keeps w [(hdr, encrypted)] (handleCommand c env nested w hdr encrypted) ↔
      Safe env w (hdr, encrypted) :=
  keeps_single.trans (handleCommand_keepsOne nested h)

/-- **A message that another one has encrypted** is judged as if it had come by
itself. -/
theorem keeps_iff_of_encrypt (nested : World → Message → Option (World × BitVec 8))
    (hnested : ∀ w dhdr, KeepsOne w (dhdr, true) ((nested w dhdr).map Prod.fst) ↔
      Safe env w (dhdr, true)) (hcmd : command hdr.cmdresp = .encrypt) :
    Keeps w ((hdr, false) :: (inner c env w hdr).toList.map fun dhdr => (dhdr, true))
        (handleCommand c env nested w hdr false) ↔
      ∀ dhdr, inner c env w hdr = some dhdr → Safe env w (dhdr, true) := by
  unfold inner handleCommand
  have hquiet : ∀ {w' : World} {cmdresp : BitVec 8}, Harmless w w' →
      Keeps w [(hdr, false)] (some (w', cmdresp)) := fun h => keeps_single.2 h.keepsOne
  have hnone : ∀ dhdr, (none : Option Message) = some dhdr → Safe env w (dhdr, true) :=
    fun dhdr h => absurd h (Option.some_ne_none _).symm
  cases hies : hdr.ies with
  | none => exact iff_of_true (hquiet (Harmless.refl w)) hnone
  | some ies =>
    dsimp only
    rw [hcmd, if_pos rfl]
    dsimp only
    unfold handleEncrypt
    rw [if_neg Bool.false_ne_true]
    cases hopen : openSession c env w ies with
    | none =>
      dsimp only
      refine iff_of_true (hquiet ?_) hnone
      split
      · exact Harmless.refl w
      · exact harmless_send w _ _ _
    | some w₁ =>
      obtain ⟨hsame, hlog⟩ := openSession_same hopen
      dsimp only
      rw [Option.bind_some]
      cases hdec : decoded c w₁ ies hdr.oseqno with
      | none =>
        have hharm : Harmless w w₁ :=
          ⟨hsame, [], by rw [hlog, List.append_nil], fun _ h => absurd h List.not_mem_nil⟩
        exact iff_of_true (hquiet (hharm.trans (harmless_rejectEncryption w₁ _))) hnone
      | some dhdr =>
        dsimp only
        rw [Option.toList_some, List.map_cons, List.map_nil, keeps_pair hcmd, keeps_single,
          Option.map_map]
        have hfst : ∀ r : Option (World × BitVec 8), (r.map (Prod.fst ∘ fun r =>
            (r.1, hdr.cmdresp ||| (r.2 &&& 0x80)))) = r.map Prod.fst := fun r => rfl
        rw [hfst, ← hsame.keepsOne_iff hlog, hnested, hsame.safe_iff]
        exact ⟨fun h dhdr' heq => Option.some.inj heq ▸ h, fun h => h dhdr rfl⟩

/-- A peer without keys that may send what it knows, and may ask for nothing. -/
def pushPeer : Peer where
  eid := 1
  addr := (0, 0)
  permit := []
  incl := [⟨true, str "all"⟩]
  usEid := 2
  inkey := []
  outkey := []
  registerexpire := -1
  model := 0
  pcmodel := modelInbound
  dynamic := false
  lastms := 0
  maxms := 0
  sentfullkey := false
  txenckey := ([], [])
  rxenckey := ([], [])
  themKeycrc32 := 0
  themKey := []

def pushWorld : World where
  peers := [0]
  mem := fun _ => pushPeer
  anyPeer := none
  mappings := []
  trans := {
    addr := (0, 0), usEid := 2, themEid := 1, key := [], encrypt := false, sendfullkey := false,
    final := false, thread := false, retranstimer := 1000, autokilltimeout := 5000, strans := 1,
    dtrans := 1, iseqno := 1, oiseqno := 0, oseqno := 0, aseqno := 0, lasttrans := none,
    parent := none }
  log := []

def plainEnv : Env where
  dundiCacheTime := 3600
  defaultExpiration := 3600
  globalAutokilltimeout := 5000
  callocPeer := some 1
  callocQuery := true
  createThread := true
  schedAdd := 1
  transId := 1
  inetNtoa := fun _ => []

/-- `DPDISCOVER` for the number 100. -/
def discover : Message where
  cmdresp := 1
  oseqno := 0
  ies := some {
    eids := [(1, false)], reqeid := none, calledContext := none, calledNumber := some (str "100"),
    answers := [], hint := none, ttl := 32, expiration := -1, cause := -1, qDept := none,
    qOrg := none, qLocality := none, qStateprov := none, qCountry := none, qEmail := none,
    qPhone := none, qIpaddr := none, encsharedkey := none, encsig := none, keycrc32 := 0,
    encblock := none, cbypass := false }

def noCrypto : Crypto Unit where
  keyGet := fun _ _ => none
  checkSignatureBin := fun _ _ _ => 1
  decryptBin := fun _ _ => (0, [])
  crc32 := fun _ => 0
  decrypt := fun _ _ => none

end Dundi

end Trismedia
