import Mathlib.Data.Int.Notation
import Mathlib.Logic.Function.Basic
import Trismedia.Common.CString
/-!
# DUNDi

Peers, transactions and the information elements of a message, with the helpers
that the handling of a command calls: `pbx/pbx_dundi.c`. A pointer to a peer is
its address. A pointer that may be null is an `Option`. What is sent, stored and
started is appended to a log.
-/


namespace Trismedia

namespace Dundi

open CString

abbrev Eid := BitVec 48

abbrev Octets := List (BitVec 8)

/-- `struct sockaddr_in`: the address and the port. -/
abbrev SockAddr := BitVec 32 × BitVec 16

def emptyEid : Eid := 0

/-- `ntohs` and `htons` -/
def ntohs (x : BitVec 16) : BitVec 16 := (x <<< 8) ||| (x >>> 8)

def modelInbound : BitVec 32 := 1

def hintTtlExpired : BitVec 16 := 1

def hintDontAsk : BitVec 16 := 2

def hintUnaffected : BitVec 16 := 4

def maxResults : ℕ := 64

/-- The commands that have a case of their own. -/
inductive Command where
  | dpdiscover
  | dpresponse
  | eidquery
  | eidresponse
  | precacherq
  | precacherp
  | invalid
  | unknown
  | null
  | regreq
  | regresponse
  | cancel
  | encrypt
  | encrej
  | other (cmd : BitVec 8)
  deriving DecidableEq

/-- `hdr->cmdresp & 0x7f` -/
def command (cmdresp : BitVec 8) : Command :=
  let cmd := cmdresp &&& 0x7f
  match cmd.toNat with
  | 1 => .dpdiscover
  | 66 => .dpresponse
  | 3 => .eidquery
  | 68 => .eidresponse
  | 5 => .precacherq
  | 70 => .precacherp
  | 71 => .invalid
  | 72 => .unknown
  | 9 => .null
  | 10 => .regreq
  | 75 => .regresponse
  | 12 => .cancel
  | 13 => .encrypt
  | 78 => .encrej
  | _ => .other cmd

/-- `hdr->cmdresp & 0x80` -/
def isFinal (cmdresp : BitVec 8) : Bool := cmdresp &&& 0x80 ≠ 0

/-! ## Messages -/

/-- `struct dundi_answer`; the numbers are in the order of the network. -/
structure Answer where
  eid : Eid
  protocol : BitVec 8
  flags : BitVec 16
  weight : BitVec 16
  data : CString

/-- `struct dundi_hint` -/
structure Hint where
  flags : BitVec 16
  data : CString

/-- `struct dundi_ies`. `eids` holds `eid_direct` as well, and `encblock` the
initialization vector and the `enclen` octets that follow it. -/
structure Ies where
  eids : List (Eid × Bool)
  reqeid : Option Eid
  calledContext : Option CString
  calledNumber : Option CString
  answers : List Answer
  hint : Option Hint
  ttl : ℤ
  expiration : ℤ
  cause : ℤ
  qDept : Option CString
  qOrg : Option CString
  qLocality : Option CString
  qStateprov : Option CString
  qCountry : Option CString
  qEmail : Option CString
  qPhone : Option CString
  qIpaddr : Option CString
  encsharedkey : Option Octets
  encsig : Option Octets
  keycrc32 : BitVec 32
  encblock : Option (Octets × Octets)
  cbypass : Bool

/-- A message: what of its header is read, and the elements that
`dundi_parse_ies` finds behind it. They are `none` where it fails. -/
structure Message where
  cmdresp : BitVec 8
  oseqno : BitVec 8
  ies : Option Ies

/-- `ies->eids[0]` -/
def Ies.firstEid (ies : Ies) : Option Eid := ies.eids.head?.map Prod.fst

/-- What is appended to a `struct dundi_ie_data`. -/
inductive Element where
  | cause (code : ℕ) (desc : Option CString)
  | expiration (n : ℤ)
  | unknown (cmd : BitVec 8)
  | eid (eid : Eid)
  | sharedkey (key : Octets)
  | signature (sig : Octets)
  | encdata (block : Octets × Octets)

/-! ## Peers, requests and transactions -/

/-- `struct permission` -/
structure Permission where
  allow : Bool
  name : CString

/-- A peer as it is configured and registered. -/
structure Entry where
  eid : Eid
  addr : SockAddr
  permit : List Permission
  incl : List Permission
  usEid : Eid
  inkey : CString
  outkey : CString
  registerexpire : ℤ
  model : BitVec 32
  pcmodel : BitVec 32
  dynamic : Bool
  lastms : ℤ
  maxms : ℤ

/-- A `struct dundi_peer`: its entry and the keys that are cached. An AES
context is its key. -/
structure Peer extends Entry where
  sentfullkey : Bool
  txenckey : Octets × Octets
  rxenckey : Octets × Octets
  themKeycrc32 : BitVec 32
  themKey : Octets

/-- `struct dundi_result` -/
structure Result where
  flags : BitVec 16
  weight : BitVec 16
  expiration : ℤ
  techint : BitVec 8
  eid : Eid
  dest : CString

/-- `struct dundi_entity_info` -/
structure EntityInfo where
  country : CString
  stateprov : CString
  locality : CString
  org : CString
  orgunit : CString
  email : CString
  phone : CString
  ipaddr : CString

/-- `struct dundi_hint_metadata` -/
structure HintMetadata where
  flags : BitVec 16
  exten : CString

/-- `struct dundi_request`. The answers are the first `respcount` at `dr`. -/
structure Request where
  dcontext : CString
  number : CString
  queryEid : Eid
  dr : Option (List Result)
  dei : Option EntityInfo
  hmd : HintMetadata
  maxcount : ℕ
  respcount : ℕ
  expiration : ℤ

/-- `struct dundi_transaction`. `lasttrans` is the last packet that was
transmitted, with its command and its elements. -/
structure Transaction where
  addr : SockAddr
  usEid : Eid
  themEid : Eid
  key : Octets
  encrypt : Bool
  sendfullkey : Bool
  final : Bool
  thread : Bool
  retranstimer : ℤ
  autokilltimeout : ℤ
  strans : ℕ
  dtrans : ℕ
  iseqno : BitVec 8
  oiseqno : BitVec 8
  oseqno : BitVec 8
  aseqno : BitVec 8
  lasttrans : Option (BitVec 8 × Ies)
  parent : Option Request

/-- `struct dundi_mapping` -/
structure Mapping where
  dcontext : CString
  lcontext : CString

/-- What of a `struct dundi_query_state` is filled in. -/
structure QueryState where
  reqeid : Option Eid
  calledContext : CString
  calledNumber : CString
  ttl : ℤ
  nocache : Bool
  eids : List (Eid × Bool)
  maps : List Mapping

/-- What is done to the world outside. -/
inductive Action where
  | send (cmd : Command) (final : Bool) (ied : List Element)
  | ack (final : Bool)
  | answerQuery (ccontext : CString)
  | propPrecache (ccontext : CString)
  | answerEntity (ccontext : CString)
  | thread (st : QueryState)
  | cacheSave (eid : Eid) (req : Request) (start : ℕ) (unaffected : Bool) (expiration : ℤ)
      (push : Bool)
  | cacheSaveHint (eid : Eid) (req : Request) (hint : Hint) (expiration : ℤ)
  | dbPut (eid : Eid) (addr : SockAddr) (expire : ℤ)
  | qualify (peer : ℕ)

/-- The peers, by their addresses, with the wildcard peer, and the transaction
that is handled. -/
structure World where
  peers : List ℕ
  mem : ℕ → Peer
  anyPeer : Option ℕ
  mappings : List Mapping
  trans : Transaction
  log : List Action

/-- The settings, and what the calls for memory, threads and timers give. -/
structure Env where
  dundiCacheTime : ℤ
  defaultExpiration : ℤ
  globalAutokilltimeout : ℤ
  callocPeer : Option ℕ
  callocQuery : Bool
  createThread : Bool
  schedAdd : ℤ
  transId : ℕ
  inetNtoa : BitVec 32 → CString

/-- The functions on keys: `K` is a `struct tris_key`, found by its name as a
private or a public one. `decrypt` is `decrypt_memcpy`, `uncompress` and the
parsing of what comes out; its header has the sequence numbers of the outer one. -/
structure Crypto (K : Type) where
  keyGet : CString → Bool → Option K
  checkSignatureBin : K → Octets → Octets → ℤ
  decryptBin : K → Octets → ℤ × Octets
  crc32 : Octets → BitVec 32
  decrypt : Octets → Octets × Octets → Option (BitVec 8 × Option Ies)

namespace World

def act (w : World) (a : Action) : World := { w with log := w.log ++ [a] }

/-- `dundi_send`, with memory for the packet -/
def send (w : World) (cmd : Command) (final : Bool) (ied : List Element) : World :=
  { w.act (.send cmd final ied) with
    trans := { w.trans with
      final := final || w.trans.final
      oseqno := w.trans.oseqno + 1
      aseqno := w.trans.iseqno } }

/-- `dundi_ack` -/
def ack (w : World) (final : Bool) : World :=
  { w.act (.ack final) with
    trans := { w.trans with final := final || w.trans.final, aseqno := w.trans.iseqno } }

/-- `find_peer` -/
def findPeer (w : World) (eid : Option Eid) : Option ℕ :=
  (w.peers.find? fun cur => (w.mem cur).eid = eid.getD emptyEid).or w.anyPeer

end World

/-- `has_permission` -/
def hasPermission (permlist : List Permission) (cont : CString) : Bool :=
  permlist.foldl (fun res perm =>
    if strcaseEq perm.name (str "all") || strcaseEq perm.name cont then perm.allow else res) false

/-- `deep_copy_peer`: the lists are filled at the head. -/
def deepCopyPeer (src : Peer) : Peer :=
  { src with permit := src.permit.reverse, incl := src.incl.reverse }

/-- `apply_peer` -/
def applyPeer (env : Env) (trans : Transaction) (p : Peer) : Transaction :=
  { trans with
    addr := if trans.addr.1 = 0 then p.addr else trans.addr
    usEid := p.usEid
    themEid := p.eid
    encrypt := if p.inkey.isEmpty then trans.encrypt else true
    autokilltimeout := if p.maxms ≠ 0 then p.maxms else env.globalAutokilltimeout
    retranstimer :=
      if p.maxms ≠ 0 then
        if 1 < p.lastms then min (max (p.lastms * 2) 150) 1000 else 1000
      else trans.retranstimer }

/-- `check_key`: the result, and the peer with the keys it then holds. -/
def checkKey {K : Type} (c : Crypto K) (peer : Peer) (newkey newsig : Option Octets)
    (keycrc32 : BitVec 32) : ℤ × Peer :=
  if peer.themKeycrc32 ≠ 0 ∧ peer.themKeycrc32 = keycrc32 then (1, peer)
  else match newkey, newsig with
    | some newkey, some newsig =>
      if peer.rxenckey = (newkey, newsig) then (1, peer)
      else match c.keyGet peer.outkey true, c.keyGet peer.inkey false with
        | some key, some skey =>
          if c.checkSignatureBin skey newkey newsig ≠ 0 then (0, peer)
          else
            let (res, dst) := c.decryptBin key newkey
            if res ≠ 16 then (0, peer)
            else (1, { peer with
              rxenckey := (newkey, newsig)
              themKeycrc32 := c.crc32 newkey
              themKey := dst })
        | _, _ => (-1, peer)
    | _, _ => (0, peer)

/-- `reset_transaction` -/
def resetTransaction (env : Env) (trans : Transaction) : Option Transaction :=
  if env.transId < 1 then none
  else some { trans with
    strans := env.transId
    dtrans := 0
    iseqno := 0
    oiseqno := 0
    oseqno := 0
    aseqno := 0
    final := false }

end Dundi

/-!
## A received command

`handle_command_response` of `pbx/pbx_dundi.c` with the functions that answer a
query. The result `none` is an element that is absent and was read.
-/

namespace Dundi

open CString

/-! ## Queries -/

/-- The maps of a context. -/
def World.maps (w : World) (ccontext : CString) : List Mapping :=
  w.mappings.filter fun cur => strcaseEq cur.dcontext ccontext

/-- The entities that are asked on: without the first where the last is the same. -/
def Ies.avoids (ies : Ies) : List (Eid × Bool) :=
  if 1 < ies.eids.length ∧ ies.firstEid = ies.eids.getLast?.map Prod.fst then ies.eids.drop 1
  else ies.eids

/-- `st->ttl` -/
def Ies.ttlLeft (ies : Ies) : ℤ := max (ies.ttl - 1) 0

/-- The thread of a query is created. -/
def World.startThread (env : Env) (w : World) (resp : Command) (st : QueryState) : World × ℤ :=
  if env.createThread then
    ({ w.act (.thread st) with trans := { w.trans with thread := true } }, 0)
  else
    (({ w with trans := { w.trans with thread := false } } : World).send resp true
      [.cause 1 (some (str "Out of threads"))], -1)

def World.outOfMemory (w : World) (resp : Command) : World × ℤ :=
  (w.send resp true [.cause 1 (some (str "Out of memory"))], -1)

/-- `dundi_answer_entity` -/
def dundiAnswerEntity (env : Env) (w : World) (ies : Ies) (ccontext : CString) :
    Option (World × ℤ) :=
  let w := w.act (.answerEntity ccontext)
  if env.callocQuery then
    match ies.calledContext, ies.reqeid with
    | some context, some reqeid => some (w.startThread env .eidresponse {
        reqeid := some reqeid
        calledContext := trisCopyString context 80
        calledNumber := []
        ttl := ies.ttlLeft
        nocache := false
        eids := ies.avoids.map fun e => (e.1, false)
        maps := [] })
    | _, _ => none
  else some (w.outOfMemory .eidresponse)

/-- The part that `dundi_answer_query` and `dundi_prop_precache` share: the query
for the maps of the context. -/
def World.query (env : Env) (w : World) (resp : Command) (ies : Ies) (ccontext : CString) :
    Option (World × ℤ) :=
  if w.maps ccontext = [] then some (w, -1)
  else if env.callocQuery then
    match ies.calledContext, ies.calledNumber with
    | some context, some number => some (w.startThread env resp {
        reqeid := none
        calledContext := trisCopyString context 80
        calledNumber := trisCopyString number 80
        ttl := ies.ttlLeft
        nocache := ies.cbypass
        eids := ies.avoids
        maps := w.maps ccontext })
    | _, _ => none
  else some (w.outOfMemory resp)

/-- `dundi_answer_query` -/
def dundiAnswerQuery (env : Env) (w : World) (ies : Ies) (ccontext : CString) :
    Option (World × ℤ) :=
  (w.act (.answerQuery ccontext)).query env .dpresponse ies ccontext

/-- One answer of a message is put with those of a request. The weight that is
compared with is in the order of the network. -/
def Request.addAnswer (env : Env) (expiration : ℤ) (req : Request) (answer : Answer) : Request :=
  match req.dr with
  | none => req
  | some dr =>
    if req.respcount < req.maxcount then
      match dr.findIdx? fun r => r.techint = answer.protocol ∧ r.dest = answer.data with
      | none =>
        { req with
          dr := some (dr ++ [{
            flags := ntohs answer.flags
            weight := ntohs answer.weight
            expiration := if 0 < expiration then expiration else env.dundiCacheTime
            techint := answer.protocol
            eid := answer.eid
            dest := trisCopyString answer.data 256 }])
          respcount := req.respcount + 1
          hmd := { req.hmd with flags := req.hmd.flags &&& ~~~hintDontAsk } }
      | some z =>
        { req with
          dr := some (dr.modify z fun r =>
            if answer.weight < r.weight then { r with weight := answer.weight } else r) }
    else req

/-- `dundi_prop_precache` -/
def dundiPropPrecache (env : Env) (w : World) (ies : Ies) (ccontext : CString) :
    Option (World × ℤ) :=
  match ies.calledNumber with
  | none => none
  | some number =>
    let dr : Request := {
      dcontext := trisCopyString (ies.calledContext.getD (str "e164")) 80
      number := trisCopyString number 80
      queryEid := emptyEid
      dr := some []
      dei := none
      hmd := ⟨hintDontAsk ||| hintUnaffected, []⟩
      maxcount := maxResults
      respcount := 0
      expiration := env.dundiCacheTime }
    let dr := ies.answers.foldl (Request.addAnswer env ies.expiration) dr
    let w := w.act (.propPrecache ccontext)
    let w := { w with trans := { w.trans with parent := some dr } }
    let w := w.act (.cacheSave w.trans.themEid dr 0 false ies.expiration true)
    let w := match ies.hint with
      | some hint => w.act (.cacheSaveHint w.trans.themEid dr hint ies.expiration)
      | none => w
    w.query env .precacherp ies ccontext

/-- The reply to a query whose context there is not. -/
def World.unsupported (w : World) (resp : Command) (res : ℤ) : World :=
  if res < 0 then w.send resp true [.cause 3 (some (str "Unsupported DUNDI Context"))] else w

/-- The part for a peer that is authenticated: whether it is authorized. -/
def World.authorize (env : Env) (w : World) (cmd resp : Command) (ies : Ies) (peer : Peer) :
    Option World :=
  let context := ies.calledContext.getD (str "e164")
  let ies := { ies with calledContext := some context }
  if cmd = .eidquery then
    (dundiAnswerEntity env w ies context).map Prod.fst
  else if trisStrlenZero ies.calledNumber then
    some (w.send resp true [.cause 1 (some (str "Invalid or missing number/entity"))])
  else if cmd = .dpdiscover ∧ peer.model &&& modelInbound ≠ 0 ∧
      hasPermission peer.permit context then
    (dundiAnswerQuery env w ies context).map fun r => r.1.unsupported resp r.2
  -- `cmd = DUNDI_COMMAND_PRECACHERQ` is an assignment, and its value is not zero
  else if peer.pcmodel &&& modelInbound ≠ 0 ∧ hasPermission peer.incl context then
    (dundiPropPrecache env w ies context).map fun r => r.1.unsupported resp r.2
  else
    some (w.send resp true [.cause 3 (some (str "Permission to context denied"))])

/-- `DPDISCOVER`, `EIDQUERY` and `PRECACHERQ` -/
def handleQuery (env : Env) (w : World) (cmd resp : Command) (ies : Ies) (encrypted : Bool) :
    Option World :=
  match w.findPeer ies.firstEid with
  | none => some (w.send resp true [.cause 3 none])
  | some a =>
    let peer := w.mem a
    let w := { w with trans := { w.trans with usEid := peer.usEid } }
    if peer.inkey.isEmpty || encrypted then w.authorize env cmd resp ies peer
    else
      some (w.send resp true [.cause 3 (some (str "Unencrypted responses not permitted"))])

/-! ## Registrations -/

/-- The wildcard peer is copied for the entity that registers. -/
def copyAnyPeer (env : Env) (w : World) (ies : Ies) : Option (World × Option ℕ) :=
  let peer := w.findPeer ies.firstEid
  match w.anyPeer, env.callocPeer with
  | some any, some a =>
    if peer = some any then
      match ies.firstEid with
      | none => none
      | some eid => some ({ w with
          peers := a :: w.peers
          mem := Function.update w.mem a { deepCopyPeer (w.mem any) with eid := eid } }, some a)
    else some (w, peer)
  | some any, none => some (w, if peer = some any then none else peer)
  | none, _ => some (w, peer)

/-- The peer at `a` is registered at the address of the transaction. -/
def World.register (env : Env) (w : World) (a : ℕ) : World :=
  let peer := w.mem a
  let w := w.act (.dbPut peer.eid w.trans.addr env.defaultExpiration)
  let registered := { peer with registerexpire := env.schedAdd, addr := w.trans.addr }
  let w := { w with mem := Function.update w.mem a registered }
  let w := w.send .regresponse true [.expiration env.defaultExpiration]
  if peer.addr ≠ w.trans.addr then w.act (.qualify a) else w

/-- `REGREQ` -/
def handleRegreq (env : Env) (w : World) (ies : Ies) (encrypted : Bool) : Option World :=
  (copyAnyPeer env w ies).map fun r =>
    match r.2 with
    | none => r.1.send .regresponse true [.cause 3 none]
    | some a =>
      if (r.1.mem a).dynamic then
        let w := { r.1 with trans := { r.1.trans with usEid := (r.1.mem a).usEid } }
        if (w.mem a).inkey.isEmpty || encrypted then w.register env a else w
      else r.1.send .regresponse true [.cause 3 none]

/-! ## Responses -/

/-- The transaction is ended where the other end has not. -/
def World.cancel (w : World) (final : Bool) (ied : List Element) : World :=
  if final then w else w.send .cancel true ied

/-- `authpass` of a response -/
def World.authpass (w : World) (encrypted : Bool) : Bool := !w.trans.encrypt || encrypted

/-- The parent of the transaction takes a hint of an answer to a discovery. -/
def Request.takeHint (req : Request) (hint : Hint) : Request :=
  let req := if hint.flags &&& ntohs hintTtlExpired ≠ 0 then
      { req with hmd := { req.hmd with flags := req.hmd.flags ||| hintTtlExpired } }
    else req
  if hint.flags &&& ntohs hintDontAsk ≠ 0 then
    if req.hmd.exten.length < hint.data.length then
      { req with hmd := { req.hmd with exten := trisCopyString hint.data 80 } }
    else req
  else { req with hmd := { req.hmd with flags := req.hmd.flags &&& ~~~hintDontAsk } }

/-- The answers go to the parent of the transaction, and to the cache. -/
def World.passAnswers (env : Env) (w : World) (ies : Ies) : World :=
  match w.trans.parent with
  | none => w
  | some req =>
    if req.dr.isNone then w
    else
      let start := req.respcount
      let req := ies.answers.foldl (Request.addAnswer env ies.expiration) req
      let unaffected := match ies.hint with
        | some hint => hint.flags &&& ntohs hintUnaffected ≠ 0
        | none => false
      let w := w.act (.cacheSave w.trans.themEid req start unaffected ies.expiration false)
      let w := match ies.hint with
        | some hint => w.act (.cacheSaveHint w.trans.themEid req hint ies.expiration)
        | none => w
      let req := match ies.hint with
        | some hint => req.takeHint hint
        | none => req
      let req := if 0 < ies.expiration ∧ ies.expiration < req.expiration then
          { req with expiration := ies.expiration }
        else req
      { w with trans := { w.trans with parent := some req } }

/-- `DPRESPONSE` -/
def handleDpresponse (env : Env) (w : World) (ies : Ies) (final encrypted : Bool) : World :=
  if ies.cause < 1 then
    if w.authpass encrypted then (w.passAnswers env ies).cancel final [] else w
  else w.cancel final []

/-- A field of the information on an entity: where it was not received, the old
one stays. -/
def copyField (new : Option CString) (old : CString) : CString :=
  match new with
  | some s => trisCopyString s 80
  | none => old

/-- The information on an entity goes to the parent of the transaction. -/
def World.passEntity (env : Env) (w : World) (ies : Ies) : World :=
  match w.trans.parent with
  | none => w
  | some req =>
    match req.dei, ies.qOrg with
    | some dei, some _ =>
      let req := if req.respcount = 0 then
          { req with
            respcount := 1
            dei := some {
              orgunit := copyField ies.qDept dei.orgunit
              org := copyField ies.qOrg dei.org
              locality := copyField ies.qLocality dei.locality
              stateprov := copyField ies.qStateprov dei.stateprov
              country := copyField ies.qCountry dei.country
              email := copyField ies.qEmail dei.email
              phone := copyField ies.qPhone dei.phone
              ipaddr := if w.trans.themEid = req.queryEid then
                  trisCopyString (env.inetNtoa w.trans.addr.1) 80
                else copyField ies.qIpaddr dei.ipaddr } }
        else req
      let req := match ies.hint with
        | some hint => if hint.flags &&& ntohs hintTtlExpired ≠ 0 then
            { req with hmd := { req.hmd with flags := req.hmd.flags ||| hintTtlExpired } }
          else req
        | none => req
      { w with trans := { w.trans with parent := some req } }
    | _, _ => w

/-- `EIDRESPONSE` -/
def handleEidresponse (env : Env) (w : World) (ies : Ies) (final encrypted : Bool) : World :=
  if ies.cause < 1 then
    if w.authpass encrypted then (w.passEntity env ies).cancel final [] else w
  else w.cancel final []

/-- `REGRESPONSE` -/
def handleRegresponse (w : World) (ies : Ies) (final encrypted : Bool) : World :=
  if ies.cause < 1 then
    if w.authpass encrypted then w.cancel final []
    else w.cancel final [.cause 3 (some (str "Improper signature in answer"))]
  else w.cancel final []

/-! ## Encryption -/

/-- The elements of the packet that opens the transaction anew with the full key. -/
def fullKey (trans : Transaction) (peer : Peer) (ies : Ies) : List Element :=
  [.eid trans.usEid, .sharedkey peer.txenckey.1, .signature peer.txenckey.2] ++
    (ies.encblock.map Element.encdata).toList

/-- `ENCREJ`; the result has what is left of `hdr->cmdresp`. -/
def handleEncrej (env : Env) (w : World) (cmdresp : BitVec 8) : World × BitVec 8 :=
  match w.trans.lasttrans, w.findPeer (some w.trans.themEid) with
  | some (last, ies), some a =>
    if w.trans.sendfullkey then (w.cancel (isFinal cmdresp) [], cmdresp)
    else
      let w := { w with trans := { w.trans with sendfullkey := true } }
      if isFinal cmdresp then
        let w := w.ack true
        match resetTransaction env { w.trans with aseqno := w.trans.iseqno } with
        | none => ({ w with trans := { w.trans with aseqno := w.trans.iseqno } }, cmdresp)
        | some t =>
          let w := { w with trans := t }
          let w := w.send .encrypt (isFinal last) (fullKey t (w.mem a) ies)
          ({ w with mem := Function.update w.mem a { w.mem a with sentfullkey := true } },
            cmdresp &&& 0x7f)
      else (w, cmdresp)
  | _, _ => (w.cancel (isFinal cmdresp) [], cmdresp)

section Crypto

variable {K : Type} (c : Crypto K)

/-- A first message has to bring a key that passes, and its peer is applied. The
result is `none` where it does not. -/
def openSession (env : Env) (w : World) (ies : Ies) : Option World :=
  if w.trans.iseqno = 1 ∧ w.trans.oseqno = 0 then
    match ies.firstEid, w.findPeer ies.firstEid with
    | some _, some a =>
      if (ies.encsharedkey.isNone ∨ ies.encsig.isNone) ∧ ies.keycrc32 = 0 then none
      else
        let (res, peer) := checkKey c (w.mem a) ies.encsharedkey ies.encsig ies.keycrc32
        if res < 1 then none
        else some { w with
          mem := Function.update w.mem a peer
          trans := { applyPeer env w.trans peer with key := peer.themKey } }
    | _, _ => none
  else some w

/-- `dundi_decrypt`, where the transaction is encrypted and there is a block. -/
def decoded (w : World) (ies : Ies) (oseqno : BitVec 8) : Option Message :=
  if w.trans.encrypt then
    (ies.encblock.bind (c.decrypt w.trans.key)).map fun r => ⟨r.1, oseqno, r.2⟩
  else none

/-- The encryption is turned off. -/
def World.rejectEncryption (w : World) (final : Bool) : World :=
  if final then w
  else ({ w with trans := { w.trans with encrypt := false } } : World).send .encrej true []

/-- `ENCRYPT`; `nested` handles the message that comes out. -/
def handleEncrypt (env : Env) (nested : World → Message → Option (World × BitVec 8)) (w : World)
    (hdr : Message) (ies : Ies) (encrypted : Bool) : Option (World × BitVec 8) :=
  if encrypted then some (w.rejectEncryption (isFinal hdr.cmdresp), hdr.cmdresp)
  else match openSession c env w ies with
    | none =>
      some (if isFinal hdr.cmdresp then w else w.send .encrej true [], hdr.cmdresp)
    | some w =>
      match decoded c w ies hdr.oseqno with
      | some dhdr => (nested w dhdr).map fun r => (r.1, hdr.cmdresp ||| (r.2 &&& 0x80))
      | none => some (w.rejectEncryption (isFinal hdr.cmdresp), hdr.cmdresp)

/-- The body of `handle_command_response`; `nested` is its call of itself. The
result has what is left of `hdr->cmdresp`. -/
def handleCommand (env : Env) (nested : World → Message → Option (World × BitVec 8)) (w : World)
    (hdr : Message) (encrypted : Bool) : Option (World × BitVec 8) :=
  let final := isFinal hdr.cmdresp
  match hdr.ies with
  | none => some (w, hdr.cmdresp)
  | some ies =>
    match command hdr.cmdresp with
    | .dpdiscover =>
      (handleQuery env w .dpdiscover .dpresponse ies encrypted).map (·, hdr.cmdresp)
    | .eidquery =>
      (handleQuery env w .eidquery .eidresponse ies encrypted).map (·, hdr.cmdresp)
    | .precacherq =>
      (handleQuery env w .precacherq .precacherp ies encrypted).map (·, hdr.cmdresp)
    | .regreq => (handleRegreq env w ies encrypted).map (·, hdr.cmdresp)
    | .dpresponse => some (handleDpresponse env w ies final encrypted, hdr.cmdresp)
    | .eidresponse => some (handleEidresponse env w ies final encrypted, hdr.cmdresp)
    | .regresponse => some (handleRegresponse w ies final encrypted, hdr.cmdresp)
    | .invalid | .null | .precacherp => some (w.cancel final [], hdr.cmdresp)
    | .encrej => some (handleEncrej env w hdr.cmdresp)
    | .encrypt => handleEncrypt c env nested w hdr ies encrypted
    | .unknown | .cancel | .other _ =>
      some (if final then w
        else w.send .unknown (hdr.oseqno = 0) [.unknown (hdr.cmdresp &&& 0x7f)], hdr.cmdresp)

/-- `handle_command_response`. A message that was encrypted opens no other. -/
def handleCommandResponse (env : Env) (w : World) (hdr : Message) (encrypted : Bool) :
    Option (World × BitVec 8) :=
  if encrypted then handleCommand c env (fun w hdr => some (w, hdr.cmdresp)) w hdr true
  else handleCommand c env
    (fun w hdr => handleCommand c env (fun w hdr => some (w, hdr.cmdresp)) w hdr true) w hdr false

end Crypto

end Dundi

end Trismedia
