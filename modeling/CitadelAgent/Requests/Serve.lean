import CitadelAgent.Lib.ProgRuns
import CitadelAgent.Requests.Request

/-!
# Serving a request

`handle_request` of `requests/mod.rs` with the handlers of `local_db` and `apps_settings.rs`, as the calls each makes: one
for every lock it takes and every answer of the store it waits for. The other handlers are one call each, which may do
anything.

* `checks`, `dispatch`, `handleRequest` : the checks of one request, in the source's order, and its handler;
* `Serves` : a request tree served, every request of it among whatever else happens; `serves_leaves`.
-/

namespace CitadelAgent.Requests
open Conversations (Cid)
open Prog (Event Runs Only)

/-! ## The agent -/

structure Session where
  subscribers : List Uuid
  recovery : Bool

/-- The account and the peer, 0 when none is named. -/
abbrev Bucket := Cid × Cid

structure World where
  sessions : Cid → Option Session
  hosted : Cid → Bool
  store : Bucket → Kv
  privateNetwork : Cid → Option (Option Bool)

def World.write (w : World) (bucket : Bucket) (kv : Kv) : World :=
  { w with store := Function.update w.store bucket kv }

inductive Op
  | attached (cid : Cid) (uuid : Uuid)
  | isRecoverySession (cid : Cid)
  | isHosted (cid : Cid)
  | proposeTarget (bucket : Bucket)
  | get (bucket : Bucket) (key : String)
  | set (bucket : Bucket) (key : String) (value : Bytes)
  | remove (bucket : Bucket) (key : String)
  | getAll (bucket : Bucket)
  | knownGrant (cid : Cid)
  | keepGrant (cid : Cid) (grant : Option Bool)
  | handle (command : Request) (uuid : Uuid)

def Op.Answer : Op → Type
  | .attached _ _ => Option Bool
  | .isRecoverySession _ | .isHosted _ => Bool
  | .proposeTarget _ | .set _ _ _ | .remove _ _ => Except String Unit
  | .get _ _ => Except String (Option Bytes)
  | .getAll _ => Except String Kv
  | .knownGrant _ => Option (Option Bool)
  | .keepGrant _ _ => Unit
  | .handle _ _ => Option Response

abbrev M (α : Type) := Prog Op Op.Answer α

abbrev Call := Event Op Op.Answer World

/-- Any call of the store may fail, and a write that fails may have been carried out. -/
def Does : (o : Op) → World → o.Answer → World → Prop
  | .attached cid uuid, w, answer, t =>
      answer = (w.sessions cid).map (fun session => session.subscribers.contains uuid) ∧ t = w
  | .isRecoverySession cid, w, answer, t => answer = (w.sessions cid).any (·.recovery) ∧ t = w
  | .isHosted cid, w, answer, t => answer = w.hosted cid ∧ t = w
  | .proposeTarget _, w, _, t => t = w
  | .get bucket key, w, answer, t => t = w ∧ ∀ found, answer = .ok found → found = (w.store bucket).lookup key
  | .set bucket key value, w, answer, t =>
      t = w.write bucket ((w.store bucket).insert key value) ∨ t = w ∧ answer ≠ .ok ()
  | .remove bucket key, w, answer, t => t = w.write bucket ((w.store bucket).erase key) ∨ t = w ∧ answer ≠ .ok ()
  -- in any order
  | .getAll bucket, w, answer, t => t = w ∧ ∀ map, answer = .ok map → ∀ key, map.lookup key = (w.store bucket).lookup key
  | .knownGrant cid, w, answer, t => answer = w.privateNetwork cid ∧ t = w
  | .keepGrant cid grant, w, _, t => t = { w with privateNetwork := Function.update w.privateNetwork cid (some grant) }
  | .handle _ _, _, _, _ => True

/-! ## The key-value store -/

def bucketOf (cid : Cid) (peerCid : Option Cid) : Bucket := (cid, peerCid.getD 0)

/-- The handlers of `local_db`: an account that is not known is the request's failure. -/
def onTarget (command : Request) (cid : Cid) (peerCid : Option Cid) (answer : Bucket → M Response) : M Response := do
  match ← Prog.op (Op.proposeTarget (bucketOf cid peerCid)) with
  | .error err => pure (.failure command err)
  | .ok () => answer (bucketOf cid peerCid)

def KEY_NOT_FOUND : String := "Key not found"

def getKV (cid : Cid) (peerCid : Option Cid) (key : String) : M Response :=
  onTarget (.localDBGetKV cid peerCid key) cid peerCid fun bucket => do
    match ← Prog.op (Op.get bucket key) with
    | .ok (some value) => pure (.localDBGetKVSuccess cid peerCid key value)
    | .ok none => pure (.failure (.localDBGetKV cid peerCid key) KEY_NOT_FOUND)
    | .error err => pure (.failure (.localDBGetKV cid peerCid key) err)

def setKV (cid : Cid) (peerCid : Option Cid) (key : String) (value : Bytes) : M Response :=
  onTarget (.localDBSetKV cid peerCid key value) cid peerCid fun bucket => do
    match ← Prog.op (Op.set bucket key value) with
    | .ok () => pure (.localDBSetKVSuccess cid peerCid key)
    | .error err => pure (.failure (.localDBSetKV cid peerCid key value) err)

def deleteKV (cid : Cid) (peerCid : Option Cid) (key : String) : M Response :=
  onTarget (.localDBDeleteKV cid peerCid key) cid peerCid fun bucket => do
    match ← Prog.op (Op.remove bucket key) with
    | .ok () => pure (.localDBDeleteKVSuccess cid peerCid key)
    | .error err => pure (.failure (.localDBDeleteKV cid peerCid key) err)

def getAllKV (cid : Cid) (peerCid : Option Cid) : M Response :=
  onTarget (.localDBGetAllKV cid peerCid) cid peerCid fun bucket => do
    match ← Prog.op (Op.getAll bucket) with
    | .ok map => pure (.localDBGetAllKVSuccess cid peerCid map)
    | .error err => pure (.failure (.localDBGetAllKV cid peerCid) err)

def removeEach (bucket : Bucket) : List String → M (Except String Unit)
  | [] => pure (.ok ())
  | key :: keys => do
    match ← Prog.op (Op.remove bucket key) with
    | .ok () => removeEach bucket keys
    | .error err => pure (.error err)

def clearForWindow (bucket : Bucket) : M (Except String Unit) := do
  match ← Prog.op (Op.getAll bucket) with
  | .ok stored => removeEach bucket (keysAWindowClears stored)
  | .error err => pure (.error err)

def clearAllKV (cid : Cid) (peerCid : Option Cid) : M Response :=
  onTarget (.localDBClearAllKV cid peerCid) cid peerCid fun bucket => do
    match ← clearForWindow bucket with
    | .ok () => pure (.localDBClearAllKVSuccess cid peerCid)
    | .error err => pure (.failure (.localDBClearAllKV cid peerCid) err)

/-! ## The member's grants -/

def PRIVATE_NETWORK_KEY : String := "agent:apps_private_network"

def decodeGrant : Option Bytes → Except String (Option Bool)
  | none => .ok none
  | some [1] => .ok (some true)
  | some [0] => .ok (some false)
  | some other => .error s!"{PRIVATE_NETWORK_KEY} holds {other}"

def privateNetwork (cid : Cid) : M (Except String (Option Bool)) := do
  match ← Prog.op (Op.knownGrant cid) with
  | some known => pure (.ok known)
  | none =>
    match ← getKV cid none PRIVATE_NETWORK_KEY with
    | .localDBGetKVSuccess _ _ _ value => keepRead (decodeGrant (some value))
    | .failure _ message => if message = KEY_NOT_FOUND then keepRead (decodeGrant none) else pure (.error message)
    | _ => pure (.error "unexpected answer")
where
  keepRead : Except String (Option Bool) → M (Except String (Option Bool))
    | .ok grant => do
      Prog.op (Op.keepGrant cid grant)
      pure (.ok grant)
    | .error err => pure (.error err)

def setPrivateNetwork (cid : Cid) (granted : Bool) : M (Except String Unit) := do
  match ← setKV cid none PRIVATE_NETWORK_KEY [if granted then 1 else 0] with
  | .localDBSetKVSuccess _ _ _ =>
    Prog.op (Op.keepGrant cid (some granted))
    pure (.ok ())
  | _ => pure (.error s!"writing {PRIVATE_NETWORK_KEY} failed")

def respondGrants (command : Request) (cid : Cid) : M Response := do
  match ← privateNetwork cid with
  | .ok granted => pure (.appsAgentSettings cid (granted = some true))
  | .error why => pure (.failure command s!"The setting could not be read: {why}")

def appsSettings (uuid : Uuid) (command : Request) (cid : Cid) (set : Option Bool) : M Response := do
  match ← Prog.op (Op.attached cid uuid) with
  | some true =>
    match set with
    | none => respondGrants command cid
    | some granted =>
      match ← setPrivateNetwork cid granted with
      | .ok () => respondGrants command cid
      | .error why => pure (.failure command s!"The setting was not saved: {why}")
  | _ => pure (.failure command "The session is not this connection's")

/-! ## One request -/

def dispatch (uuid : Uuid) : Request → M (Option Response)
  | .localDBGetKV cid peerCid key => do pure (some (← getKV cid peerCid key))
  | .localDBSetKV cid peerCid key value => do pure (some (← setKV cid peerCid key value))
  | .localDBDeleteKV cid peerCid key => do pure (some (← deleteKV cid peerCid key))
  | .localDBGetAllKV cid peerCid => do pure (some (hideReservedKeys (← getAllKV cid peerCid)))
  | .localDBClearAllKV cid peerCid => do pure (some (← clearAllKV cid peerCid))
  | .appsGetAgentSettings cid => do pure (some (← appsSettings uuid (.appsGetAgentSettings cid) cid none))
  | .appsSetAgentSettings cid granted => do
    pure (some (← appsSettings uuid (.appsSetAgentSettings cid granted) cid (some granted)))
  | command => Prog.op (Op.handle command uuid)

def ownershipGate (uuid : Uuid) (command : Request) : M GateDecision :=
  match command.sessionCid with
  | some cid => do
    let attached ← Prog.op (Op.attached cid uuid)
    pure (gateDecision command attached)
  | none => pure .proceed

def refusesRecovery (sdk : Sdk) (command : Request) : M Bool :=
  match command.sessionCid with
  | some cid => do
    let recovery ← Prog.op (Op.isRecoverySession cid)
    pure (recovery && !allows sdk command)
  | none => pure false

def ownerIsHosted (key : String) : M Bool :=
  match conversationOwner key with
  | some owner => Prog.op (Op.isHosted owner)
  | none => pure false

def writesHostedConversation : Request → M Bool
  | .localDBSetKV cid _ key _ | .localDBDeleteKV cid _ key => if cid = 0 then ownerIsHosted key else pure false
  | _ => pure false

inductive Checked
  | refused (answer : Option Response)
  | passed

def checkHosted (command : Request) : M Checked := do
  match ← writesHostedConversation command with
  | true => pure (.refused (refusalResponse command REFUSED))
  | false => pure .passed

def checkRecovery (sdk : Sdk) (command : Request) : M Checked := do
  match ← refusesRecovery sdk command with
  | true => pure (.refused (refusalResponse command RECOVERY_ONLY))
  | false =>
    if smugglesInternalHttp command then
      pure (.refused (refusalResponse command "internal HTTP is sent with IhttpSend"))
    else match namesReservedKey command with
      | some refused => pure (.refused (refusalResponse command refused))
      | none => checkHosted command

def checks (sdk : Sdk) (uuid : Uuid) (command : Request) : M Checked := do
  match ← ownershipGate uuid command with
  | .refuse _ => pure (.refused (refusalResponse command REFUSED))
  | .proceed => checkRecovery sdk command

def handleRequest (sdk : Sdk) (uuid : Uuid) (command : Request) : M (Option Response) := do
  match ← checks sdk uuid command with
  | .refused answer => pure answer
  | .passed => dispatch uuid command

/-! ## A request tree -/

/-- A call, with whatever else happened since the request's last one. -/
def Among (beside : World → World → Prop) (o : Op) (w : World) (answer : o.Answer) (t : World) : Prop :=
  ∃ m, beside w m ∧ Does o m answer t

/-- One request of a tree: the calls of its checks, those of its handler when it reached it, and its answer. -/
structure Leaf where
  command : Request
  checking : List Call
  handling : Option (List Call)
  answer : Option Response

/-- One request served for a connection, with anything between its calls. -/
inductive ServesOne (sdk : Sdk) (beside : World → World → Prop) (uuid : Uuid) : Leaf → Prop
  | refused {command : Request} {w t : World} {checking : List Call} {answer : Option Response}
      (checked : Runs (Among beside) (checks sdk uuid command) w checking (.refused answer) t) :
      ServesOne sdk beside uuid ⟨command, checking, none, answer⟩
  | handled {command : Request} {w m t : World} {checking handling : List Call} {answer : Option Response}
      (checked : Runs (Among beside) (checks sdk uuid command) w checking .passed m)
      (ran : Runs (Among beside) (dispatch uuid command) m handling answer t) :
      ServesOne sdk beside uuid ⟨command, checking, some handling, answer⟩

/-- A tree served: a batch names no session and no key, so each of its requests is checked by itself, in parallel with
the others. -/
inductive Serves (sdk : Sdk) (beside : World → World → Prop) (uuid : Uuid) :
    InternalServiceRequest → List Leaf → Option Response → Prop
  | one {leaf : Leaf} (served : ServesOne sdk beside uuid leaf) : Serves sdk beside uuid (.one leaf.command) [leaf] leaf.answer
  | nil : Serves sdk beside uuid (.batched []) [] (some (.batchedResponse []))
  | cons {first : InternalServiceRequest} {rest : List InternalServiceRequest} {leaves others : List Leaf}
      {answer : Option Response} {results : List Response} (served : Serves sdk beside uuid first leaves answer)
      (batch : Serves sdk beside uuid (.batched rest) others (some (.batchedResponse results))) :
      Serves sdk beside uuid (.batched (first :: rest)) (leaves ++ others)
        (some (.batchedResponse (answer.toList ++ results)))

variable {sdk : Sdk} {beside : World → World → Prop} {uuid : Uuid} {command : Request} {w t : World} {events : List Call}

theorem handleRequest_serves {answer : Option Response}
    (run : Runs (Among beside) (handleRequest sdk uuid command) w events answer t) :
    ∃ leaf, ServesOne sdk beside uuid leaf ∧ leaf.command = command ∧ leaf.answer = answer ∧
      events = leaf.checking ++ leaf.handling.getD [] := by
  obtain ⟨checking, handling, checked, m, rfl, hchecked, hrest⟩ := Prog.runs_bind.mp run
  cases checked with
  | refused refusal =>
    obtain ⟨rfl, rfl, rfl⟩ := Prog.runs_ret.mp hrest
    exact ⟨_, .refused hchecked, rfl, rfl, rfl⟩
  | passed => exact ⟨_, .handled hchecked hrest, rfl, rfl, rfl⟩

theorem serves_leaves {tree : InternalServiceRequest} {leaves : List Leaf} {answer : Option Response}
    (served : Serves sdk beside uuid tree leaves answer) : ∀ leaf ∈ leaves, ServesOne sdk beside uuid leaf := by
  induction served with
  | one h =>
    intro leaf hleaf
    rw [List.mem_singleton.mp hleaf]
    exact h
  | nil => exact fun leaf hleaf => absurd hleaf List.not_mem_nil
  | cons _ _ ihFirst ihRest =>
    intro leaf hleaf
    rcases List.mem_append.mp hleaf with h | h
    · exact ihFirst leaf h
    · exact ihRest leaf h

end CitadelAgent.Requests
