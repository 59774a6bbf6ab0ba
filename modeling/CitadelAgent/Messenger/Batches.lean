import CitadelAgent.Lib.Result
import CitadelAgent.Requests.Serve

/-!
# Storage, one by one and in batches

`messenger/backend.rs`: `read_outcome`, `write_outcome`, `load_value`, `store_value`, `send_batched` and the two batched
calls. A channel is what it answers each request with; the ids the requests carry, drawn anew, are left out. `{:?}` of a
response is a parameter: it is read by people only.

* `Called` : what a call comes to, a panic included;
* `readAll_eq_ok` : replies read in order are read one by one, each against the key at its place;
* `LoadMeans`, `StoreMeans`, `RefusedInRange` : what the batched calls should mean, and when a store does.
-/

namespace CitadelAgent.Messenger

open Conversations (Cid)
open Requests (Bytes InternalServiceRequest KEY_NOT_FOUND)

variable {key : String} {reply : Requests.Response}

namespace Batches

inductive BackendError
  | storageError (message : String)
  | channel (text : String)

inductive Called (α : Type)
  | panicked
  | finished (result : Except BackendError α)

theorem finished_ne_panicked {α : Type} (result : Except BackendError α) : Called.finished result ≠ .panicked := nofun

/-- `CitadelWorkspaceBackend`, without the gates of its maps. -/
structure Backend where
  cid : Cid
  request : InternalServiceRequest → Except BackendError Requests.Response
  debug : Requests.Response → String

/-- `LocalDBSetKVSuccess(_)` -/
def isSetSuccess : Requests.Response → Bool
  | .localDBSetKVSuccess .. => true
  | _ => false

/-- Did that write actually happen? -/
def writeOutcome (debug : Requests.Response → String) (response : Requests.Response) (what : String) :
    Except BackendError Unit :=
  match response with
  | .localDBSetKVSuccess .. => .ok ()
  | other => .error (.storageError ("Writing " ++ what ++ " was refused or failed: " ++ debug other))

def readOutcome (debug : Requests.Response → String) (response : Requests.Response) (key : String) :
    Except BackendError (Option Bytes) :=
  match response with
  | .localDBGetKVSuccess _ _ _ value => .ok (some value)
  | .failure (.localDBGetKV ..) message =>
    if message = KEY_NOT_FOUND then .ok none
    else .error (.storageError ("Failed to read key=" ++ key ++ ": " ++ message))
  | other => .error (.storageError ("Unexpected response reading key=" ++ key ++ ": " ++ debug other))

namespace Backend

def uniqueKey (b : Backend) (key : String) : String := key ++ "-" ++ toString b.cid.toNat

def load (b : Backend) (key : String) : InternalServiceRequest := .one (.localDBGetKV b.cid none (b.uniqueKey key))

def store (b : Backend) (entry : String × Bytes) : InternalServiceRequest :=
  .one (.localDBSetKV b.cid none (b.uniqueKey entry.1) entry.2)

def loadValue (b : Backend) (key : String) : Except BackendError (Option Bytes) := do
  let response ← b.request (b.load key)
  readOutcome b.debug response key

def storeValue (b : Backend) (key : String) (value : Bytes) : Except BackendError Unit := do
  let response ← b.request (b.store (key, value))
  writeOutcome b.debug response ("the value for key=" ++ key)

def sendBatched (b : Backend) (requests : List InternalServiceRequest) : Except BackendError (List Requests.Response) :=
  if requests.isEmpty then .ok []
  else
    match b.request (.batched requests) with
    | .ok (.batchedResponse results) => .ok results
    | .ok _ => .error (.storageError "Unexpected response type for batched request")
    | .error err => .error err

/-- The loop of `load_values_batched` from some place on, where `keys[index]` panics past the last key. -/
def readAll (b : Backend) (keys : List String) : Nat → List Requests.Response → Called (List (Option Bytes))
  | _, [] => .finished (.ok [])
  | index, response :: responses =>
    match keys[index]? with
    | none => .panicked
    | some key =>
      match readOutcome b.debug response key with
      | .error err => .finished (.error err)
      | .ok value =>
        match b.readAll keys (index + 1) responses with
        | .finished (.ok values) => .finished (.ok (value :: values))
        | other => other

def loadValuesBatched (b : Backend) (keys : List String) : Called (List (Option Bytes)) :=
  if keys.isEmpty then .finished (.ok [])
  else
    match b.sendBatched (keys.map b.load) with
    | .error err => .finished (.error err)
    | .ok responses =>
      if responses.length ≠ keys.length then
        .finished (.error (.storageError ("Batched read expected " ++ toString keys.length ++ " results, got " ++
          toString responses.length ++ "; the remaining values would be attributed to the wrong keys")))
      else b.readAll keys 0 responses

/-- The loop of `store_values_batched` from some place on, where `entries[index]` panics past the last entry. -/
def acknowledged (b : Backend) (entries : List (String × Bytes)) : Nat → List Requests.Response → Called Unit
  | _, [] => .finished (.ok ())
  | index, response :: responses =>
    if isSetSuccess response then b.acknowledged entries (index + 1) responses
    else
      match entries[index]? with
      | none => .panicked
      | some entry =>
        .finished (.error (.storageError
          ("Batched store for key=" ++ entry.1 ++ " was not acknowledged: " ++ b.debug response)))

def storeValuesBatched (b : Backend) (entries : List (String × Bytes)) : Called Unit :=
  if entries.isEmpty then .finished (.ok ())
  else
    match b.sendBatched (entries.map b.store) with
    | .error err => .finished (.error err)
    | .ok responses =>
      match b.acknowledged entries 0 responses with
      | .finished (.ok ()) =>
        if responses.length ≠ entries.length then
          .finished (.error (.storageError ("Batched store expected " ++ toString entries.length ++
            " acknowledgements, got " ++ toString responses.length)))
        else .finished (.ok ())
      | other => other

end Backend

/-! ## What the batched calls should mean -/

inductive Readable : Requests.Response → Prop
  | value (cid : Cid) (peerCid : Option Cid) (key : String) (value : Bytes) :
      Readable (.localDBGetKVSuccess cid peerCid key value)
  | absent (cid : Cid) (peerCid : Option Cid) (key : String) :
      Readable (.failure (.localDBGetKV cid peerCid key) KEY_NOT_FOUND)

/-- What `load_value` gives for the key, whatever backend is answered so. -/
def LoadsAs (key : String) (reply : Requests.Response) (value : Option Bytes) : Prop :=
  ∀ b : Backend, b.request (b.load key) = .ok reply → b.loadValue key = .ok value

structure LoadMeans (b : Backend) (keys : List String) : Prop where
  no_panic : b.loadValuesBatched keys ≠ .panicked
  ok_iff : ∀ values, b.loadValuesBatched keys = .finished (.ok values) ↔
    ∃ replies, b.sendBatched (keys.map b.load) = .ok replies ∧ replies.length = keys.length ∧
      (∀ reply ∈ replies, Readable reply) ∧
      List.Forall₂ (fun (asked : String × Requests.Response) value => LoadsAs asked.1 asked.2 value) (keys.zip replies) values

structure StoreMeans (b : Backend) (entries : List (String × Bytes)) : Prop where
  no_panic : b.storeValuesBatched entries ≠ .panicked
  ok_iff : b.storeValuesBatched entries = .finished (.ok ()) ↔
    ∃ replies, b.sendBatched (entries.map b.store) = .ok replies ∧ replies.length = entries.length ∧
      ∀ reply ∈ replies, isSetSuccess reply = true

/-- The first reply that is no acknowledgement, if there is one, has an entry at its place. -/
def RefusedInRange (b : Backend) (entries : List (String × Bytes)) : Prop :=
  ∀ before refused after, b.sendBatched (entries.map b.store) = .ok (before ++ refused :: after) →
    (∀ reply ∈ before, isSetSuccess reply = true) → isSetSuccess refused = false → before.length < entries.length

/-! ## Reading -/

theorem readable_iff {debug : Requests.Response → String} :
    (∃ value, readOutcome debug reply key = .ok value) ↔ Readable reply := by
  constructor
  · rintro ⟨value, h⟩
    unfold readOutcome at h
    split at h
    case h_1 => exact Readable.value ..
    case h_2 =>
      split at h
      case isTrue hmissing => exact hmissing ▸ Readable.absent ..
      case isFalse => cases h
    case h_3 => cases h
  · intro h
    cases h with
    | value cid peerCid name value => exact ⟨some value, rfl⟩
    | absent cid peerCid name => exact ⟨none, rfl⟩

theorem readOutcome_congr {debug debug' : Requests.Response → String} {value : Option Bytes}
    (h : readOutcome debug reply key = .ok value) : readOutcome debug' reply key = .ok value := by
  cases readable_iff.mp ⟨value, h⟩ with
  | value => exact h
  | absent => exact h

theorem loadsAs_iff (debug : Requests.Response → String)
    {value : Option Bytes} : LoadsAs key reply value ↔ readOutcome debug reply key = .ok value := by
  constructor
  · intro h
    exact h ⟨0, fun _ => .ok reply, debug⟩ rfl
  · intro h b hreply
    rw [Backend.loadValue, hreply, Result.ok_bind]
    exact readOutcome_congr h

namespace Backend

def readAsked (b : Backend) (asked : String × Requests.Response) : Except BackendError (Option Bytes) :=
  readOutcome b.debug asked.2 asked.1

theorem readAll_eq (b : Backend) : ∀ (front rest : List String) (replies : List Requests.Response),
    rest.length = replies.length →
    b.readAll (front ++ rest) front.length replies = .finished ((rest.zip replies).mapM b.readAsked)
  | front, [], [], _ => rfl
  | front, key :: rest, reply :: replies, hlength => by
    have hlater := b.readAll_eq (front ++ [key]) rest replies (Nat.succ.inj hlength)
    rw [List.append_assoc, List.singleton_append, List.length_append, List.length_singleton] at hlater
    have hkey : (front ++ key :: rest)[front.length]? = some key := by simp
    rw [readAll, hkey, hlater, List.zip_cons_cons, List.mapM_cons, readAsked]
    dsimp only
    cases readOutcome b.debug reply key with
    | error err => rfl
    | ok value => cases (rest.zip replies).mapM b.readAsked <;> rfl

theorem loadValuesBatched_eq_ok {b : Backend} {keys : List String} {values : List (Option Bytes)} :
    b.loadValuesBatched keys = .finished (.ok values) ↔
      ∃ replies, b.sendBatched (keys.map b.load) = .ok replies ∧ replies.length = keys.length ∧
        (keys.zip replies).mapM b.readAsked = .ok values := by
  cases keys with
  | nil =>
    constructor
    · intro h
      exact ⟨[], rfl, rfl, (Called.finished.inj h).trans rfl⟩
    · rintro ⟨replies, hreplies, -, hvalues⟩
      rw [← Except.ok.inj hreplies] at hvalues
      exact congrArg Called.finished hvalues
  | cons key keys =>
    rw [loadValuesBatched, if_neg (by simp)]
    cases hsent : b.sendBatched ((key :: keys).map b.load) with
    | error err => simp
    | ok replies =>
      dsimp only
      by_cases hlength : replies.length = (key :: keys).length
      · have hread := b.readAll_eq [] (key :: keys) replies hlength.symm
        rw [List.nil_append, List.length_nil] at hread
        rw [if_neg (not_not.mpr hlength), hread]
        simp [hlength]
      · rw [if_pos hlength]
        constructor
        · intro h
          cases h
        · rintro ⟨replies', hreplies, hsame, -⟩
          exact absurd (Except.ok.inj hreplies ▸ hsame) hlength

theorem loadValuesBatched_ne_panicked (b : Backend) (keys : List String) : b.loadValuesBatched keys ≠ .panicked := by
  rw [loadValuesBatched]
  split
  case isTrue => exact finished_ne_panicked _
  case isFalse =>
    split
    case h_1 => exact finished_ne_panicked _
    case h_2 replies _ =>
      split
      case isTrue => exact finished_ne_panicked _
      case isFalse hlength =>
        have hread := b.readAll_eq [] keys replies (not_not.mp hlength).symm
        rw [List.nil_append, List.length_nil] at hread
        rw [hread]
        exact finished_ne_panicked _

end Backend

theorem loadMeans (b : Backend) (keys : List String) : LoadMeans b keys := by
  refine ⟨b.loadValuesBatched_ne_panicked keys, fun values => ?_⟩
  rw [Backend.loadValuesBatched_eq_ok]
  refine exists_congr fun replies => and_congr_right fun _ => and_congr_right fun hlength => ?_
  rw [Result.mapM_eq_ok]
  have hreads : ∀ asked value, LoadsAs asked.1 asked.2 value ↔ b.readAsked asked = .ok value :=
    fun asked value => loadsAs_iff b.debug
  simp only [hreads]
  refine ⟨fun h => ⟨fun reply hreply => ?_, h⟩, And.right⟩
  -- a reply that was read is readable
  obtain ⟨i, hi, rfl⟩ := List.getElem_of_mem hreply
  have hzip : i < (keys.zip replies).length := by
    rw [List.length_zip]
    omega
  have hasked := h.get hzip (h.length_eq ▸ hzip)
  exact readable_iff.mp ⟨_, by simpa [Backend.readAsked] using hasked⟩

/-! ## Writing -/

namespace Backend

theorem acknowledged_cases (b : Backend) (entries : List (String × Bytes)) : ∀ (index : Nat) (replies : List Requests.Response),
    ((∀ reply ∈ replies, isSetSuccess reply = true) ∧ b.acknowledged entries index replies = .finished (.ok ())) ∨
      ∃ before refused after, replies = before ++ refused :: after ∧ (∀ reply ∈ before, isSetSuccess reply = true) ∧
        isSetSuccess refused = false ∧
        ((index + before.length < entries.length ∧ ∃ err, b.acknowledged entries index replies = .finished (.error err)) ∨
          (entries.length ≤ index + before.length ∧ b.acknowledged entries index replies = .panicked))
  | _, [] => Or.inl ⟨fun _ h => absurd h List.not_mem_nil, rfl⟩
  | index, reply :: replies => by
    rw [acknowledged]
    cases hreply : isSetSuccess reply with
    | true =>
      rw [if_pos rfl]
      rcases b.acknowledged_cases entries (index + 1) replies with
        ⟨hall, hok⟩ | ⟨before, refused, after, rfl, hall, hrefused, hends⟩
      · exact Or.inl ⟨List.forall_mem_cons.mpr ⟨hreply, hall⟩, hok⟩
      · refine Or.inr ⟨reply :: before, refused, after, rfl, List.forall_mem_cons.mpr ⟨hreply, hall⟩, hrefused, ?_⟩
        rwa [List.length_cons, ← Nat.add_assoc, Nat.add_right_comm]
    | false =>
      refine Or.inr ⟨[], reply, replies, rfl, fun _ h => absurd h List.not_mem_nil, hreply, ?_⟩
      rw [if_neg Bool.false_ne_true, List.length_nil, Nat.add_zero]
      rcases Nat.lt_or_ge index entries.length with hlt | hge
      · rw [List.getElem?_eq_getElem hlt]
        exact Or.inl ⟨hlt, _, rfl⟩
      · rw [List.getElem?_eq_none_iff.mpr hge]
        exact Or.inr ⟨hge, rfl⟩

theorem storeValuesBatched_eq {b : Backend} {entries : List (String × Bytes)} {replies : List Requests.Response}
    (hentries : entries ≠ []) (hsent : b.sendBatched (entries.map b.store) = .ok replies) :
    b.storeValuesBatched entries = match b.acknowledged entries 0 replies with
      | .finished (.ok ()) =>
        if replies.length ≠ entries.length then
          .finished (.error (.storageError ("Batched store expected " ++ toString entries.length ++
            " acknowledgements, got " ++ toString replies.length)))
        else .finished (.ok ())
      | other => other := by
  rw [storeValuesBatched, if_neg (by simpa using hentries), hsent]

end Backend

theorem isSetSuccess_of_append {before after : List Requests.Response} {refused : Requests.Response}
    (h : ∀ reply ∈ before ++ refused :: after, isSetSuccess reply = true) : isSetSuccess refused = true :=
  h refused (List.mem_append_right before List.mem_cons_self)

theorem before_unique {before before' after after' : List Requests.Response} {refused refused' : Requests.Response}
    (h : before ++ refused :: after = before' ++ refused' :: after')
    (hbefore : ∀ reply ∈ before, isSetSuccess reply = true) (hrefused : isSetSuccess refused = false)
    (hbefore' : ∀ reply ∈ before', isSetSuccess reply = true) (hrefused' : isSetSuccess refused' = false) :
    before.length = before'.length := by
  have hle : ∀ {a b c d : List Requests.Response} {x y : Requests.Response}, a ++ x :: c = b ++ y :: d →
      (∀ reply ∈ b, isSetSuccess reply = true) → isSetSuccess x = false → ¬ a.length < b.length := by
    intro a b c d x y heq hb hx hlt
    have hget : b[a.length]? = some x := by
      rw [← List.getElem?_append_left hlt, ← heq, List.getElem?_append_right (Nat.le_refl _), Nat.sub_self]
      rfl
    rw [hb x (List.mem_of_getElem? hget)] at hx
    cases hx
  have := hle h hbefore' hrefused
  have := hle h.symm hbefore hrefused'
  omega

/-- A batched read always means its reads one by one; a batched write does unless the replies go on past entries that
are all acknowledged, which then panics. -/
theorem batches_mean_singles (b : Backend) (keys : List String) (entries : List (String × Bytes)) :
    (LoadMeans b keys ∧ StoreMeans b entries) ↔ RefusedInRange b entries := by
  refine ⟨fun h => ?_, fun h => ⟨loadMeans b keys, ?_⟩⟩
  · intro before refused after hsent hbefore hrefused
    have hentries : entries ≠ [] := by
      rintro rfl
      cases before <;> cases hsent
    by_contra hlong
    refine h.2.no_panic ?_
    rw [Backend.storeValuesBatched_eq hentries hsent]
    rcases b.acknowledged_cases entries 0 (before ++ refused :: after) with
      ⟨hall, -⟩ | ⟨before', refused', after', heq, hbefore', hrefused', hends⟩
    · rw [isSetSuccess_of_append hall] at hrefused
      cases hrefused
    · have hlength := before_unique heq hbefore hrefused hbefore' hrefused'
      rcases hends with ⟨hlt, -⟩ | ⟨-, hpanic⟩
      · omega
      · rw [hpanic]
  · by_cases hentries : entries = []
    · subst hentries
      exact ⟨finished_ne_panicked _, fun _ => ⟨[], rfl, rfl, fun _ h => absurd h List.not_mem_nil⟩, fun _ => rfl⟩
    · cases hsent : b.sendBatched (entries.map b.store) with
      | error err =>
        have hstore : b.storeValuesBatched entries = .finished (.error err) := by
          rw [Backend.storeValuesBatched, if_neg (by simpa using hentries), hsent]
        refine ⟨by rw [hstore]; exact finished_ne_panicked _, ?_⟩
        rw [hstore, hsent]
        simp
      | ok replies =>
        have hstore := Backend.storeValuesBatched_eq hentries hsent
        rcases b.acknowledged_cases entries 0 replies with
          ⟨hall, hok⟩ | ⟨before, refused, after, rfl, hbefore, hrefused, hends⟩
        · rw [hok] at hstore
          by_cases hlength : replies.length = entries.length
          · simp only [ne_eq, hlength, not_true, if_false] at hstore
            exact ⟨by rw [hstore]; exact finished_ne_panicked _, fun _ => ⟨replies, hsent, hlength, hall⟩, fun _ => hstore⟩
          · simp only [ne_eq, hlength, not_false_iff, if_true] at hstore
            refine ⟨by rw [hstore]; exact finished_ne_panicked _, ?_⟩
            rw [hstore, hsent]
            simp [hlength]
        · have hlt := h before refused after hsent hbefore hrefused
          rcases hends with ⟨-, err, herr⟩ | ⟨hge, -⟩
          · rw [herr] at hstore
            refine ⟨by rw [hstore]; exact finished_ne_panicked _, ?_⟩
            rw [hstore, hsent]
            constructor
            · intro h
              cases h
            · rintro ⟨replies, hreplies, -, hall⟩
              rw [← Except.ok.inj hreplies] at hall
              rw [isSetSuccess_of_append hall] at hrefused
              cases hrefused
          · omega

def talkative : Backend where
  cid := 7
  request _ := .ok (.batchedResponse [.localDBSetKVSuccess 7 none "a-7", .answered "and more"])
  debug _ := ""

theorem talkative_panics : talkative.storeValuesBatched [("a", [1])] = .panicked := rfl

end Batches

end CitadelAgent.Messenger
