import CitadelAgent.Requests.Serve

/-!
# What reaches a handler

* `Op.Spares`, `Op.Keeps` : a call that keeps off some records, `does_keeps` what it leaves;
* `gate_holds` : the ownership gate over whole request trees.
-/

namespace CitadelAgent.Requests
open Conversations (Cid)
open Prog (Event Runs Only Returns)

variable {sdk : Sdk} {beside : World → World → Prop} {uuid : Uuid} {command : Request} {w t : World} {events : List Call}

/-! ## The checks -/

/-- The gate let the connection through: in the state in which it asked, the connection was attached to the session, or
nobody was and the request does not need an owner. -/
def PassedGate (uuid : Uuid) (command : Request) (cid : Cid) (checking : List Call) : Prop :=
  ∃ c ∈ checking, c.op = .attached cid uuid ∧
    ((∃ session, c.after.sessions cid = some session ∧ uuid ∈ session.subscribers) ∨
      c.after.sessions cid = none ∧ requiresOwnedSession command = false)

/-- In the state in which it asked, the session was no recovery session, or the request is one it may make. -/
def PassedRecovery (sdk : Sdk) (command : Request) (cid : Cid) (checking : List Call) : Prop :=
  ∃ c ∈ checking, c.op = .isRecoverySession cid ∧
    ((∃ session, c.after.sessions cid = some session ∧ session.recovery = true) → allows sdk command = true)

def PassedHosted (key : String) (checking : List Call) : Prop :=
  ∀ owner, conversationOwner key = some owner → ∃ c ∈ checking, c.op = .isHosted owner ∧ c.after.hosted owner = false

theorem ownershipGate_passed (run : Runs (Among beside) (ownershipGate uuid command) w events .proceed t) :
    ∀ cid, command.sessionCid = some cid → cid ≠ 0 → PassedGate uuid command cid events := by
  intro cid hcid hne
  unfold ownershipGate at run
  rw [hcid] at run
  obtain ⟨answer, m, rest, rfl, ⟨m', -, hanswer, rfl⟩, hrest⟩ := Prog.runs_op_bind.mp run
  obtain ⟨rfl, hproceed, rfl⟩ := Prog.runs_ret.mp hrest
  refine ⟨_, List.mem_singleton_self _, rfl, ?_⟩
  rcases gateDecision_proceed hproceed.symm hcid hne with rfl | ⟨rfl, howned⟩
  · obtain ⟨session, hsession, hin⟩ := Option.map_eq_some_iff.mp (show (World.sessions _ cid).map _ = some true from hanswer.symm)
    exact .inl ⟨session, hsession, List.contains_iff_mem.mp hin⟩
  · exact .inr ⟨Option.map_eq_none_iff.mp (show (World.sessions _ cid).map _ = none from hanswer.symm), howned⟩

theorem refusesRecovery_passed (run : Runs (Among beside) (refusesRecovery sdk command) w events false t) :
    ∀ cid, command.sessionCid = some cid → PassedRecovery sdk command cid events := by
  intro cid hcid
  unfold refusesRecovery at run
  rw [hcid] at run
  obtain ⟨answer, m, rest, rfl, ⟨m', -, hanswer, rfl⟩, hrest⟩ := Prog.runs_op_bind.mp run
  obtain ⟨rfl, hallowed, rfl⟩ := Prog.runs_ret.mp hrest
  refine ⟨_, List.mem_singleton_self _, rfl, ?_⟩
  rintro ⟨session, hsession, hrecovery⟩
  have : answer = true := by
    rw [show answer = (World.sessions _ cid).any (·.recovery) from hanswer, hsession]
    exact hrecovery
  rw [this] at hallowed
  simpa using hallowed.symm

variable {key : String} {bucket : Bucket}

theorem ownerIsHosted_passed (run : Runs (Among beside) (ownerIsHosted key) w events false t) :
    PassedHosted key events := by
  intro owner howner
  unfold ownerIsHosted at run
  rw [howner] at run
  obtain ⟨rfl, m, -, hanswer, rfl⟩ := Prog.runs_op.mp run
  exact ⟨_, List.mem_singleton_self _, rfl, hanswer.symm⟩

def Request.writesGlobal : Request → Option String
  | .localDBSetKV cid _ key _ | .localDBDeleteKV cid _ key => if cid = 0 then some key else none
  | _ => none

theorem writesHosted_passed (run : Runs (Among beside) (writesHostedConversation command) w events false t) :
    ∀ key, command.writesGlobal = some key → PassedHosted key events := by
  intro key hkey
  cases command <;> simp only [Request.writesGlobal, reduceCtorEq] at hkey
  all_goals
    split at hkey
    · rename_i hzero
      obtain rfl := Option.some.inj hkey
      simp only [writesHostedConversation, if_pos hzero] at run
      exact ownerIsHosted_passed run
    · simp at hkey

structure Passed (sdk : Sdk) (uuid : Uuid) (command : Request) (checking : List Call) : Prop where
  gate : ∀ cid, command.sessionCid = some cid → cid ≠ 0 → PassedGate uuid command cid checking
  recovery : ∀ cid, command.sessionCid = some cid → PassedRecovery sdk command cid checking
  smuggles : smugglesInternalHttp command = false
  reserved : namesReservedKey command = none
  hosted : ∀ key, command.writesGlobal = some key → PassedHosted key checking

theorem checks_passed (run : Runs (Among beside) (checks sdk uuid command) w events .passed t) :
    Passed sdk uuid command events := by
  obtain ⟨first, rest, decision, m, rfl, hgate, run⟩ := Prog.runs_bind.mp run
  cases decision with
  | refuse reason => exact nomatch (Prog.runs_ret.mp run).2.1
  | proceed =>
    obtain ⟨second, rest, recovery, m₁, rfl, hrecovery, run⟩ := Prog.runs_bind.mp run
    cases recovery with
    | true => exact nomatch (Prog.runs_ret.mp run).2.1
    | false =>
      dsimp only at run
      split at run
      · exact nomatch (Prog.runs_ret.mp run).2.1
      · rename_i hsmuggles
        split at run
        · exact nomatch (Prog.runs_ret.mp run).2.1
        · rename_i hreserved
          obtain ⟨third, rest, hosted, m₂, rfl, hhosted, run⟩ := Prog.runs_bind.mp run
          cases hosted with
          | true => exact nomatch (Prog.runs_ret.mp run).2.1
          | false =>
            refine ⟨fun cid hcid hne => ?_, fun cid hcid => ?_, by simpa using hsmuggles, hreserved, fun key hkey owner ho => ?_⟩
            · obtain ⟨c, hc, h⟩ := ownershipGate_passed hgate cid hcid hne
              exact ⟨c, List.mem_append_left _ hc, h⟩
            · obtain ⟨c, hc, h⟩ := refusesRecovery_passed hrecovery cid hcid
              exact ⟨c, List.mem_append_right _ (List.mem_append_left _ hc), h⟩
            · obtain ⟨c, hc, h⟩ := writesHosted_passed hhosted key hkey owner ho
              exact ⟨c, List.mem_append_right _ (List.mem_append_right _ (List.mem_append_left _ hc)), h⟩

/-! ## The records a request reaches -/

/-- Reads, writes and removes no record of `S`. What was listed is not shown; a handler that is not modelled may do
anything. -/
def Op.Spares (S : Bucket → String → Prop) : Op → Prop
  | .get bucket key | .set bucket key _ | .remove bucket key => ¬ S bucket key
  | .handle _ _ => False
  | _ => True

/-- Writes and removes no record of `S`. -/
def Op.Keeps (S : Bucket → String → Prop) : Op → Prop
  | .set bucket key _ | .remove bucket key => ¬ S bucket key
  | .handle _ _ => False
  | _ => True

theorem Op.Spares.keeps {S : Bucket → String → Prop} {o : Op} (h : o.Spares S) : o.Keeps S := by
  cases o with
  | get bucket key => exact trivial
  | _ => exact h

theorem World.write_lookup (w : World) {bucket' : Bucket} {kv : Kv}
    (h : bucket' = bucket → kv.lookup key = (w.store bucket).lookup key) :
    ((w.write bucket kv).store bucket').lookup key = (w.store bucket').lookup key := by
  show (Function.update w.store bucket kv bucket').lookup key = _
  by_cases hbucket : bucket' = bucket
  · subst hbucket
    rw [Function.update_self, h rfl]
  · rw [Function.update_of_ne hbucket]

theorem does_keeps {S : Bucket → String → Prop} {o : Op} {answer : o.Answer} (h : Does o w answer t) (ho : o.Keeps S)
    (hS : S bucket key) : (t.store bucket).lookup key = (w.store bucket).lookup key := by
  cases o with
  | attached cid uuid => rw [h.2]
  | isRecoverySession cid => rw [h.2]
  | isHosted cid => rw [h.2]
  | proposeTarget target => rw [show t = w from h]
  | get b k => rw [h.1]
  | set b k value =>
    rcases h with rfl | ⟨rfl, -⟩
    · refine w.write_lookup fun hb => AList.lookup_insert_ne fun hk => ?_
      subst hb hk
      exact ho hS
    · rfl
  | remove b k =>
    rcases h with rfl | ⟨rfl, -⟩
    · refine w.write_lookup fun hb => AList.lookup_erase_ne fun hk => ?_
      subst hb hk
      exact ho hS
    · rfl
  | getAll b => rw [h.1]
  | knownGrant cid => rw [h.2]
  | keepGrant cid grant => rw [show t = _ from h]
  | handle command uuid => exact ho.elim

def Reserved (_ : Bucket) (key : String) : Prop := reservedKey key ≠ none

def Response.shows : Response → String → Prop
  | .localDBGetKVSuccess _ _ key _, shown => key = shown
  | .localDBGetAllKVSuccess _ _ map, shown => shown ∈ map
  | _, _ => False

theorem onTarget_only {R : Op → Prop} {cid : Cid} {peerCid : Option Cid} {answer : Bucket → M Response}
    (htarget : R (.proposeTarget (bucketOf cid peerCid))) (hanswer : Only R (answer (bucketOf cid peerCid))) :
    Only R (onTarget command cid peerCid answer) := by
  refine Only.bind (Only.op htarget) fun r => ?_
  match r with
  | .error err => exact trivial
  | .ok () => exact hanswer

theorem removeEach_only {R : Op → Prop} {keys : List String} (h : ∀ key ∈ keys, R (.remove bucket key)) :
    Only R (removeEach bucket keys) := by
  induction keys with
  | nil => exact trivial
  | cons key keys ih =>
    refine Only.bind (Only.op (h key List.mem_cons_self)) fun r => ?_
    match r with
    | .error err => exact trivial
    | .ok () => exact ih fun key' hkey' => h key' (List.mem_cons_of_mem _ hkey')

theorem not_reserved_of_mem_keysAWindowClears {stored : Kv} (h : key ∈ keysAWindowClears stored) :
    reservedKey key = none := by
  simpa using (List.mem_filter.mp h).2

theorem dispatch_spares (hlocal : command.isLocalDB = true) (hreserved : namesReservedKey command = none) :
    Only (Op.Spares Reserved) (dispatch uuid command) := by
  cases command with
  | localDBGetKV cid peerCid key =>
    refine Only.bind (onTarget_only trivial (Only.bind (Only.op fun h => h hreserved) fun r => ?_)) fun _ => trivial
    match r with
    | .ok (some value) => exact trivial
    | .ok none => exact trivial
    | .error err => exact trivial
  | localDBSetKV cid peerCid key value =>
    refine Only.bind (onTarget_only trivial (Only.bind (Only.op fun h => h hreserved) fun r => ?_)) fun _ => trivial
    match r with
    | .ok () => exact trivial
    | .error err => exact trivial
  | localDBDeleteKV cid peerCid key =>
    refine Only.bind (onTarget_only trivial (Only.bind (Only.op fun h => h hreserved) fun r => ?_)) fun _ => trivial
    match r with
    | .ok () => exact trivial
    | .error err => exact trivial
  | localDBGetAllKV cid peerCid =>
    refine Only.bind (onTarget_only trivial (Only.bind (Only.op trivial) fun r => ?_)) fun _ => trivial
    match r with
    | .ok map => exact trivial
    | .error err => exact trivial
  | localDBClearAllKV cid peerCid =>
    refine Only.bind (onTarget_only trivial (Only.bind ?_ fun r => ?_)) fun _ => trivial
    · refine Only.bind (Only.op trivial) fun r => ?_
      match r with
      | .ok stored => exact removeEach_only fun key hmem h => h (not_reserved_of_mem_keysAWindowClears hmem)
      | .error err => exact trivial
    · match r with
      | .ok () => exact trivial
      | .error err => exact trivial
  | _ => exact nomatch hlocal

theorem onTarget_returns {P : Response → Prop} {cid : Cid} {peerCid : Option Cid} {answer : Bucket → M Response}
    (hfailure : ∀ command message, P (.failure command message)) (hanswer : ∀ bucket, Returns P (answer bucket)) :
    Returns P (onTarget command cid peerCid answer) := by
  intro r
  match r with
  | .error err => exact hfailure _ _
  | .ok () => exact hanswer _

theorem dispatch_shows (hlocal : command.isLocalDB = true) (hreserved : namesReservedKey command = none) :
    Returns (fun answer : Option Response => ∀ response ∈ answer, ∀ key, response.shows key → reservedKey key = none)
      (dispatch uuid command) := by
  have hsome : ∀ {x : M Response}, Returns (fun response => ∀ key, response.shows key → reservedKey key = none) x →
      Returns (fun answer : Option Response => ∀ response ∈ answer, ∀ key, response.shows key → reservedKey key = none)
        (x >>= fun response => pure (some response)) := by
    intro x hx
    refine Returns.bind hx fun response hresponse other hother => ?_
    obtain rfl := Option.some.inj hother
    exact hresponse
  cases command with
  | localDBGetKV cid peerCid key =>
    refine hsome (onTarget_returns (fun _ _ _ h => h.elim) fun bucket r => ?_)
    match r with
    | .ok (some value) => exact fun shown h => h ▸ hreserved
    | .ok none => exact fun _ h => h.elim
    | .error err => exact fun _ h => h.elim
  | localDBSetKV cid peerCid key value =>
    refine hsome (onTarget_returns (fun _ _ _ h => h.elim) fun bucket r => ?_)
    match r with
    | .ok () => exact fun _ h => h.elim
    | .error err => exact fun _ h => h.elim
  | localDBDeleteKV cid peerCid key =>
    refine hsome (onTarget_returns (fun _ _ _ h => h.elim) fun bucket r => ?_)
    match r with
    | .ok () => exact fun _ h => h.elim
    | .error err => exact fun _ h => h.elim
  | localDBGetAllKV cid peerCid =>
    intro r
    match r with
    | .error err =>
      intro response hresponse key h
      obtain rfl := Option.some.inj hresponse
      exact h.elim
    | .ok () =>
      intro r
      match r with
      | .error err =>
        intro response hresponse key h
        obtain rfl := Option.some.inj hresponse
        exact h.elim
      | .ok map =>
        intro response hresponse key h
        obtain rfl := Option.some.inj hresponse
        simpa using mem_retain h
  | localDBClearAllKV cid peerCid =>
    refine hsome (onTarget_returns (fun _ _ _ h => h.elim) fun bucket => ?_)
    refine Returns.bind (Returns.trivial _) fun r _ => ?_
    match r with
    | .ok () => exact fun _ h => h.elim
    | .error err => exact fun _ h => h.elim
  | _ => exact nomatch hlocal

theorem refusalResponse_shows {message : String} {response : Response} (h : response ∈ refusalResponse command message)
    (key : String) : ¬ response.shows key := by
  unfold refusalResponse at h
  split at h
  all_goals first
    | exact absurd h (Option.not_mem_none _)
    | obtain rfl := Option.some.inj h
      exact id

theorem checks_shows : Returns (fun checked => ∀ answer, checked = .refused answer → ∀ response ∈ answer, ∀ key,
    ¬ response.shows key) (checks sdk uuid command) := by
  have hrefused : ∀ message, Returns (fun checked => ∀ answer, checked = .refused answer → ∀ response ∈ answer, ∀ key,
      ¬ response.shows key) (pure (.refused (refusalResponse command message)) : M Checked) := by
    intro message answer hanswer response hresponse key
    obtain rfl := Checked.refused.inj hanswer
    exact refusalResponse_shows hresponse key
  refine Returns.bind (Returns.trivial _) fun decision _ => ?_
  match decision with
  | .refuse _ => exact hrefused _
  | .proceed =>
    refine Returns.bind (Returns.trivial _) fun recovery _ => ?_
    match recovery with
    | true => exact hrefused _
    | false =>
      dsimp only
      split
      · exact hrefused _
      · split
        · exact hrefused _
        · refine Returns.bind (Returns.trivial _) fun hosted _ => ?_
          match hosted with
          | true => exact hrefused _
          | false => exact fun answer h => nomatch h

/-! ## Request trees -/

/-- However deep a request stands in a tree, it reaches its handler only past the ownership gate and the check of
recovery sessions, and as a request to the store it keeps off what only the agent reads and writes. -/
theorem gate_holds (sdk : Sdk) (uuid : Uuid) {tree : InternalServiceRequest} {leaves : List Leaf} {answer : Option Response}
    (served : Serves sdk (fun _ _ => True) uuid tree leaves answer) :
    ∀ leaf ∈ leaves,
      (leaf.handling ≠ none → ∀ cid, leaf.command.sessionCid = some cid →
        (cid ≠ 0 → PassedGate uuid leaf.command cid leaf.checking) ∧ PassedRecovery sdk leaf.command cid leaf.checking) ∧
      (leaf.command.isLocalDB = true →
        (∀ handling, leaf.handling = some handling → ∀ c ∈ handling, c.op.Spares Reserved ∧
          ∀ w, Does c.op w c.answer c.after → ∀ bucket key, Reserved bucket key →
            (c.after.store bucket).lookup key = (w.store bucket).lookup key) ∧
        ∀ response ∈ leaf.answer, ∀ key, response.shows key → reservedKey key = none) := by
  intro leaf hleaf
  cases serves_leaves served leaf hleaf with
  | refused checked =>
    refine ⟨fun h => absurd rfl h, fun _ => ⟨nofun, fun response hresponse key h => ?_⟩⟩
    exact absurd h (checked.returns checks_shows _ rfl response hresponse key)
  | handled checked ran =>
    have hpassed := checks_passed checked
    refine ⟨fun _ cid hcid => ⟨hpassed.gate cid hcid, hpassed.recovery cid hcid⟩, fun hlocal => ⟨?_, ?_⟩⟩
    · intro handling hhandling c hc
      obtain rfl := Option.some.inj hhandling
      have hspares := ran.only (dispatch_spares hlocal hpassed.reserved) c hc
      exact ⟨hspares, fun w hdoes bucket key hreserved => does_keeps hdoes hspares.keeps hreserved⟩
    · exact ran.returns (dispatch_shows hlocal hpassed.reserved)

def answers : (o : Op) → World → o.Answer × World
  | .attached cid uuid, w => ((w.sessions cid).map fun session => session.subscribers.contains uuid, w)
  | .isRecoverySession cid, w => ((w.sessions cid).any (·.recovery), w)
  | .isHosted cid, w => (w.hosted cid, w)
  | .proposeTarget _, w => (.ok (), w)
  | .get bucket key, w => (.ok ((w.store bucket).lookup key), w)
  | .set bucket key value, w => (.ok (), w.write bucket ((w.store bucket).insert key value))
  | .remove bucket key, w => (.ok (), w.write bucket ((w.store bucket).erase key))
  | .getAll bucket, w => (.ok (w.store bucket), w)
  | .knownGrant cid, w => (w.privateNetwork cid, w)
  | .keepGrant cid grant, w => ((), { w with privateNetwork := Function.update w.privateNetwork cid (some grant) })
  | .handle _ _, w => (none, w)

theorem answers_does {beside : World → World → Prop} (o : Op) {w : World} (hrefl : beside w w) :
    Among beside o w (answers o w).1 (answers o w).2 := by
  refine ⟨w, hrefl, ?_⟩
  cases o with
  | get bucket key => exact ⟨rfl, fun found h => (Except.ok.inj h).symm⟩
  | set bucket key value => exact .inl rfl
  | remove bucket key => exact .inl rfl
  | getAll bucket => exact ⟨rfl, fun map h key => by rw [← Except.ok.inj h]⟩
  | proposeTarget bucket => exact rfl
  | keepGrant cid grant => exact rfl
  | handle command uuid => exact trivial
  | _ => exact ⟨rfl, rfl⟩

/-- One account, 7, open in the window 1. -/
def oneAccount (recovery : Bool) : World where
  sessions cid := if cid = 7 then some ⟨[1], recovery⟩ else none
  hosted _ := false
  store _ := ∅
  privateNetwork _ := none

theorem answers_hosted (o : Op) (w : World) : (answers o w).2.hosted = w.hosted := by
  cases o <;> rfl

theorem answered_served {beside : World → World → Prop} (command : Request) (w : World)
    (hrefl : ∀ t, t.hosted = w.hosted → beside t t) (h : (Prog.run answers (checks sdk uuid command) w).1 = .passed) :
    ServesOne sdk beside uuid ⟨command, Prog.trace answers (checks sdk uuid command) w,
      some (Prog.trace answers (dispatch uuid command) (Prog.run answers (checks sdk uuid command) w).2),
      (Prog.run answers (dispatch uuid command) (Prog.run answers (checks sdk uuid command) w).2).1⟩ := by
  have hkept : ∀ o t, t.hosted = w.hosted → (answers o t).2.hosted = w.hosted := fun o t ht => (answers_hosted o t).trans ht
  have hdoes := fun o t (ht : t.hosted = w.hosted) => answers_does o (hrefl t ht)
  have hchecked := Prog.runs_trace_of hkept hdoes (checks sdk uuid command) rfl
  rw [h] at hchecked
  exact .handled hchecked (Prog.runs_trace_of hkept hdoes _ (Prog.run_keeps hkept _ rfl))

def listing : Leaf where
  command := .localDBGetAllKV 7 none
  checking := Prog.trace answers (checks ⟨fun _ => false⟩ 1 (.localDBGetAllKV 7 none)) (oneAccount false)
  handling := some (Prog.trace answers (dispatch 1 (.localDBGetAllKV 7 none)) (oneAccount false))
  answer := some (.localDBGetAllKVSuccess 7 none ∅)

theorem gate_holds_listing :
    (listing.handling ≠ none → ∀ cid, listing.command.sessionCid = some cid →
        (cid ≠ 0 → PassedGate 1 listing.command cid listing.checking) ∧
          PassedRecovery ⟨fun _ => false⟩ listing.command cid listing.checking) ∧
      (listing.command.isLocalDB = true →
        (∀ handling, listing.handling = some handling → ∀ c ∈ handling, c.op.Spares Reserved ∧
          ∀ w, Does c.op w c.answer c.after → ∀ bucket key, Reserved bucket key →
            (c.after.store bucket).lookup key = (w.store bucket).lookup key) ∧
        ∀ response ∈ listing.answer, ∀ key, response.shows key → reservedKey key = none) :=
  have served : ServesOne ⟨fun _ => false⟩ (fun _ _ => True) 1 listing :=
    answered_served _ (oneAccount false) (fun _ _ => trivial) rfl
  gate_holds ⟨fun _ => false⟩ 1 (.cons (.cons (.one served) .nil) .nil) listing (by simp)

/-- The window's own `AppsSetAgentSettings` writes what no window may name, and a claim names its session where the check of
recovery sessions does not look. -/
theorem grant_writes_a_reserved_record :
    (∃ leaf handling, ServesOne ⟨fun _ => false⟩ (fun _ _ => True) 1 leaf ∧
      leaf.command = .appsSetAgentSettings 7 true ∧ leaf.handling = some handling ∧ Reserved (7, 0) PRIVATE_NETWORK_KEY ∧
      ∃ c ∈ handling, c.op = .set (7, 0) PRIVATE_NETWORK_KEY [1] ∧
        (c.before.store (7, 0)).lookup PRIVATE_NETWORK_KEY = none ∧
        (c.after.store (7, 0)).lookup PRIVATE_NETWORK_KEY = some [1]) ∧
    ∃ leaf handling, ServesOne ⟨fun _ => false⟩ (fun _ _ => True) 2 leaf ∧
      leaf.command = .connectionManagement (.claimSession 7 false) ∧ leaf.handling = some handling ∧
      allows ⟨fun _ => false⟩ leaf.command = false ∧
      ∃ c ∈ handling, c.op = .handle leaf.command 2 ∧ c.before.sessions 7 = some ⟨[1], true⟩ := by
  constructor
  · refine ⟨_, _, answered_served (.appsSetAgentSettings 7 true) (oneAccount false) (fun _ _ => trivial) rfl, rfl, rfl,
      show reservedKey PRIVATE_NETWORK_KEY ≠ none by decide +kernel, ⟨.set (7, 0) PRIVATE_NETWORK_KEY [1], oneAccount false, .ok (), _⟩,
      .tail _ (.tail _ (.head _)), rfl, rfl, AList.lookup_insert _⟩
  · exact ⟨_, _, answered_served (.connectionManagement (.claimSession 7 false)) (oneAccount true) (fun _ _ => trivial) rfl,
      rfl, rfl, rfl, _, .head _, rfl, rfl⟩

end CitadelAgent.Requests
