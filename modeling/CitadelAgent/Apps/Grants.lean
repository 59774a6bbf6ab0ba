import CitadelAgent.Apps.Authorize

/-!
# Host egress: the grant cache

`citadel-internal-service/src/kernel/apps/net/grants.rs`: what the server last said each install may reach, and the
questions still waiting for an answer. A call of `resolve` takes the lock up to three times, so it is cut where it
lets go of it: it looks in memory or asks (`Event.resolve`), its question is sent or not, and it wakes with the
answer, gives up, or is dropped by its caller. A frame is what `HostNetAuthority::classify` makes of it.

* `GrantCache.step`, `GrantCache.run` : every interleaving of calls, server frames, link events and time;
* `Standing` : a question that was asked, with nothing withdrawn from its account since;
* `Reusable` : an answer that may still be given from memory;
* `memory_reusable` : where no `InstallsChanged` overtakes a question, only such answers are.
-/

namespace CitadelAgent.Apps
open NetPolicy

abbrev Cid := UInt64

def GRANT_TTL_MS : Nat := 60000

/-- `Duration::from_millis(GRANT_TTL_MS)`, in the nanoseconds an `Instant` counts. -/
def grantTtl : Nat := GRANT_TTL_MS * 1000000

/-- What a frame the server sent a session means for host egress. -/
inductive AuthoritySignal
  | unrelated
  | grant (installId : Text) (tag : UInt64) (grant : Option KernelGrant)
  | installsChanged

/-- A question waiting for its answer; `call` is the one that holds the receiving end of `answer`. -/
structure Pending where
  cid : Cid
  installId : Text
  call : Nat

inductive Stage
  | sending
  | waiting
  | returned (answer : Except GrantFault (Option KernelGrant))

/-- A call of `resolve` that had to ask. -/
structure Call where
  tag : UInt64
  stage : Stage
  received : Option (Option KernelGrant)

structure GrantCache where
  entries : Cid → Text → Option (Option KernelGrant × Nat)
  pending : UInt64 → Option Pending
  down : Cid → Bool
  nextTag : UInt64
  calls : List Call
  now : Nat

/-- What the first lock of `resolve` comes to. -/
inductive Resolved
  | linkDown
  | memory (grant : Option KernelGrant)
  | asks (tag : UInt64)

inductive Event
  | resolve (cid : Cid) (installId : Text)
  | sendFailed (call : Nat) (err : Text)
  | sent (call : Nat)
  | woken (call : Nat)
  | timedOut (call : Nat)
  | serverFrame (cid : Cid) (signal : AuthoritySignal)
  | linkUp (cid : Cid)
  | linkDown (cid : Cid)
  | sessionEnded (cid : Cid)
  | pass (nanos : Nat)

namespace GrantCache

def new : GrantCache := ⟨fun _ _ => none, fun _ => none, fun _ => false, 0, [], 0⟩

/-- Drops what is known about `cid`. -/
def dropEntries (cache : GrantCache) (cid : Cid) : GrantCache :=
  { cache with entries := fun owner install => if owner = cid then none else cache.entries owner install }

/-- Drops what is known about `cid`, and abandons its questions. -/
def forget (cache : GrantCache) (cid : Cid) : GrantCache :=
  { cache.dropEntries cid with
    pending := fun tag => (cache.pending tag).filter fun pending => pending.cid != cid }

def setDown (cache : GrantCache) (cid : Cid) (down : Bool) : GrantCache :=
  { cache with down := fun c => if c = cid then down else cache.down c }

def removePending (cache : GrantCache) (tag : UInt64) : GrantCache :=
  { cache with pending := fun t => if t = tag then none else cache.pending t }

/-- `resolve`, up to its first answer. -/
def resolved (cache : GrantCache) (cid : Cid) (installId : Text) : Resolved :=
  if cache.down cid then .linkDown
  else
    match cache.entries cid installId with
    | some (grant, receivedAt) => if cache.now - receivedAt < grantTtl then .memory grant else .asks cache.nextTag
    | none => .asks cache.nextTag

/-- The question is put down under its tag before it is sent. -/
def ask (cache : GrantCache) (cid : Cid) (installId : Text) : GrantCache :=
  { cache with
    nextTag := cache.nextTag + 1
    pending := fun t => if t = cache.nextTag then some ⟨cid, installId, cache.calls.length⟩ else cache.pending t
    calls := cache.calls ++ [⟨cache.nextTag, .sending, none⟩] }

def resolve (cache : GrantCache) (cid : Cid) (installId : Text) : GrantCache :=
  match cache.resolved cid installId with
  | .asks _ => cache.ask cid installId
  | _ => cache

def setStage (cache : GrantCache) (call : Nat) (stage : Stage) : GrantCache :=
  { cache with calls := cache.calls.modify call fun c => { c with stage := stage } }

/-- Whether the sending end of a call's channel still exists: it lies in `pending`, under the call's tag. -/
def senderLives (cache : GrantCache) (call : Nat) (tag : UInt64) : Bool :=
  (cache.pending tag).any fun pending => pending.call == call

def sendFailed (cache : GrantCache) (call : Nat) (err : Text) : GrantCache :=
  match cache.calls[call]? with
  | some ⟨tag, .sending, _⟩ => (cache.removePending tag).setStage call (.returned (.error (.send err)))
  | _ => cache

def sent (cache : GrantCache) (call : Nat) : GrantCache :=
  match cache.calls[call]? with
  | some ⟨_, .sending, _⟩ => cache.setStage call .waiting
  | _ => cache

def woken (cache : GrantCache) (call : Nat) : GrantCache :=
  match cache.calls[call]? with
  | some ⟨_, .waiting, some grant⟩ => cache.setStage call (.returned (.ok grant))
  | some ⟨tag, .waiting, none⟩ =>
    if cache.senderLives call tag then cache else cache.setStage call (.returned (.error .abandoned))
  | _ => cache

def timedOut (cache : GrantCache) (call : Nat) : GrantCache :=
  match cache.calls[call]? with
  | some ⟨tag, .waiting, _⟩ => (cache.removePending tag).setStage call (.returned (.error .timeout))
  | _ => cache

/-- The answer to a question of the agent's own is kept and handed to the call that waits for it. -/
def keep (cache : GrantCache) (cid : Cid) (installId : Text) (tag : UInt64) (grant : Option KernelGrant) (call : Nat) :
    GrantCache :=
  { cache.removePending tag with
    entries := fun owner install =>
      if owner = cid ∧ install = installId then some (grant, cache.now) else cache.entries owner install
    calls := cache.calls.modify call fun c => { c with received := some grant } }

/-- The question an answer on the link of `cid` is to, if it is the agent's own. -/
def answers (cache : GrantCache) (cid : Cid) (installId : Text) (tag : UInt64) : Option Pending :=
  (cache.pending tag).filter fun pending => pending.cid == cid && pending.installId == installId

/-- The cache after a frame, and whether the frame goes on to the session's windows. -/
def onServerFrame (cache : GrantCache) (cid : Cid) : AuthoritySignal → GrantCache × Bool
  | .unrelated => (cache, true)
  | .installsChanged => (cache.dropEntries cid, true)
  | .grant installId tag grant =>
    match cache.answers cid installId tag with
    | none => (cache, true)
    | some pending => (cache.keep cid installId tag grant pending.call, false)

def linkUp (cache : GrantCache) (cid : Cid) : GrantCache := (cache.forget cid).setDown cid false

def linkDown (cache : GrantCache) (cid : Cid) : GrantCache := (cache.forget cid).setDown cid true

def sessionEnded (cache : GrantCache) (cid : Cid) : GrantCache := (cache.forget cid).setDown cid false

def step (cache : GrantCache) : Event → GrantCache
  | .resolve cid installId => cache.resolve cid installId
  | .sendFailed call err => cache.sendFailed call err
  | .sent call => cache.sent call
  | .woken call => cache.woken call
  | .timedOut call => cache.timedOut call
  | .serverFrame cid signal => (cache.onServerFrame cid signal).1
  | .linkUp cid => cache.linkUp cid
  | .linkDown cid => cache.linkDown cid
  | .sessionEnded cid => cache.sessionEnded cid
  | .pass nanos => { cache with now := cache.now + nanos }

def run (events : List Event) : GrantCache := events.foldl step new

theorem run_snoc (events : List Event) (event : Event) : run (events ++ [event]) = (run events).step event := by
  simp [run]

def asks (cache : GrantCache) : Event → Option UInt64
  | .resolve cid installId =>
    match cache.resolved cid installId with
    | .asks tag => some tag
    | _ => none
  | _ => none

end GrantCache

/-! ## What a run says -/

/-- What takes the server's word on the installs of `cid` back: a change, a link event, the session's end. -/
def Event.withdraws (cid : Cid) : Event → Bool
  | .serverFrame c .installsChanged => c == cid
  | .linkUp c => c == cid
  | .linkDown c => c == cid
  | .sessionEnded c => c == cid
  | _ => false

def Event.nanos : Event → Nat
  | .pass nanos => nanos
  | _ => 0

def elapsed (events : List Event) : Nat := (events.map Event.nanos).sum

/-- Whether the link of `cid` is down, after what was heard of it. -/
def linkIsDown (cid : Cid) (events : List Event) : Bool :=
  events.foldl (fun down event =>
    match event with
    | .linkDown c => if c = cid then true else down
    | .linkUp c => if c = cid then false else down
    | .sessionEnded c => if c = cid then false else down
    | _ => down) false

/-- `tag` is a question about `installId` of `cid` that was asked; it is the last one of that tag, and nothing was
withdrawn from `cid` since. -/
def Standing (events : List Event) (tag : UInt64) (cid : Cid) (installId : Text) : Prop :=
  ∃ before after, events = before ++ .resolve cid installId :: after ∧
    (GrantCache.run before).asks (.resolve cid installId) = some tag ∧
    (∀ event ∈ after, event.withdraws cid = false) ∧
    ∀ pre event post, after = pre ++ event :: post →
      (GrantCache.run (before ++ .resolve cid installId :: pre)).asks event ≠ some tag

/-- The server gave `grant` for a question about `installId` of `cid` that stood when it was answered; nothing was
withdrawn since, and less than `grantTtl` has passed. -/
def Reusable (events : List Event) (cid : Cid) (installId : Text) (grant : Option KernelGrant) : Prop :=
  ∃ asked tag after, events = asked ++ .serverFrame cid (.grant installId tag grant) :: after ∧
    Standing asked tag cid installId ∧ (∀ event ∈ after, event.withdraws cid = false) ∧ elapsed after < grantTtl

/-- No `InstallsChanged` arrives for an account while a question of it is waiting. -/
def NoneOvertaken (events : List Event) : Prop :=
  ∀ before cid after, events = before ++ .serverFrame cid .installsChanged :: after →
    ∀ tag pending, (GrantCache.run before).pending tag = some pending → pending.cid ≠ cid

variable {event : Event} {events : List Event} {installId : Text} {tag : UInt64} {cid : Cid} {pending : Pending}
  {cache : GrantCache}

theorem NoneOvertaken.init (h : NoneOvertaken (events ++ [event])) :
    NoneOvertaken events :=
  fun before cid after hsplit => h before cid (after ++ [event]) (by simp [hsplit])

theorem elapsed_snoc (events : List Event) (event : Event) : elapsed (events ++ [event]) = elapsed events + event.nanos := by
  simp [elapsed]

theorem forall_mem_snoc {P : Event → Prop} (h : ∀ e ∈ events, P e) (he : P event) :
    ∀ e ∈ events ++ [event], P e := by
  intro e hmem
  rcases List.mem_append.mp hmem with hmem | hmem
  · exact h e hmem
  · rw [List.mem_singleton.mp hmem]
    exact he

theorem Standing.snoc (h : Standing events tag cid installId) (hw : event.withdraws cid = false)
    (ha : (GrantCache.run events).asks event ≠ some tag) : Standing (events ++ [event]) tag cid installId := by
  obtain ⟨before, after, rfl, hasks, hkept, hlast⟩ := h
  refine ⟨before, after ++ [event], by simp, hasks, forall_mem_snoc hkept hw, fun pre e post hsplit => ?_⟩
  rcases List.eq_nil_or_concat post with rfl | ⟨post, x, rfl⟩
  · obtain ⟨rfl, hx⟩ := List.append_inj' hsplit rfl
    rw [← (List.cons.inj hx).1]
    exact ha
  · have hsplit : after ++ [event] = (pre ++ e :: post) ++ [x] := by simpa using hsplit
    obtain ⟨rfl, -⟩ := List.append_inj' hsplit rfl
    exact hlast pre e post rfl

theorem Standing.asked (h : (GrantCache.run events).asks (.resolve cid installId) = some tag) :
    Standing (events ++ [.resolve cid installId]) tag cid installId := by
  refine ⟨events, [], rfl, h, fun event hmem => by simp at hmem, fun pre event post hsplit => ?_⟩
  simp at hsplit

/-! ## What a step does -/

namespace GrantCache

theorem resolve_eq (cache : GrantCache) (cid : Cid) (installId : Text) :
    cache.asks (.resolve cid installId) = none ∧ cache.resolve cid installId = cache ∨
      cache.asks (.resolve cid installId) = some cache.nextTag ∧ cache.resolve cid installId = cache.ask cid installId := by
  have htag : ∀ tag, cache.resolved cid installId = .asks tag → tag = cache.nextTag := by
    intro tag h
    unfold resolved at h
    split at h
    · cases h
    split at h
    · split at h
      · cases h
      · exact (Resolved.asks.inj h).symm
    · exact (Resolved.asks.inj h).symm
  simp only [asks, resolve]
  cases h : cache.resolved cid installId with
  | linkDown => exact .inl ⟨rfl, rfl⟩
  | memory grant => exact .inl ⟨rfl, rfl⟩
  | asks tag => exact .inr ⟨congrArg some (htag tag h), rfl⟩

theorem pending_removePending {t : UInt64} (h : (cache.removePending tag).pending t = some pending) : cache.pending t = some pending := by
  simp only [removePending] at h
  split at h
  · cases h
  · exact h

theorem pending_forget (h : (cache.forget cid).pending tag = some pending) : cache.pending tag = some pending ∧ pending.cid ≠ cid := by
  obtain ⟨hp, hne⟩ := Option.filter_eq_some_iff.mp h
  exact ⟨hp, by simpa using hne⟩

theorem entries_dropEntries {owner : Cid} {install : Text} {entry : Option KernelGrant × Nat}
    (h : (cache.dropEntries cid).entries owner install = some entry) :
    cache.entries owner install = some entry ∧ owner ≠ cid := by
  simp only [dropEntries] at h
  split at h
  · cases h
  · rename_i hne
    exact ⟨h, hne⟩

/-- What a step of a waiting call leaves of the cache: it may take its question back. -/
structure OnlyDrops (cache next : GrantCache) : Prop where
  entries : next.entries = cache.entries
  pending : ∀ tag pending, next.pending tag = some pending → cache.pending tag = some pending
  down : next.down = cache.down
  now : next.now = cache.now

theorem OnlyDrops.refl (cache : GrantCache) : OnlyDrops cache cache := ⟨rfl, fun _ _ h => h, rfl, rfl⟩

theorem onlyDrops_setStage (cache : GrantCache) (call : Nat) (stage : Stage) : OnlyDrops cache (cache.setStage call stage) :=
  ⟨rfl, fun _ _ h => h, rfl, rfl⟩

theorem onlyDrops_giveUp (cache : GrantCache) (tag : UInt64) (call : Nat) (stage : Stage) :
    OnlyDrops cache ((cache.removePending tag).setStage call stage) :=
  ⟨rfl, fun _ _ h => pending_removePending h, rfl, rfl⟩

theorem onlyDrops_sendFailed (cache : GrantCache) (call : Nat) (err : Text) : OnlyDrops cache (cache.sendFailed call err) := by
  unfold sendFailed
  split
  · exact onlyDrops_giveUp _ _ _ _
  · exact .refl cache

theorem onlyDrops_sent (cache : GrantCache) (call : Nat) : OnlyDrops cache (cache.sent call) := by
  unfold sent
  split
  · exact onlyDrops_setStage _ _ _
  · exact .refl cache

theorem onlyDrops_woken (cache : GrantCache) (call : Nat) : OnlyDrops cache (cache.woken call) := by
  unfold woken
  split
  · exact onlyDrops_setStage _ _ _
  · split
    · exact .refl cache
    · exact onlyDrops_setStage _ _ _
  · exact .refl cache

theorem onlyDrops_timedOut (cache : GrantCache) (call : Nat) : OnlyDrops cache (cache.timedOut call) := by
  unfold timedOut
  split
  · exact onlyDrops_giveUp _ _ _ _
  · exact .refl cache

/-- **Where a waiting question comes from.** It waited before, and then only `InstallsChanged` can have withdrawn
its account's grants; or this is the call that asks it. -/
theorem step_pending (h : (cache.step event).pending tag = some pending) :
    (cache.pending tag = some pending ∧ cache.asks event ≠ some tag ∧
      (event.withdraws pending.cid = true → event = .serverFrame pending.cid .installsChanged)) ∨
    (event = .resolve pending.cid pending.installId ∧ cache.asks event = some tag) := by
  have hdrops : ∀ {next}, OnlyDrops cache next → next.pending tag = some pending → cache.pending tag = some pending :=
    fun hd hp => hd.pending tag pending hp
  cases event with
  | resolve cid installId =>
    rcases resolve_eq cache cid installId with ⟨hasks, heq⟩ | ⟨hasks, heq⟩
    · simp only [step, heq] at h
      exact .inl ⟨h, by simp [hasks], fun hw => by cases hw⟩
    · simp only [step, heq, ask] at h
      split at h
      · rename_i ht
        obtain rfl := Option.some.inj h
        exact .inr ⟨rfl, by rw [hasks, ht]⟩
      · rename_i ht
        exact .inl ⟨h, by rw [hasks]; exact fun hs => ht (Option.some.inj hs).symm, fun hw => by cases hw⟩
  | sendFailed call err =>
    exact .inl ⟨hdrops (onlyDrops_sendFailed cache call err) h, by simp [asks], fun hw => by cases hw⟩
  | sent call => exact .inl ⟨hdrops (onlyDrops_sent cache call) h, by simp [asks], fun hw => by cases hw⟩
  | woken call => exact .inl ⟨hdrops (onlyDrops_woken cache call) h, by simp [asks], fun hw => by cases hw⟩
  | timedOut call => exact .inl ⟨hdrops (onlyDrops_timedOut cache call) h, by simp [asks], fun hw => by cases hw⟩
  | serverFrame cid signal =>
    cases signal with
    | unrelated => exact .inl ⟨h, by simp [asks], fun hw => by cases hw⟩
    | installsChanged =>
      refine .inl ⟨h, by simp [asks], fun hw => ?_⟩
      rw [eq_of_beq hw]
    | grant installId t grant =>
      refine .inl ⟨?_, by simp [asks], fun hw => by cases hw⟩
      simp only [step, onServerFrame] at h
      split at h
      · exact h
      · exact pending_removePending h
  | linkUp cid =>
    obtain ⟨hp, hne⟩ := pending_forget h
    exact .inl ⟨hp, by simp [asks], fun hw => absurd (eq_of_beq hw).symm hne⟩
  | linkDown cid =>
    obtain ⟨hp, hne⟩ := pending_forget h
    exact .inl ⟨hp, by simp [asks], fun hw => absurd (eq_of_beq hw).symm hne⟩
  | sessionEnded cid =>
    obtain ⟨hp, hne⟩ := pending_forget h
    exact .inl ⟨hp, by simp [asks], fun hw => absurd (eq_of_beq hw).symm hne⟩
  | pass nanos => exact .inl ⟨h, by simp [asks], fun hw => by cases hw⟩

/-- **Where a kept answer comes from.** It was kept before and nothing was withdrawn, or it has just been given to
a question that was waiting. -/
theorem step_entries {grant : Option KernelGrant} {receivedAt : Nat}
    (h : (cache.step event).entries cid installId = some (grant, receivedAt)) :
    (cache.entries cid installId = some (grant, receivedAt) ∧ event.withdraws cid = false) ∨
    ∃ tag call, event = .serverFrame cid (.grant installId tag grant) ∧
      cache.pending tag = some ⟨cid, installId, call⟩ ∧ receivedAt = cache.now := by
  have hdrops : ∀ {next}, OnlyDrops cache next → next.entries cid installId = some (grant, receivedAt) →
      cache.entries cid installId = some (grant, receivedAt) := fun hd he => hd.entries ▸ he
  have hforget : ∀ {c}, (cache.forget c).entries cid installId = some (grant, receivedAt) →
      cache.entries cid installId = some (grant, receivedAt) ∧ (c == cid) = false := by
    intro c he
    obtain ⟨he, hne⟩ := entries_dropEntries he
    exact ⟨he, beq_eq_false_iff_ne.mpr (Ne.symm hne)⟩
  cases event with
  | resolve c i =>
    refine .inl ⟨?_, rfl⟩
    rcases resolve_eq cache c i with ⟨-, heq⟩ | ⟨-, heq⟩
    · simpa only [step, heq] using h
    · simpa only [step, heq, ask] using h
  | sendFailed call err => exact .inl ⟨hdrops (onlyDrops_sendFailed cache call err) h, rfl⟩
  | sent call => exact .inl ⟨hdrops (onlyDrops_sent cache call) h, rfl⟩
  | woken call => exact .inl ⟨hdrops (onlyDrops_woken cache call) h, rfl⟩
  | timedOut call => exact .inl ⟨hdrops (onlyDrops_timedOut cache call) h, rfl⟩
  | serverFrame c signal =>
    cases signal with
    | unrelated => exact .inl ⟨h, rfl⟩
    | installsChanged =>
      obtain ⟨he, hne⟩ := entries_dropEntries h
      exact .inl ⟨he, beq_eq_false_iff_ne.mpr (Ne.symm hne)⟩
    | grant i tag g =>
      simp only [step, onServerFrame] at h
      split at h
      · exact .inl ⟨h, rfl⟩
      rename_i pending hanswers
      simp only [keep] at h
      split at h
      · rename_i hkey
        obtain ⟨rfl, rfl⟩ := hkey
        obtain ⟨rfl, rfl⟩ := Prod.mk.inj (Option.some.inj h)
        obtain ⟨hp, hmine⟩ := Option.filter_eq_some_iff.mp hanswers
        obtain ⟨hc, hi⟩ : pending.cid = cid ∧ pending.installId = installId := by simpa using hmine
        refine .inr ⟨tag, pending.call, rfl, ?_, rfl⟩
        rw [hp, ← hc, ← hi]
      · exact .inl ⟨h, rfl⟩
  | linkUp c => exact .inl (hforget h)
  | linkDown c => exact .inl (hforget h)
  | sessionEnded c => exact .inl (hforget h)
  | pass nanos => exact .inl ⟨h, rfl⟩

theorem step_now (cache : GrantCache) (event : Event) : (cache.step event).now = cache.now + event.nanos := by
  cases event with
  | resolve c i =>
    rcases resolve_eq cache c i with ⟨-, heq⟩ | ⟨-, heq⟩
    · simp only [step, heq, Event.nanos, Nat.add_zero]
    · simp only [step, heq, ask, Event.nanos, Nat.add_zero]
  | sendFailed call err => exact (onlyDrops_sendFailed cache call err).now
  | sent call => exact (onlyDrops_sent cache call).now
  | woken call => exact (onlyDrops_woken cache call).now
  | timedOut call => exact (onlyDrops_timedOut cache call).now
  | serverFrame c signal =>
    cases signal with
    | unrelated => rfl
    | installsChanged => rfl
    | grant i tag g =>
      simp only [step, onServerFrame]
      split <;> rfl
  | linkUp c => rfl
  | linkDown c => rfl
  | sessionEnded c => rfl
  | pass nanos => rfl

end GrantCache

/-! ## Whole runs -/

theorem linkIsDown_snoc (cid : Cid) (events : List Event) (event : Event) :
    linkIsDown cid (events ++ [event]) =
      match event with
      | .linkDown c => if c = cid then true else linkIsDown cid events
      | .linkUp c => if c = cid then false else linkIsDown cid events
      | .sessionEnded c => if c = cid then false else linkIsDown cid events
      | _ => linkIsDown cid events := by
  unfold linkIsDown
  rw [List.foldl_append, List.foldl_cons, List.foldl_nil]

theorem run_down (events : List Event) (cid : Cid) : (GrantCache.run events).down cid = linkIsDown cid events := by
  induction events using List.reverseRecOn with
  | nil => rfl
  | append_singleton events event ih =>
    rw [GrantCache.run_snoc, linkIsDown_snoc]
    generalize GrantCache.run events = cache at ih ⊢
    cases event with
    | resolve c i =>
      rcases cache.resolve_eq c i with ⟨-, heq⟩ | ⟨-, heq⟩
      · simp only [GrantCache.step, heq, ih]
      · simp only [GrantCache.step, heq, GrantCache.ask, ih]
    | sendFailed call err => exact (congrFun (cache.onlyDrops_sendFailed call err).down cid).trans ih
    | sent call => exact (congrFun (cache.onlyDrops_sent call).down cid).trans ih
    | woken call => exact (congrFun (cache.onlyDrops_woken call).down cid).trans ih
    | timedOut call => exact (congrFun (cache.onlyDrops_timedOut call).down cid).trans ih
    | serverFrame c signal =>
      cases signal with
      | unrelated => exact ih
      | installsChanged => exact ih
      | grant i tag g =>
        simp only [GrantCache.step, GrantCache.onServerFrame]
        split <;> exact ih
    | linkUp c =>
      simp only [GrantCache.step, GrantCache.linkUp, GrantCache.setDown, GrantCache.forget, GrantCache.dropEntries, ih,
        eq_comm (a := cid)]
    | linkDown c =>
      simp only [GrantCache.step, GrantCache.linkDown, GrantCache.setDown, GrantCache.forget, GrantCache.dropEntries, ih,
        eq_comm (a := cid)]
    | sessionEnded c =>
      simp only [GrantCache.step, GrantCache.sessionEnded, GrantCache.setDown, GrantCache.forget, GrantCache.dropEntries,
        ih, eq_comm (a := cid)]
    | pass nanos => exact ih

/-- Every question that waits stands, and every answer that is kept was given to a question that stood, at the time
it is kept under, with nothing withdrawn since. -/
structure Sound (events : List Event) : Prop where
  pending : ∀ tag pending, (GrantCache.run events).pending tag = some pending →
    Standing events tag pending.cid pending.installId
  entries : ∀ cid installId grant receivedAt, (GrantCache.run events).entries cid installId = some (grant, receivedAt) →
    ∃ asked tag after, events = asked ++ .serverFrame cid (.grant installId tag grant) :: after ∧
      Standing asked tag cid installId ∧ (∀ event ∈ after, event.withdraws cid = false) ∧
      receivedAt + elapsed after = (GrantCache.run events).now

theorem Sound.step (h : Sound events) (hnone : NoneOvertaken (events ++ [event])) :
    Sound (events ++ [event]) := by
  constructor
  · intro tag pending hp
    rw [GrantCache.run_snoc] at hp
    rcases GrantCache.step_pending hp with ⟨hwaited, hasks, hwithdraws⟩ | ⟨rfl, hasks⟩
    · refine (h.pending tag pending hwaited).snoc ?_ hasks
      -- Only `InstallsChanged` could have withdrawn it, and that does not overtake the question.
      by_contra hw
      have hevent := hwithdraws (Bool.not_eq_false _ ▸ hw)
      exact hnone events pending.cid [] (by rw [hevent]) tag pending hwaited rfl
    · exact Standing.asked hasks
  · intro cid installId grant receivedAt he
    rw [GrantCache.run_snoc] at he ⊢
    rcases GrantCache.step_entries he with ⟨hkept, hw⟩ | ⟨tag, call, rfl, hp, rfl⟩
    · obtain ⟨asked, tag, after, rfl, hstanding, hafter, hnow⟩ := h.entries cid installId grant receivedAt hkept
      refine ⟨asked, tag, after ++ [event], by simp, hstanding, forall_mem_snoc hafter hw, ?_⟩
      rw [elapsed_snoc, GrantCache.step_now, ← hnow, Nat.add_assoc]
    · refine ⟨events, tag, [], rfl, h.pending tag _ hp, fun event hmem => by simp at hmem, ?_⟩
      rw [GrantCache.step_now]
      rfl

theorem run_sound (h : NoneOvertaken events) : Sound events := by
  induction events using List.reverseRecOn with
  | nil => exact ⟨fun tag pending hp => (by cases hp), fun cid installId grant receivedAt he => (by cases he)⟩
  | append_singleton events event ih => exact (ih h.init).step h

/-- **A withdrawn grant is not reused**, where no `InstallsChanged` overtakes a question: an answer from memory was
given less than `grantTtl` ago, and nothing was withdrawn since its question was asked. -/
theorem memory_reusable (events : List Event) (cid : Cid) (installId : Text) (grant : Option KernelGrant)
    (hnone : NoneOvertaken events) (h : (GrantCache.run events).resolved cid installId = .memory grant) :
    Reusable events cid installId grant ∧ linkIsDown cid events = false := by
  unfold GrantCache.resolved at h
  split at h
  · cases h
  rename_i hdown
  rw [run_down] at hdown
  split at h
  · rename_i g receivedAt he
    split at h
    · rename_i hfresh
      obtain rfl := Resolved.memory.inj h
      obtain ⟨asked, tag, after, hsplit, hstanding, hafter, hnow⟩ := (run_sound hnone).entries cid installId g receivedAt he
      exact ⟨⟨asked, tag, after, hsplit, hstanding, hafter, by omega⟩, by simpa using hdown⟩
    · cases h
  · cases h

/-- An answer reused a minute later, less a nanosecond. -/
theorem memory_reusable_minute :
    Reusable [.resolve 7 "crm".toList, .sent 0,
      .serverFrame 7 (.grant "crm".toList 0 (some ⟨"crm".toList, ["api.acme.com".toList], false⟩)), .woken 0,
      .pass 59999999999] 7 "crm".toList (some ⟨"crm".toList, ["api.acme.com".toList], false⟩) := by
  refine (memory_reusable _ 7 "crm".toList _ ?_ (by rfl)).1
  intro before cid after hsplit
  have hmem : Event.serverFrame cid .installsChanged ∈ before ++ Event.serverFrame cid .installsChanged :: after := by simp
  rw [← hsplit] at hmem
  simp at hmem

/-! ## A question that is overtaken -/

theorem up_of_pending (h : (GrantCache.run events).pending tag = some pending) : linkIsDown pending.cid events = false := by
  induction events using List.reverseRecOn with
  | nil => cases h
  | append_singleton events event ih =>
    rw [GrantCache.run_snoc] at h
    rw [linkIsDown_snoc]
    rcases GrantCache.step_pending h with ⟨hwaited, -, hwithdraws⟩ | ⟨rfl, hasks⟩
    · have hup := ih hwaited
      cases event with
      | linkDown c =>
        dsimp only
        split
        · rename_i hc
          cases hwithdraws (by simp [Event.withdraws, hc])
        · exact hup
      | linkUp c => simp [hup]
      | sessionEnded c => simp [hup]
      | _ => exact hup
    · simp only [GrantCache.asks, GrantCache.resolved, run_down] at hasks
      cases hdown : linkIsDown pending.cid events with
      | false => rfl
      | true => simp [hdown] at hasks

theorem last_of_split {x y : Event} {xs before after : List Event} (h : xs ++ [x] = before ++ y :: after) :
    y = x ∨ x ∈ after := by
  rcases List.eq_nil_or_concat after with rfl | ⟨rest, last, rfl⟩
  · exact .inl (List.cons.inj (List.append_inj' h rfl).2).1.symm
  · have h : xs ++ [x] = (before ++ y :: rest) ++ [last] := by simpa using h
    have hlast := (List.cons.inj (List.append_inj' h rfl).2).1
    exact .inr (by simp [hlast])

/-- **Every question that is overtaken can be answered with what was withdrawn.** The answer the server gave before
the change, arriving after it, is kept and reused. -/
theorem overtaken_reused (h : (GrantCache.run events).pending tag = some pending) (grant : Option KernelGrant) :
    (GrantCache.run (events ++ [.serverFrame pending.cid .installsChanged,
      .serverFrame pending.cid (.grant pending.installId tag grant)])).resolved pending.cid pending.installId =
        .memory grant ∧
    ¬ Reusable (events ++ [.serverFrame pending.cid .installsChanged,
      .serverFrame pending.cid (.grant pending.installId tag grant)]) pending.cid pending.installId grant := by
  constructor
  · have hup := (run_down events pending.cid).trans (up_of_pending h)
    have hanswers : ((GrantCache.run events).dropEntries pending.cid).answers pending.cid pending.installId tag =
        some pending := by
      simp [GrantCache.answers, GrantCache.dropEntries, h]
    have hrun : GrantCache.run (events ++ [.serverFrame pending.cid .installsChanged,
        .serverFrame pending.cid (.grant pending.installId tag grant)]) =
        ((GrantCache.run events).dropEntries pending.cid).keep pending.cid pending.installId tag grant pending.call := by
      simp only [GrantCache.run, List.foldl_append, List.foldl_cons, List.foldl_nil] at hanswers ⊢
      simp only [GrantCache.step, GrantCache.onServerFrame, hanswers]
    rw [hrun]
    have httl : 0 < grantTtl := by decide
    simp [GrantCache.resolved, GrantCache.keep, GrantCache.removePending, GrantCache.dropEntries, hup, httl]
  · rintro ⟨asked, t, after, hsplit, ⟨before, since, hasked, -, hkept, -⟩, hafter, -⟩
    have hwithdraws : (Event.serverFrame pending.cid .installsChanged).withdraws pending.cid ≠ false := by
      simp [Event.withdraws]
    have hsplit : (events ++ [.serverFrame pending.cid .installsChanged]) ++
        [.serverFrame pending.cid (.grant pending.installId tag grant)] =
        asked ++ .serverFrame pending.cid (.grant pending.installId t grant) :: after := by
      rw [← hsplit]
      simp
    rcases List.eq_nil_or_concat after with rfl | ⟨rest, last, rfl⟩
    · -- The last answer: its question is the one that was overtaken.
      have hbefore := (List.append_inj' hsplit rfl).1.trans hasked
      rcases last_of_split hbefore with heq | hmem
      · cases heq
      · exact hwithdraws (hkept _ hmem)
    · -- An earlier one: it was withdrawn.
      have hsplit : (events ++ [.serverFrame pending.cid .installsChanged]) ++
          [.serverFrame pending.cid (.grant pending.installId tag grant)] =
          (asked ++ .serverFrame pending.cid (.grant pending.installId t grant) :: rest) ++ [last] := by
        rw [hsplit]
        simp
      have hbefore := (List.append_inj' hsplit rfl).1
      rcases last_of_split hbefore with heq | hmem
      · cases heq
      · exact hwithdraws (hafter _ (by simp [hmem]))

/-- The installs change while the question is out; the answer to it is kept all the same. -/
theorem memory_after_installsChanged :
    (GrantCache.run [.resolve 7 "crm".toList, .sent 0, .serverFrame 7 .installsChanged,
      .serverFrame 7 (.grant "crm".toList 0 (some ⟨"crm".toList, ["api.acme.com".toList], false⟩))]).resolved 7 "crm".toList =
        .memory (some ⟨"crm".toList, ["api.acme.com".toList], false⟩) ∧
    ¬ Reusable [.resolve 7 "crm".toList, .sent 0, .serverFrame 7 .installsChanged,
      .serverFrame 7 (.grant "crm".toList 0 (some ⟨"crm".toList, ["api.acme.com".toList], false⟩))] 7 "crm".toList
        (some ⟨"crm".toList, ["api.acme.com".toList], false⟩) := by
  have hpending : (GrantCache.run [.resolve 7 "crm".toList, .sent 0]).pending 0 = some ⟨7, "crm".toList, 0⟩ := by rfl
  exact overtaken_reused hpending _

end CitadelAgent.Apps
