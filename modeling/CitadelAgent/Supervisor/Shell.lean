import CitadelAgent.Supervisor.Probes

/-!
# Supervisor: the shell

`shell.rs` and `shell_effects.rs` as a machine: the loop takes one ready event at a time (a signal, an answer
off the `Done` channel, a network change, a tick, the backlog's turn), and beside it run the effects it has
spawned, whose answers arrive on that channel whenever they are ready.

* `Shell`, `Shell.step`, `Shell.run` : the loop and its effects. A probe's task first waits for its answer
  (`waiting`), then sends it (`sending`), then the answer is queued (`done`); an abort stops only a task
  that is still waiting;
* `Shell.links` and the epoch of a probe are bookkeeping of this model: how many `Signal::Link`s were handled,
  and how many had been when the probe was issued. The code's answers carry no identity;
* `StaleAnswerInert` : the next answer, if it is to a probe issued before the latest `Signal::Link`, changes
  and commands nothing;
* `stale_answer_inert` : so it is in every run in which each `Signal::Link(Up)` finds no probe out but the one
  the shell holds, still waiting;
* `queued_answer_counts` : an answer already queued when the link came back counts as a miss of the new link.
-/

namespace CitadelAgent.Supervisor

/-- What the agent's own code tells the supervisor. -/
inductive Signal
  | link (state : LinkStatus)
  | peerUp (peer : Cid) (path : P2pPathReport)
  | peerPath (peer : Cid) (path : P2pPathReport)
  | peerLost (peer : Cid)
  | peerReachable (peer : Cid)
  | peerReleased (peer : Cid)
  | interest (peer : Cid) (ttl : Duration)

/-- Answers from effects that were started earlier. -/
inductive Done
  | probe (epoch : Nat) (now : Millis) (outcome : ProbeOutcome)
  | dial (now : Millis) (peer : Cid) (outcome : DialOutcome)
  | forceFailed (now : Millis)
  | backlog (pending : List (Cid × UInt32))
  deriving DecidableEq

def Done.isProbe : Done → Bool
  | .probe _ _ _ => true
  | _ => false

structure Shell where
  core : Core
  policy : SupervisorPolicy
  /-- The abort handle the shell holds: that of the probe it spawned last. -/
  probe : Option Nat
  /-- Probe tasks whose answer has not come, with the epoch each was issued in. -/
  waiting : List (Nat × Nat)
  /-- Probe tasks that have their answer and are about to send it: the epoch and the answer. -/
  sending : List (Nat × Millis × ProbeOutcome)
  done : List Done
  dialing : List Cid
  forcing : Nat
  reading : Nat
  /-- Peers the last backlog read reported non-empty, so one that emptied is told so. -/
  queued : List Cid
  nextTask : Nat
  links : Nat
  ended : Bool

namespace Shell

def new (policy : SupervisorPolicy) (cid : Cid) : Shell where
  core := Core.new policy cid
  policy := policy
  probe := none
  waiting := []
  sending := []
  done := []
  dialing := []
  forcing := 0
  reading := 0
  queued := []
  nextTask := 0
  links := 0
  ended := false

def interestUntil (now : Millis) (ttl ceiling : Duration) : Millis := now.after (Duration.min ttl ceiling)

/-! ## Effects -/

/-- `Shell::execute`: what a command spawns. Path calls and reports leave nothing behind that the loop waits for. -/
def execute (s : Shell) : Command → Shell
  | .probeServer =>
    { s with
      probe := some s.nextTask, waiting := s.waiting ++ [(s.nextTask, s.links)], nextTask := s.nextTask + 1 }
  | .forceReconnect => { s with forcing := s.forcing + 1 }
  | .dialPeer peer => { s with dialing := s.dialing ++ [peer] }
  | .rebindTransports | .upgradePath _ _ | .report _ => s

def apply (s : Shell) (input : Input) : Shell :=
  (s.core.step input).2.foldl execute { s with core := (s.core.step input).1 }

/-- `AbortHandle::abort`: a task that is still waiting never answers; one past its wait is not stopped. -/
def abort (s : Shell) : Shell :=
  match s.probe with
  | some task => { s with probe := none, waiting := s.waiting.filter fun t => t.1 != task }
  | none => s

/-! ## The loop -/

def signalInput (s : Shell) (signal : Signal) (now : Millis) : Input :=
  match signal with
  | .link state => .serverLink now state
  | .peerUp peer path => .peerUp now peer path
  | .peerPath peer path => .peerPath now peer path
  | .peerLost peer => .peerLost now peer
  | .peerReachable peer => .peerReachable now peer
  | .peerReleased peer => .peerReleased now peer
  | .interest peer ttl => .interest peer (interestUntil now ttl s.policy.interestCeiling)

/-- A signal taken off its channel. The loop returns after the session's end has been applied. -/
def signal (s : Shell) (signal : Signal) (now : Millis) : Shell :=
  match signal with
  | .link state =>
    -- A probe out for the old link says nothing about the new one.
    let s := ({ s with links := s.links + 1 }).abort.apply (.serverLink now state)
    if state = .ended then { s with ended := true } else s
  | signal => s.apply (s.signalInput signal now)

/-- `Shell::finished`: the inputs an answer becomes. -/
def finished (s : Shell) : Done → List Input
  | .probe _ now outcome => [.serverProbe now outcome]
  | .dial now peer outcome => [.dialResult now peer outcome]
  | .forceFailed now => [.forceFailed now]
  | .backlog pending =>
    pending.map (fun (peer, count) => .backlog peer count) ++
      (s.queued.filter fun peer => !pending.any fun entry => entry.1 == peer).map fun peer => .backlog peer 0

/-- The oldest answer, taken off the `Done` channel. -/
def handleDone (s : Shell) : Shell :=
  match s.done with
  | [] => s
  | answer :: rest =>
    let queued := match answer with
      | .backlog pending => pending.map Prod.fst
      | _ => s.queued
    (s.finished answer).foldl apply { s with done := rest, queued := queued }

/-- What can happen next: an arm of the loop's `select!`, or progress of a spawned effect. -/
inductive Event
  | signal (signal : Signal) (now : Millis)
  | networkChange (now : Millis)
  | tick (now : Millis)
  | handleDone
  | backlogDue
  | probeReturns (task : Nat) (now : Millis) (outcome : ProbeOutcome)
  | probeSends (index : Nat)
  | dialReturns (peer : Cid) (now : Millis) (outcome : DialOutcome)
  | forceReturns (failed : Bool) (now : Millis)
  | backlogReturns (pending : Option (List (Cid × UInt32)))

def step (s : Shell) (event : Event) : Shell :=
  if s.ended then s
  else
    match event with
    | .signal signal now => s.signal signal now
    | .networkChange now => s.apply (.networkChanged now)
    | .tick now => s.apply (.tick now)
    | .handleDone => s.handleDone
    | .backlogDue => { s with reading := s.reading + 1 }
    | .probeReturns task now outcome =>
      match s.waiting.find? (fun t => t.1 == task) with
      | some (_, epoch) =>
        { s with
          waiting := s.waiting.filter (fun t => t.1 != task), sending := s.sending ++ [(epoch, now, outcome)] }
      | none => s
    | .probeSends index =>
      match s.sending[index]? with
      | some (epoch, now, outcome) =>
        { s with sending := s.sending.eraseIdx index, done := s.done ++ [.probe epoch now outcome] }
      | none => s
    | .dialReturns peer now outcome =>
      if peer ∈ s.dialing then { s with dialing := s.dialing.erase peer, done := s.done ++ [.dial now peer outcome] }
      else s
    | .forceReturns failed now =>
      if s.forcing = 0 then s
      else { s with forcing := s.forcing - 1, done := s.done ++ if failed then [.forceFailed now] else [] }
    | .backlogReturns pending =>
      if s.reading = 0 then s
      else { s with reading := s.reading - 1, done := s.done ++ pending.toList.map .backlog }

def run (s : Shell) (events : List Event) : Shell := events.foldl step s

theorem run_append (s : Shell) (xs ys : List Event) : s.run (xs ++ ys) = (s.run xs).run ys := List.foldl_append

/-! ## The property and its condition -/

/-- If the next answer is to a probe issued before the latest `Signal::Link`, the core neither counts it nor clears a
probe in flight, commands nothing of the link, and keeps its peers. -/
def StaleAnswerInert (s : Shell) : Prop :=
  ∀ epoch now outcome rest, s.ended = false → s.done = .probe epoch now outcome :: rest → epoch < s.links →
    (s.core.step (.serverProbe now outcome)).1.probe.missed = s.core.probe.missed ∧
    (s.core.step (.serverProbe now outcome)).1.probe.inFlight = s.core.probe.inFlight ∧
    (s.core.step (.serverProbe now outcome)).1.peers = s.core.peers ∧
    ∀ command ∈ (s.core.step (.serverProbe now outcome)).2,
      command ≠ .probeServer ∧ command ≠ .forceReconnect ∧ command ≠ .report .healed ∧
        ∀ peer udp, command ≠ .upgradePath peer udp

/-- No probe is out but the one whose abort handle the shell holds, and that one is still waiting. -/
structure OnlyHeldProbeOut (s : Shell) : Prop where
  waiting : ∀ t ∈ s.waiting, s.probe = some t.1
  sending : s.sending = []
  done : ∀ d ∈ s.done, d.isProbe = false

/-- Each `Signal::Link(Up)` of the run finds no probe out but the held, waiting one. -/
def LinkUpsClean (s : Shell) (events : List Event) : Prop :=
  ∀ earlier now later, events = earlier ++ .signal (.link .up) now :: later → (s.run earlier).OnlyHeldProbeOut

/-! ## What the core does under the shell -/

end Shell

variable {c : Core} {s : Shell}

namespace Core

def QuietDown (c : Core) : Prop := c.link = .reconnecting → c.probe.inFlight = false

theorem SameLink.quietDown {c' : Core} (h : SameLink c c') (hq : QuietDown c) : QuietDown c' := by
  unfold QuietDown
  rw [h.link, h.probe]
  exact hq

theorem handle_quietDown (hq : QuietDown c) (input : Input) (now : Millis) :
    QuietDown (c.handle input now).1 := by
  cases input with
  | tick at_ => exact (c.sameLink_settle now).quietDown hq
  | networkChanged at_ =>
    simp only [handle, networkChanged]
    split_ifs with h1 h2
    · exact fun h => absurd (h1.1.symm.trans h) (by decide)
    · exact fun h => absurd (h1.1.symm.trans h) (by decide)
    · exact hq
  | serverProbe at_ outcome =>
    simp only [handle, probed]
    split
    · exact fun _ => rfl
    rename_i hup
    have hup : c.link = .up := not_not.mp hup
    have hne : ∀ d : Core, d.link = c.link → QuietDown d := fun d hd h =>
      absurd (hup.symm.trans (hd.symm.trans h)) (by decide)
    split
    · exact hne _ rfl
    cases outcome with
    | ok rtt =>
      dsimp only
      split <;> exact hne _ (sameLink_rearmRelayed _).link
    | error => exact hne _ rfl
    | timeout =>
      dsimp only
      split_ifs <;> exact hne _ rfl
  | serverLink at_ state =>
    cases state with
    | up =>
      simp only [handle, linkChanged]
      split <;> exact fun h => by simp at h
    | reconnecting =>
      simp only [handle, linkChanged, loseLink]
      have hp := congrArg Probe.inFlight
        (sameLink_loseConnected { c with link := .reconnecting, forcing := false, probe := {} }).probe
      split <;> exact fun _ => hp
    | ended => exact fun h => absurd h (by simp [handle, linkChanged])
  | forceFailed at_ => exact fun _ => rfl
  | peerLost at_ peer => exact (c.sameLink_lost peer now).quietDown hq
  | peerReleased at_ peer => exact (c.sameLink_released peer now).quietDown hq
  | peerUp at_ peer path => exact (c.sameLink_up peer path now).quietDown hq
  | peerReachable at_ peer => exact (c.sameLink_reachable peer now).quietDown hq
  | peerPath at_ peer path => exact (c.sameLink_pathChanged peer path now).quietDown hq
  | dialResult at_ peer outcome => exact (c.sameLink_dialed peer outcome now).quietDown hq
  | backlog peer pending => exact hq
  | interest peer until_ => exact hq

theorem step_quietDown (hq : QuietDown c) (input : Input) : QuietDown (c.step input).1 := by
  by_cases hend : c.link = .ended
  · rw [step_of_ended hend]
    exact hq
  rw [step_eq hend]
  have hh : QuietDown (handle { c with now := c.timeOf input } input (c.timeOf input)).1 :=
    handle_quietDown (show QuietDown { c with now := c.timeOf input } from hq) input (c.timeOf input)
  intro h
  -- a link that is down after `drive` was down before it, and then `drive` did nothing
  have hdown : (handle { c with now := c.timeOf input } input (c.timeOf input)).1.link = .reconnecting :=
    (drive_link _ (c.timeOf input)).2.1.symm.trans h
  have hidle : ∀ d : Core, d.link = .reconnecting → d.drive (c.timeOf input) = (d, []) := by
    intro d hd
    simp [drive, hd]
  rw [hidle _ hdown]
  exact hh hdown

theorem step_serverProbe_down (hdown : c.link = .reconnecting) (now : Millis) (outcome : ProbeOutcome) :
    c.step (.serverProbe now outcome) = ({ c with now := now, probe := { c.probe with inFlight := false } }, []) := by
  simp [step, handle, probed, drive, timeOf, hdown]

end Core

namespace Shell

/-! ## The probes that are out -/

def Done.epoch? : Done → Option Nat
  | .probe epoch _ _ => some epoch
  | _ => none

def out (s : Shell) : List Nat :=
  s.waiting.map Prod.snd ++ s.sending.map Prod.fst ++ s.done.filterMap Done.epoch?

structure Inv (s : Shell) : Prop where
  fresh : s.core.link = .up → ∀ epoch ∈ s.out, s.links ≤ epoch
  quiet : s.core.QuietDown
  ended : s.core.link = .ended → s.ended = true

theorem execute_frame (s : Shell) (command : Command) :
    (s.execute command).core = s.core ∧ (s.execute command).links = s.links ∧
      (s.execute command).ended = s.ended ∧ ∀ epoch ∈ (s.execute command).out, epoch ∈ s.out ∨ epoch = s.links := by
  cases command with
  | probeServer =>
    refine ⟨rfl, rfl, rfl, fun epoch h => ?_⟩
    simp only [execute, out, List.map_append, List.map_cons, List.map_nil, List.mem_append, List.mem_singleton] at h ⊢
    tauto
  | _ => exact ⟨rfl, rfl, rfl, fun epoch h => .inl h⟩

theorem foldl_execute_frame (commands : List Command) (s : Shell) :
    (commands.foldl execute s).core = s.core ∧ (commands.foldl execute s).links = s.links ∧
      (commands.foldl execute s).ended = s.ended ∧
      ∀ epoch ∈ (commands.foldl execute s).out, epoch ∈ s.out ∨ epoch = s.links := by
  induction commands generalizing s with
  | nil => exact ⟨rfl, rfl, rfl, fun epoch h => .inl h⟩
  | cons command commands ih =>
    obtain ⟨h1, h2, h3, h4⟩ := s.execute_frame command
    obtain ⟨i1, i2, i3, i4⟩ := ih (s.execute command)
    refine ⟨i1.trans h1, i2.trans h2, i3.trans h3, fun epoch h => ?_⟩
    rcases i4 epoch h with h | h
    · exact h4 epoch h
    · exact .inr (h.trans h2)

theorem apply_frame (s : Shell) (input : Input) :
    (s.apply input).core = (s.core.step input).1 ∧ (s.apply input).links = s.links ∧
      (s.apply input).ended = s.ended ∧ ∀ epoch ∈ (s.apply input).out, epoch ∈ s.out ∨ epoch = s.links :=
  foldl_execute_frame _ _

theorem Inv.apply (inv : Inv s) (input : Input) (h : ∀ now state, input ≠ .serverLink now state) :
    Inv (s.apply input) := by
  obtain ⟨hcore, hlinks, hended, hout⟩ := s.apply_frame input
  have hlink := s.core.step_link_of_ne input h
  refine ⟨fun hup epoch hmem => ?_, ?_, fun he => ?_⟩
  · rw [hlinks]
    rcases hout epoch hmem with hmem | rfl
    · exact inv.fresh (by rw [← hlink, ← hcore]; exact hup) epoch hmem
    · exact le_rfl
  · rw [hcore]
    exact Core.step_quietDown inv.quiet input
  · rw [hended]
    exact inv.ended (by rw [← hlink, ← hcore]; exact he)

theorem Inv.foldl_apply (inv : Inv s) (inputs : List Input)
    (h : ∀ input ∈ inputs, ∀ now state, input ≠ .serverLink now state) : Inv (inputs.foldl Shell.apply s) := by
  induction inputs generalizing s with
  | nil => exact inv
  | cons input inputs ih =>
    exact ih (inv.apply input (h input (by simp))) fun i hi => h i (by simp [hi])

theorem Inv.shrink {s' : Shell} (inv : Inv s) (hcore : s'.core = s.core) (hlinks : s'.links = s.links)
    (hended : s'.ended = s.ended) (hout : ∀ epoch ∈ s'.out, epoch ∈ s.out) : Inv s' := by
  refine ⟨fun hup epoch h => ?_, hcore ▸ inv.quiet, fun h => ?_⟩
  · rw [hlinks]
    exact inv.fresh (hcore ▸ hup) epoch (hout epoch h)
  · rw [hended]
    exact inv.ended (hcore ▸ h)

theorem abort_frame (s : Shell) :
    s.abort.core = s.core ∧ s.abort.links = s.links ∧ s.abort.ended = s.ended ∧ ∀ epoch ∈ s.abort.out, epoch ∈ s.out := by
  unfold abort
  split
  · refine ⟨rfl, rfl, rfl, fun epoch h => ?_⟩
    simp only [out, List.mem_append, List.mem_map] at h ⊢
    rcases h with (⟨t, ht, rfl⟩ | h) | h
    · exact .inl (.inl ⟨t, (List.mem_filter.mp ht).1, rfl⟩)
    · exact .inl (.inr h)
    · exact .inr h
  · exact ⟨rfl, rfl, rfl, fun epoch h => h⟩

theorem OnlyHeldProbeOut.abort_out (h : OnlyHeldProbeOut s) (links : Nat) :
    ({ s with links := links } : Shell).abort.out = [] := by
  have hdone : s.done.filterMap Done.epoch? = [] := by
    refine List.filterMap_eq_nil_iff.mpr fun d hd => ?_
    have := h.done d hd
    cases d <;> simp_all [Done.isProbe, Done.epoch?]
  unfold abort out
  cases hp : s.probe with
  | none =>
    have hw : s.waiting = [] := List.eq_nil_iff_forall_not_mem.mpr fun t ht => by
      have := h.waiting t ht
      simp [hp] at this
    simp [hw, h.sending, hdone]
  | some task =>
    have hw : s.waiting.filter (fun t => t.1 != task) = [] := List.filter_eq_nil_iff.mpr fun t ht => by
      have := h.waiting t ht
      simp_all
    simp [hw, h.sending, hdone]

theorem Inv.signal (inv : Inv s) (hrun : s.ended = false) (signal : Signal) (now : Millis)
    (hclean : signal = .link .up → s.OnlyHeldProbeOut) : Inv (s.signal signal now) := by
  cases signal with
  | link state =>
    have hne : s.core.link ≠ .ended := fun h => by simp [inv.ended h] at hrun
    obtain ⟨hacore, halinks, haended, -⟩ := ({ s with links := s.links + 1 } : Shell).abort_frame
    generalize ha : ({ s with links := s.links + 1 } : Shell).abort = a at *
    obtain ⟨hcore, hlinks, hended, hout⟩ := a.apply_frame (.serverLink now state)
    have hlink : (a.apply (.serverLink now state)).core.link = state := by
      rw [hcore, hacore]
      exact Core.step_serverLink_link hne now state
    have hquiet : (a.apply (.serverLink now state)).core.QuietDown := by
      rw [hcore, hacore]
      exact Core.step_quietDown inv.quiet _
    have hfresh : (a.apply (.serverLink now state)).core.link = .up →
        ∀ epoch ∈ (a.apply (.serverLink now state)).out, (a.apply (.serverLink now state)).links ≤ epoch := by
      intro hup epoch hmem
      have hstate : state = .up := hlink.symm.trans hup
      subst hstate
      have hnone : a.out = [] := ha ▸ (hclean rfl).abort_out (s.links + 1)
      rcases hout epoch hmem with h | h
      · simp [hnone] at h
      · rw [hlinks, h]
    simp only [Shell.signal, ha]
    split
    · exact ⟨hfresh, hquiet, fun _ => rfl⟩
    · rename_i hstate
      exact ⟨hfresh, hquiet, fun h => absurd (hlink.symm.trans h) hstate⟩
  | _ => exact inv.apply _ (by simp [signalInput])

theorem Inv.handleDone (inv : Inv s) : Inv s.handleDone := by
  unfold Shell.handleDone
  split
  · exact inv
  rename_i answer rest hd
  have hrest : ∀ queued, Inv { s with done := rest, queued := queued } := by
    refine fun queued => inv.shrink rfl rfl rfl fun epoch h => ?_
    simp only [out, hd, List.mem_append, List.filterMap_cons] at h ⊢
    rcases h with h | h
    · exact .inl h
    · refine .inr ?_
      split
      · exact h
      · exact List.mem_cons_of_mem _ h
  refine (hrest _).foldl_apply _ fun input hi => ?_
  cases answer with
  | backlog pending =>
    simp only [finished, List.mem_append, List.mem_map] at hi
    rcases hi with ⟨x, -, rfl⟩ | ⟨x, -, rfl⟩ <;> exact fun now state h => by cases h
  | _ =>
    simp only [finished, List.mem_singleton] at hi
    subst hi
    exact fun now state h => by cases h

theorem Inv.step (inv : Inv s) (event : Event)
    (hclean : ∀ now, event = .signal (.link .up) now → s.OnlyHeldProbeOut) : Inv (s.step event) := by
  unfold Shell.step
  split
  · exact inv
  rename_i hrun
  have hrun : s.ended = false := by simpa using hrun
  cases event with
  | signal signal now => exact inv.signal hrun signal now fun h => hclean now (by rw [h])
  | networkChange now => exact inv.apply _ fun _ _ h => by cases h
  | tick now => exact inv.apply _ fun _ _ h => by cases h
  | handleDone => exact inv.handleDone
  | backlogDue => exact inv.shrink rfl rfl rfl fun _ h => h
  | probeReturns task now outcome =>
    dsimp only
    split
    · rename_i id epoch hfind
      refine inv.shrink rfl rfl rfl fun e h => ?_
      have hmem : (id, epoch) ∈ s.waiting := List.mem_of_find?_eq_some hfind
      simp only [out, List.mem_append, List.mem_map, List.map_append, List.map_cons, List.map_nil,
        List.mem_singleton] at h ⊢
      rcases h with (⟨t, ht, rfl⟩ | h | rfl) | h
      · exact .inl (.inl ⟨t, (List.mem_filter.mp ht).1, rfl⟩)
      · exact .inl (.inr h)
      · exact .inl (.inl ⟨_, hmem, rfl⟩)
      · exact .inr h
    · exact inv
  | probeSends index =>
    dsimp only
    split
    · rename_i epoch now outcome hget
      refine inv.shrink rfl rfl rfl fun e h => ?_
      have hmem : (epoch, now, outcome) ∈ s.sending := List.mem_of_getElem? hget
      simp only [out, List.mem_append, List.mem_map, List.filterMap_append, List.filterMap_cons, Done.epoch?,
        List.filterMap_nil, List.mem_singleton] at h ⊢
      rcases h with (h | ⟨t, ht, rfl⟩) | h | rfl
      · exact .inl (.inl h)
      · exact .inl (.inr ⟨t, List.mem_of_mem_eraseIdx ht, rfl⟩)
      · exact .inr h
      · exact .inl (.inr ⟨_, hmem, rfl⟩)
    · exact inv
  | dialReturns peer now outcome =>
    dsimp only
    split
    · exact inv.shrink rfl rfl rfl fun e h => by simpa [out, Done.epoch?] using h
    · exact inv
  | forceReturns failed now =>
    dsimp only
    split
    · exact inv
    · refine inv.shrink rfl rfl rfl fun e h => ?_
      cases failed <;> simpa [out, Done.epoch?] using h
  | backlogReturns pending =>
    dsimp only
    split
    · exact inv
    · refine inv.shrink rfl rfl rfl fun e h => ?_
      cases pending <;> simpa [out, Done.epoch?] using h

theorem inv_new (policy : SupervisorPolicy) (cid : Cid) : Inv (new policy cid) :=
  ⟨fun _ _ h => by simp [out, new] at h, fun h => by simp [new, Core.new] at h,
    fun h => by simp [new, Core.new] at h⟩

theorem run_inv (policy : SupervisorPolicy) (cid : Cid) (events : List Event)
    (hclean : LinkUpsClean (new policy cid) events) : Inv ((new policy cid).run events) := by
  induction events using List.reverseRecOn with
  | nil => exact inv_new policy cid
  | append_singleton events event ih =>
    rw [run_append]
    refine (ih fun e now l h => hclean e now (l ++ [event]) (by rw [h, List.append_assoc]; rfl)).step event ?_
    intro now h
    exact hclean events now [] (by rw [h])

theorem Inv.staleAnswerInert (inv : Inv s) : StaleAnswerInert s := by
  intro epoch now outcome rest hrun hdone hstale
  have hout : epoch ∈ s.out := by simp [out, hdone, Done.epoch?]
  have hdown : s.core.link = .reconnecting := by
    cases hl : s.core.link with
    | up => exact absurd (inv.fresh hl epoch hout) (by omega)
    | reconnecting => rfl
    | ended => simp [inv.ended hl] at hrun
  rw [Core.step_serverProbe_down hdown]
  exact ⟨rfl, (inv.quiet hdown).symm, rfl, fun command h => by simp at h⟩

/-- **A probe of the old link says nothing about the new one**, in every state of every run in which each
`Signal::Link(Up)` finds no probe out but the one the shell holds, still waiting. -/
theorem stale_answer_inert (policy : SupervisorPolicy) (cid : Cid) (events : List Event)
    (hclean : LinkUpsClean (new policy cid) events) :
    ∀ earlier later, events = earlier ++ later → StaleAnswerInert ((new policy cid).run earlier) := by
  intro earlier later hsplit
  refine (run_inv policy cid earlier fun e now l h => ?_).staleAnswerInert
  exact hclean e now (l ++ later) (by rw [hsplit, h, List.append_assoc]; rfl)

/-- A probe still waiting when the link drops is aborted with it, and the link comes back with none out. -/
theorem stale_answer_inert_aborted :
    LinkUpsClean (new agentSupervisor 1)
      [.networkChange ⟨5⟩, .signal (.link .reconnecting) ⟨6⟩, .probeReturns 0 ⟨7⟩ .timeout,
        .signal (.link .up) ⟨8⟩, .handleDone] ∧
    StaleAnswerInert ((new agentSupervisor 1).run
      [.networkChange ⟨5⟩, .signal (.link .reconnecting) ⟨6⟩, .probeReturns 0 ⟨7⟩ .timeout,
        .signal (.link .up) ⟨8⟩]) := by
  have hclean : LinkUpsClean (new agentSupervisor 1)
      [.networkChange ⟨5⟩, .signal (.link .reconnecting) ⟨6⟩, .probeReturns 0 ⟨7⟩ .timeout,
        .signal (.link .up) ⟨8⟩, .handleDone] := by
    intro earlier now later h
    match earlier, h with
    | [], h | [_], h | [_, _], h => simp at h
    | [a, b, c], h =>
      simp only [List.cons_append, List.nil_append, List.cons.injEq] at h
      obtain ⟨rfl, rfl, rfl, -⟩ := h
      exact ⟨by decide, by decide, by decide⟩
    | [_, _, _, _], h => simp at h
    | _ :: _ :: _ :: _ :: _ :: _, h => simp at h
  exact ⟨hclean, stale_answer_inert agentSupervisor 1 _ hclean _ [.handleDone] rfl⟩

/-- The probe of the old link times out, and its answer is queued when the link drops and comes back: it then
counts as a miss of the new link. -/
theorem queued_answer_counts :
    ¬ StaleAnswerInert ((new agentSupervisor 1).run
      [.networkChange ⟨5⟩, .probeReturns 0 ⟨6⟩ .timeout, .probeSends 0, .signal (.link .reconnecting) ⟨7⟩,
        .signal (.link .up) ⟨8⟩]) := by
  intro h
  have := h 0 ⟨6⟩ .timeout [] (by decide) (by decide) (by decide)
  exact absurd this.1 (by decide)

end Shell

end CitadelAgent.Supervisor
