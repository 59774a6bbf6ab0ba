import CitadelAgent.Supervisor.Types

/-!
# Supervisor: the core

`kernel/supervisor/core` as a state machine: `Core.step` takes one input, stamped with the time it
happened, and returns the core after it with the commands it provokes.

* `link.rs` : `networkChanged`, `probed`, `rearmRelayed`, `linkChanged`, `forceFailed`, `loseLink`;
* `handlers.rs` : `handle`, `settle`, `lost`, `released`, `reachable`, `up`, `pathChanged`, `dialed`;
* `drive.rs` : `drive` (what is due now) and `nextWake`;
* `forPeers` : the loop `for (cid, peer) in self.peers.iter_mut()` with the generator threaded
  through it, in the order of the `BTreeMap`.
-/

namespace CitadelAgent.Supervisor

structure Probe where
  /-- `none` until the first input says what time it is. -/
  nextAt : Option Millis := none
  inFlight : Bool := false
  missed : UInt32 := 0
  /-- The network changed while a probe was out: its answer predates the change. -/
  recheck : Bool := false

structure Core where
  policy : SupervisorPolicy
  link : LinkStatus
  now : Millis
  probe : Probe
  peers : Std.ExtTreeMap Cid Peer
  rng : Rng
  healing : Bool
  /-- `ForceReconnect` is out and not yet answered by the link dropping or failing. -/
  forcing : Bool
  /-- The network changed and no probe has since shown the link alive. -/
  afterChange : Bool

namespace Core

def new (policy : SupervisorPolicy) (cid : Cid) : Core where
  policy := policy
  link := .up
  now := ⟨0⟩
  probe := {}
  peers := ∅
  rng := Rng.seeded policy.jitterSeed cid
  healing := false
  forcing := false
  afterChange := false

/-- `Core::peer`: the entry of `peer`, made on first mention. -/
def peer (c : Core) (peer : Cid) : Peer := (c.peers[peer]?).getD (Peer.new c.now)

def setPeer (c : Core) (cid : Cid) (entry : Peer) : Core := { c with peers := c.peers.insert cid entry }

/-- One pass over the peers in key order, the generator threaded through. -/
def forPeers (f : Cid → Peer → Rng → Peer × Rng × List Command) (c : Core) : Core × List Command :=
  c.peers.keys.foldl (fun acc cid =>
    match acc.1.peers[cid]? with
    | some entry =>
      let (entry, rng, commands) := f cid entry acc.1.rng
      ({ acc.1 with peers := acc.1.peers.insert cid entry, rng := rng }, acc.2 ++ commands)
    | none => acc) (c, [])

/-! ## The server link -/

def networkChanged (c : Core) : Core × List Command :=
  let c := { c with probe := { c.probe with missed := 0 }, afterChange := true }
  if c.link = .up ∧ c.forcing = false then
    if c.probe.inFlight then ({ c with probe := { c.probe with recheck := true } }, [.rebindTransports])
    else ({ c with probe := { c.probe with inFlight := true } }, [.rebindTransports, .probeServer])
  else (c, [.rebindTransports])

/-- What `rearm_relayed` does to one peer. -/
def rearmPeer (policy : SupervisorPolicy) (now : Millis) (cid : Cid) (entry : Peer) (rng : Rng) :
    Peer × Rng × List Command :=
  if entry.onRelay then
    let (wait, rng) := rng.delay policy.upgradeBackoff 0 policy.jitterPermille
    ({ entry with upgrade := { entry.upgrade with attempts := 0, nextAt := now.after wait } }, rng,
      [.upgradePath cid true])
  else (entry, rng, [])

/-- The server answered after a network change: the paths that fell back to the relay may climb off it. -/
def rearmRelayed (c : Core) : Core × List Command :=
  if c.afterChange then ({ c with afterChange := false }).forPeers (rearmPeer c.policy c.now)
  else (c, [])

def probed (c : Core) (outcome : ProbeOutcome) : Core × List Command :=
  let c := { c with probe := { c.probe with inFlight := false } }
  if c.link ≠ .up then (c, [])
  else if c.probe.recheck then
    ({ c with probe := { c.probe with recheck := false, inFlight := true } }, [.probeServer])
  else
    match outcome with
    | .ok _ =>
      let c := { c with probe := { c.probe with missed := 0, nextAt := some (c.now.after c.policy.probeInterval) } }
      let (c, commands) := c.rearmRelayed
      if c.healing then ({ c with healing := false }, commands ++ [.report .healed]) else (c, commands)
    | .error =>
      ({ c with probe := { c.probe with nextAt := some (c.now.after c.policy.probeInterval) } }, [])
    | .timeout =>
      let missed := c.probe.missed + 1
      if missed < c.policy.missedProbes then
        ({ c with probe := { c.probe with missed := missed, inFlight := true } }, [.probeServer])
      else
        let c := { c with probe := { c.probe with missed := 0 }, afterChange := false, forcing := true }
        if c.healing then (c, [.forceReconnect])
        else ({ c with healing := true }, [.forceReconnect, .report (.healing .probesMissed)])

/-! ## Peers -/

/-- A path that has held for `stableAfter` forgets its upgrade backoff. -/
def settlePeer (stable : Duration) (now : Millis) (entry : Peer) : Peer :=
  let held := entry.connected && entry.since.any (fun since => decide (stable ≤ now.since since))
  if held && entry.path != some .serverRelay then { entry with upgrade := { entry.upgrade with attempts := 0 } }
  else entry

def settle (c : Core) (now : Millis) : Core :=
  (c.forPeers fun _ entry rng => (settlePeer c.policy.stableAfter now entry, rng, [])).1

def lost (c : Core) (cid : Cid) (now : Millis) : Core :=
  let entry := c.peer cid
  let (entry, rng) :=
    if entry.connected then
      -- Lost soon after it came up means flapping: wait the backoff before redialling.
      let stable := entry.since.any (fun since => decide (c.policy.stableAfter ≤ now.since since))
      if stable then
        ({ entry with dial := { entry.dial with attempts := 0, nextAt := now }, lostAt := some now }, c.rng)
      else
        let (wait, rng) := c.rng.delay c.policy.dialBackoff entry.dial.attempts c.policy.jitterPermille
        ({ entry with
            dial := { entry.dial with
              nextAt := now.after wait, attempts := saturatingSucc32 entry.dial.attempts },
            lostAt := some now }, rng)
    else (entry, c.rng)
  let entry := { entry with
    connected := false, path := none, since := none, dial := { entry.dial with inFlight := false } }
  { c.setPeer cid entry with rng := rng }

def released (c : Core) (cid : Cid) (now : Millis) : Core :=
  let c := c.lost cid now
  c.setPeer cid { c.peer cid with lostAt := none, interestUntil := none }

def reachable (c : Core) (cid : Cid) (now : Millis) : Core :=
  let entry := c.peer cid
  let entry := { entry with failedDials := 0, dial := { entry.dial with attempts := 0 } }
  c.setPeer cid (if entry.connected then entry else { entry with dial := { entry.dial with nextAt := now } })

def pathChanged (c : Core) (cid : Cid) (path : P2pPathReport) (now : Millis) : Core :=
  let entry := c.peer cid
  let wasRelay := entry.onRelay
  let entry := { entry with path := some path }
  if path = .serverRelay ∧ wasRelay = false then
    -- Newly on the relay: the SDK's own campaign gets the first chance.
    let (wait, rng) := c.rng.delay c.policy.upgradeBackoff entry.upgrade.attempts c.policy.jitterPermille
    { c.setPeer cid { entry with upgrade := { entry.upgrade with nextAt := now.after wait } } with rng := rng }
  else c.setPeer cid entry

def up (c : Core) (cid : Cid) (path : P2pPathReport) (now : Millis) : Core × List Command :=
  let entry := c.peer cid
  let restored := entry.lostAt.isSome
  let entry := { entry with
    connected := true, since := some now, dial := { entry.dial with inFlight := false }, failedDials := 0,
    dialingReported := false, degradedReported := false, lostAt := none }
  let c := (c.setPeer cid entry).pathChanged cid path now
  (c, if restored then [.report (.peerRestored cid path)] else [])

def dialed (c : Core) (cid : Cid) (outcome : DialOutcome) (now : Millis) : Core × List Command :=
  let entry := c.peer cid
  let entry := { entry with dial := { entry.dial with inFlight := false } }
  match outcome with
  | .connected =>
    -- Until the path report that refines this arrives, the connection is on the server relay.
    if entry.connected then (c.setPeer cid entry, []) else (c.setPeer cid entry).up cid .serverRelay now
  | .inProgress =>
    let (wait, rng) := c.rng.delay c.policy.dialBackoff entry.dial.attempts c.policy.jitterPermille
    ({ c.setPeer cid { entry with dial := { entry.dial with nextAt := now.after wait } } with rng := rng }, [])
  | .failed =>
    let failedDials := saturatingSucc32 entry.failedDials
    let (wait, rng) :=
      if c.policy.unreachableAfter ≤ failedDials then
        c.rng.delay c.policy.unreachableBackoff (failedDials - c.policy.unreachableAfter) c.policy.jitterPermille
      else c.rng.delay c.policy.dialBackoff entry.dial.attempts c.policy.jitterPermille
    let entry' := { entry with
      failedDials := failedDials,
      dial := { entry.dial with nextAt := now.after wait, attempts := saturatingSucc32 entry.dial.attempts },
      degradedReported := true }
    ({ c.setPeer cid entry' with rng := rng },
      if entry.degradedReported then [] else [.report (.degraded cid)])

/-! ## The link's own changes -/

def loseConnected (c : Core) : Core :=
  (c.peers.keys.filter fun cid => (c.peer cid).connected).foldl (fun c cid => c.lost cid c.now) c

def loseLink (c : Core) (cause : HealCause) : Core × List Command :=
  let c := ({ c with link := .reconnecting, forcing := false, probe := {} }).loseConnected
  if c.healing then (c, []) else ({ c with healing := true }, [.report (.healing cause)])

def linkChanged (c : Core) (state : LinkStatus) (now : Millis) : Core × List Command :=
  match state with
  | .up =>
    let c := { c with
      link := .up, forcing := false, probe := { nextAt := some (now.after c.policy.probeInterval) } }
    if c.healing then ({ c with healing := false }, [.report .healed]) else (c, [])
  | .reconnecting => c.loseLink .linkLost
  | .ended => ({ c with link := .ended, peers := ∅ }, [])

def forceFailed (c : Core) (now : Millis) : Core × List Command :=
  ({ c with forcing := false, probe := { nextAt := some (now.after c.policy.probeInterval) } }, [])

/-! ## Steps -/

def handle (c : Core) (input : Input) (now : Millis) : Core × List Command :=
  match input with
  | .tick _ => (c.settle now, [])
  | .networkChanged _ => c.networkChanged
  | .serverProbe _ outcome => c.probed outcome
  | .serverLink _ state => c.linkChanged state now
  | .forceFailed _ => c.forceFailed now
  | .peerLost _ peer => (c.lost peer now, [])
  | .peerReleased _ peer => (c.released peer now, [])
  | .peerUp _ peer path => c.up peer path now
  | .peerReachable _ peer => (c.reachable peer now, [])
  | .peerPath _ peer path => (c.pathChanged peer path now, [])
  | .dialResult _ peer outcome => c.dialed peer outcome now
  | .backlog peer pending => (c.setPeer peer { c.peer peer with backlog := pending }, [])
  | .interest peer until_ =>
    let entry := c.peer peer
    (c.setPeer peer { entry with
      interestUntil := some (entry.interestUntil.elim until_ fun had => had.max until_) }, [])

/-- Whether `drive` dials `entry` now. -/
def dialDue (policy : SupervisorPolicy) (now : Millis) (entry : Peer) : Bool :=
  policy.dialPeers && !entry.connected && !entry.dial.inFlight && entry.wanted now policy.redialWindow &&
    decide (entry.dial.nextAt ≤ now)

/-- What `drive` does to one peer: the dial, then the path upgrade. -/
def drivePeer (policy : SupervisorPolicy) (now : Millis) (cid : Cid) (entry : Peer) (rng : Rng) :
    Peer × Rng × List Command :=
  let (entry, dials) :=
    if dialDue policy now entry then
      ({ entry with dial := { entry.dial with inFlight := true }, dialingReported := true },
        (if entry.dialingReported then [] else [.report (.peerDialing cid)]) ++ [.dialPeer cid])
    else (entry, [])
  if entry.onRelay && entry.inUse now && decide (entry.upgrade.nextAt ≤ now) then
    let attempts := saturatingSucc32 entry.upgrade.attempts
    let (wait, rng) := rng.delay policy.upgradeBackoff attempts policy.jitterPermille
    ({ entry with upgrade := { entry.upgrade with attempts := attempts, nextAt := now.after wait } }, rng,
      dials ++ [.upgradePath cid true])
  else (entry, rng, dials)

/-- The first half of `drive`: arm the probe if nothing has yet, and send it when it is due. -/
def driveProbe (c : Core) (now : Millis) : Core × List Command :=
  let armed := c.probe.nextAt.getD (now.after c.policy.probeInterval)
  if c.probe.inFlight = false ∧ armed ≤ now then
    ({ c with probe := { c.probe with nextAt := some armed, inFlight := true } }, [.probeServer])
  else ({ c with probe := { c.probe with nextAt := some armed } }, [])

def drive (c : Core) (now : Millis) : Core × List Command :=
  if c.link ≠ .up ∨ c.forcing then (c, [])
  else
    let (c, probes) := c.driveProbe now
    let (c, commands) := c.forPeers (drivePeer c.policy now)
    (c, probes ++ commands)

def timeOf (c : Core) : Input → Millis
  | .tick now | .networkChanged now | .serverProbe now _ | .serverLink now _ | .forceFailed now
  | .peerLost now _ | .peerReleased now _ | .peerUp now _ _ | .peerReachable now _ | .peerPath now _ _
  | .dialResult now _ _ => now
  | .backlog _ _ | .interest _ _ => c.now

def step (c : Core) (input : Input) : Core × List Command :=
  if c.link = .ended then (c, [])
  else
    let now := c.timeOf input
    let (c, commands) := ({ c with now := now }).handle input now
    let (c, due) := c.drive now
    (c, commands ++ due)

/-- The earliest time something becomes due without any input, for the shell to sleep to. -/
def nextWake (c : Core) : Option Millis :=
  if c.link ≠ .up ∨ c.forcing then none
  else
    let probe := if c.probe.inFlight then none else c.probe.nextAt
    let peers := c.peers.toList.flatMap fun (_, entry) =>
      [if c.policy.dialPeers && !entry.connected && !entry.dial.inFlight &&
          entry.wanted c.now c.policy.redialWindow then some entry.dial.nextAt else none,
        if entry.onRelay && entry.inUse c.now then some entry.upgrade.nextAt else none]
    (probe :: peers).foldl (fun best due =>
      match best, due with
      | some a, some b => some (if b < a then b else a)
      | some a, none => some a
      | none, due => due) none

/-! ## Runs -/

/-- The core after `inputs`. -/
def run (c : Core) (inputs : List Input) : Core := inputs.foldl (fun c input => (c.step input).1) c

/-- Everything the steps of `inputs` command, in order. -/
def commandsOf (c : Core) : List Input → List Command
  | [] => []
  | input :: inputs => (c.step input).2 ++ (c.step input).1.commandsOf inputs

variable (c : Core)

@[simp] theorem run_nil : c.run [] = c := rfl

@[simp] theorem run_cons (input : Input) (inputs : List Input) :
    c.run (input :: inputs) = (c.step input).1.run inputs := rfl

theorem run_append (xs ys : List Input) : c.run (xs ++ ys) = (c.run xs).run ys :=
  List.foldl_append

theorem run_snoc (inputs : List Input) (input : Input) :
    c.run (inputs ++ [input]) = ((c.run inputs).step input).1 := by
  rw [run_append]
  rfl

theorem commandsOf_append (xs ys : List Input) :
    c.commandsOf (xs ++ ys) = c.commandsOf xs ++ (c.run xs).commandsOf ys := by
  induction xs generalizing c with
  | nil => rfl
  | cons x xs ih => simp [commandsOf, ih]

end Core

end CitadelAgent.Supervisor
