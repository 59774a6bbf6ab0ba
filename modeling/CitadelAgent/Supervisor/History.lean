import CitadelAgent.Supervisor.Dials
import CitadelAgent.Supervisor.Probes

/-!
# Supervisor: one peer through a run

What the core remembers of a peer `p` is spread over an entry that thirteen inputs, a loop over the
peers and `drive` write to. `Ledger` is the part of it that says whether `p` is connected, wanted and
reported; `Ledger.next` says in one place what an input does to it.

* `connectedBy`, `latestBacklog` : what the run itself says, read off the inputs;
* `LostSince`, `InterestSince` : a loss, or an interest, that nothing since has taken back;
* `run_history` : the ledger after a run says exactly what the run's inputs do.
-/

namespace CitadelAgent.Supervisor

/-! ## What an input is to `p` -/

namespace Input

def time? : Input → Option Millis
  | .tick now | .networkChanged now | .serverProbe now _ | .serverLink now _ | .forceFailed now
  | .peerLost now _ | .peerReleased now _ | .peerUp now _ _ | .peerReachable now _ | .peerPath now _ _
  | .dialResult now _ _ => some now
  | .backlog _ _ | .interest _ _ => none

/-- `p` comes up: its own `PeerUp`, or a dial to it that connected. -/
def brings (p : Cid) : Input → Bool
  | .peerUp _ q _ => decide (q = p)
  | .dialResult _ q .connected => decide (q = p)
  | _ => false

/-- `p` is lost if it is connected: its own `PeerLost`, or the link going down. -/
def loses (p : Cid) : Input → Bool
  | .peerLost _ q => decide (q = p)
  | .serverLink _ .reconnecting => true
  | _ => false

def releases (p : Cid) : Input → Bool
  | .peerReleased _ q => decide (q = p)
  | _ => false

/-- A dial to `p` that failed. -/
def failsDial (p : Cid) : Input → Bool
  | .dialResult _ q .failed => decide (q = p)
  | _ => false

def ends : Input → Bool
  | .serverLink _ .ended => true
  | _ => false

end Input

/-! ## The ledger -/

/-- What decides whether a peer is connected, wanted and reported. -/
structure Ledger where
  connected : Bool
  lostAt : Option Millis
  backlog : UInt32
  interestUntil : Option Millis
  degradedReported : Bool

namespace Ledger

def empty : Ledger := ⟨false, none, 0, none, false⟩

/-- What an input acted on at `now` does to `p`'s ledger. -/
def next (p : Cid) (now : Millis) (l : Ledger) : Input → Ledger
  | .serverLink _ .reconnecting =>
    if l.connected then { l with connected := false, lostAt := some now } else l
  | .peerLost _ q =>
    if q = p then { l with connected := false, lostAt := if l.connected then some now else l.lostAt } else l
  | .peerReleased _ q =>
    if q = p then { l with connected := false, lostAt := none, interestUntil := none } else l
  | .peerUp _ q _ => if q = p then { l with connected := true, lostAt := none, degradedReported := false } else l
  | .dialResult _ q .connected =>
    if q = p ∧ l.connected = false then { l with connected := true, lostAt := none, degradedReported := false }
    else l
  | .dialResult _ q .failed => if q = p then { l with degradedReported := true } else l
  | .backlog q pending => if q = p then { l with backlog := pending } else l
  | .interest q until_ =>
    if q = p then
      { l with interestUntil := some (l.interestUntil.elim until_ fun had => had.max until_) }
    else l
  | _ => l

end Ledger

def Peer.ledger (entry : Peer) : Ledger :=
  ⟨entry.connected, entry.lostAt, entry.backlog, entry.interestUntil, entry.degradedReported⟩

variable {c : Core} {input : Input} {inputs earlier later : List Input} {p : Cid} {s now : Millis} {window : Duration}
  {l : Ledger}

namespace Core

def ledger (c : Core) (p : Cid) : Ledger := (c.peer p).ledger

theorem ledger_eq (c : Core) (p : Cid) : c.ledger p = (c.peers[p]?).elim Ledger.empty Peer.ledger := by
  unfold ledger peer
  cases c.peers[p]? <;> rfl

theorem ledger_congr {c' : Core} (h : c'.peers = c.peers) (p : Cid) : c'.ledger p = c.ledger p := by
  rw [ledger_eq, ledger_eq, h]

theorem ledger_setPeer (c : Core) (q p : Cid) (entry : Peer) :
    (c.setPeer q entry).ledger p = if q = p then entry.ledger else c.ledger p := by
  simp only [ledger_eq, setPeer, Std.ExtTreeMap.getElem?_insert, Std.LawfulEqCmp.compare_eq_iff_eq]
  split <;> rfl

theorem ledger_forPeers (f : Cid → Peer → Rng → Peer × Rng × List Command) (c : Core) (p : Cid)
    (h : ∀ q entry rng, (f q entry rng).1.ledger = entry.ledger) : (c.forPeers f).1.ledger p = c.ledger p := by
  obtain ⟨draws, -, hpeers, -⟩ := c.forPeers_spec f
  rw [ledger_eq, ledger_eq, hpeers p]
  cases c.peers[p]? with
  | none => rfl
  | some entry => exact h p entry (draws p)

/-! ## What each handler does to the ledger -/

theorem ledger_settle (c : Core) (now : Millis) (p : Cid) : (c.settle now).ledger p = c.ledger p := by
  refine c.ledger_forPeers _ p fun q entry rng => ?_
  unfold settlePeer
  dsimp only
  split <;> rfl

theorem ledger_rearmRelayed (c : Core) (p : Cid) : c.rearmRelayed.1.ledger p = c.ledger p := by
  unfold rearmRelayed
  split
  · refine (ledger_forPeers _ _ p fun q entry rng => ?_).trans (ledger_congr rfl p)
    unfold rearmPeer
    split <;> rfl
  · rfl

theorem lost_peers (c : Core) (q : Cid) (now : Millis) :
    ∃ entry : Peer, (c.lost q now).peers = (c.setPeer q entry).peers ∧ entry.ledger =
      { c.ledger q with
        connected := false, lostAt := if (c.ledger q).connected then some now else (c.ledger q).lostAt } := by
  by_cases hc : (c.peer q).connected = true
  · have hl : (c.ledger q).connected = true := hc
    unfold lost
    simp only [hc, hl, if_true]
    split <;> exact ⟨_, rfl, rfl⟩
  · have hl : ¬ (c.ledger q).connected = true := hc
    unfold lost
    simp only [hc, hl]
    exact ⟨_, rfl, rfl⟩

theorem ledger_lost (c : Core) (q p : Cid) (now : Millis) :
    (c.lost q now).ledger p = if q = p then
      { c.ledger p with
        connected := false, lostAt := if (c.ledger p).connected then some now else (c.ledger p).lostAt }
    else c.ledger p := by
  obtain ⟨entry, hpeers, hentry⟩ := c.lost_peers q now
  rw [ledger_congr hpeers, ledger_setPeer]
  split
  · rename_i h
    subst h
    exact hentry
  · rfl

theorem ledger_released (c : Core) (q p : Cid) (now : Millis) :
    (c.released q now).ledger p = if q = p then
      { c.ledger p with connected := false, lostAt := none, interestUntil := none }
    else c.ledger p := by
  have hlost := c.ledger_lost q p now
  refine (ledger_setPeer _ q p _).trans ?_
  by_cases h : q = p
  · subst h
    rw [if_pos rfl] at hlost
    have hconnected : ((c.lost q now).peer q).connected = false := congrArg Ledger.connected hlost
    have hbacklog : ((c.lost q now).peer q).backlog = (c.ledger q).backlog := congrArg Ledger.backlog hlost
    have hdegraded : ((c.lost q now).peer q).degradedReported = (c.ledger q).degradedReported :=
      congrArg Ledger.degradedReported hlost
    simp only [if_true, Peer.ledger, hconnected, hbacklog, hdegraded]
  · simp only [h, if_false] at hlost ⊢
    exact hlost

theorem ledger_reachable (c : Core) (q p : Cid) (now : Millis) : (c.reachable q now).ledger p = c.ledger p := by
  refine (c.ledger_setPeer q p _).trans ?_
  split
  · rename_i h
    subst h
    split <;> rfl
  · rfl

theorem ledger_pathChanged (c : Core) (q p : Cid) (path : P2pPathReport) (now : Millis) :
    (c.pathChanged q path now).ledger p = c.ledger p := by
  have hset : ∀ entry : Peer, entry.ledger = (c.peer q).ledger → (c.setPeer q entry).ledger p = c.ledger p := by
    intro entry h
    rw [ledger_setPeer]
    split
    · rename_i hq
      subst hq
      exact h
    · rfl
  unfold pathChanged
  dsimp only
  split
  · exact (ledger_congr rfl p).trans (hset _ rfl)
  · exact hset _ rfl

theorem ledger_up (c : Core) (q p : Cid) (path : P2pPathReport) (now : Millis) :
    (c.up q path now).1.ledger p = if q = p then
      { c.ledger p with connected := true, lostAt := none, degradedReported := false }
    else c.ledger p := by
  refine (ledger_pathChanged _ q p path now).trans ((c.ledger_setPeer q p _).trans ?_)
  split
  · rename_i h
    subst h
    rfl
  · rfl

theorem ledger_dialed (c : Core) (q p : Cid) (outcome : DialOutcome) (now at_ : Millis) :
    (c.dialed q outcome now).1.ledger p = (c.ledger p).next p now (.dialResult at_ q outcome) := by
  have hset : ∀ entry : Peer, (c.setPeer q entry).ledger p = if q = p then entry.ledger else c.ledger p :=
    c.ledger_setPeer q p
  unfold dialed
  cases outcome with
  | connected =>
    simp only [Ledger.next]
    by_cases hq : q = p
    · subst hq
      split
      · rename_i hc
        have hl : ¬ (q = q ∧ (c.ledger q).connected = false) := by
          rintro ⟨-, h⟩
          exact absurd (h.symm.trans hc) (by decide)
        rw [if_neg hl, hset, if_pos rfl]
        rfl
      · rename_i hc
        have hl : q = q ∧ (c.ledger q).connected = false := ⟨rfl, Bool.eq_false_iff.mpr hc⟩
        rw [if_pos hl, ledger_up, if_pos rfl, hset, if_pos rfl]
        rfl
    · simp only [hq, false_and, if_false]
      split
      · rw [hset, if_neg hq]
      · rw [ledger_up, if_neg hq, hset, if_neg hq]
  | inProgress =>
    refine (ledger_congr rfl p).trans ((hset _).trans ?_)
    split
    · rename_i h
      subst h
      rfl
    · rfl
  | failed =>
    refine (ledger_congr rfl p).trans ((hset _).trans ?_)
    simp only [Ledger.next]
    split
    · rename_i h
      subst h
      rfl
    · rfl

theorem ledger_foldl_lost (cids : List Cid) (c : Core) (p : Cid) (hnd : cids.Nodup) :
    (cids.foldl (fun c cid => c.lost cid c.now) c).ledger p = if p ∈ cids then
      { c.ledger p with
        connected := false, lostAt := if (c.ledger p).connected then some c.now else (c.ledger p).lostAt }
    else c.ledger p := by
  induction cids generalizing c with
  | nil => simp
  | cons cid cids ih =>
    obtain ⟨hnot, hnd⟩ := List.nodup_cons.mp hnd
    have hnow : (c.lost cid c.now).now = c.now := (c.sameLink_lost cid c.now).now
    rw [List.foldl_cons, ih _ hnd, hnow, ledger_lost]
    by_cases hp : cid = p
    · subst hp
      simp [hnot]
    · have hp' : p ≠ cid := Ne.symm hp
      simp [hp, hp']

theorem ledger_loseConnected (c : Core) (p : Cid) :
    c.loseConnected.ledger p =
      if (c.ledger p).connected then { c.ledger p with connected := false, lostAt := some c.now } else c.ledger p := by
  have hnd : c.peers.keys.Nodup :=
    c.peers.distinct_keys.imp fun h heq => h (Std.LawfulEqCmp.compare_eq_iff_eq.mpr heq)
  have hconn : (c.ledger p).connected = (c.peer p).connected := rfl
  unfold loseConnected
  rw [ledger_foldl_lost _ _ _ (hnd.filter _)]
  cases hc : (c.peer p).connected with
  | false => simp [hconn, hc]
  | true =>
    have hmem : p ∈ c.peers.keys := by
      rw [Std.ExtTreeMap.mem_keys, Std.ExtTreeMap.mem_iff_isSome_getElem?]
      unfold peer at hc
      cases h : c.peers[p]? with
      | none => simp [h, Peer.new] at hc
      | some entry => rfl
    rw [if_pos (List.mem_filter.mpr ⟨hmem, hc⟩), hconn, hc]
    rfl

/-- Whether `drive` tries a better path for `entry` now. -/
def upgradeDue (now : Millis) (entry : Peer) : Bool :=
  entry.onRelay && entry.inUse now && decide (entry.upgrade.nextAt ≤ now)

/-- The upgrade's schedule after `drive`: the next try a backoff later, if one was made. -/
def upgradeAfter (policy : SupervisorPolicy) (now : Millis) (entry : Peer) (rng : Rng) : Retry :=
  if upgradeDue now entry then
    { entry.upgrade with
      attempts := saturatingSucc32 entry.upgrade.attempts,
      nextAt := now.after
        (rng.delay policy.upgradeBackoff (saturatingSucc32 entry.upgrade.attempts) policy.jitterPermille).1 }
  else entry.upgrade

theorem drivePeer_entry (policy : SupervisorPolicy) (now : Millis) (q : Cid) (entry : Peer) (rng : Rng) :
    (drivePeer policy now q entry rng).1 =
      { entry with
        dial := { entry.dial with inFlight := entry.dial.inFlight || dialDue policy now entry },
        dialingReported := entry.dialingReported || dialDue policy now entry,
        upgrade := upgradeAfter policy now entry rng } := by
  unfold drivePeer upgradeAfter upgradeDue Peer.onRelay Peer.inUse Peer.hasInterest
  by_cases hd : dialDue policy now entry = true <;>
    by_cases hu : (entry.connected && entry.path == some .serverRelay &&
      (decide (0 < entry.backlog) || entry.interestUntil.any fun until_ => decide (now < until_)) &&
        decide (entry.upgrade.nextAt ≤ now)) = true <;>
    simp [hd, hu]

theorem drivePeer_commands (policy : SupervisorPolicy) (now : Millis) (q : Cid) (entry : Peer) (rng : Rng) :
    (drivePeer policy now q entry rng).2.2 =
      (if dialDue policy now entry then
        (if entry.dialingReported then [] else [.report (.peerDialing q)]) ++ [.dialPeer q] else []) ++
      if upgradeDue now entry then [.upgradePath q true] else [] := by
  unfold drivePeer upgradeDue Peer.onRelay Peer.inUse Peer.hasInterest
  by_cases hd : dialDue policy now entry = true <;>
    by_cases hu : (entry.connected && entry.path == some .serverRelay &&
      (decide (0 < entry.backlog) || entry.interestUntil.any fun until_ => decide (now < until_)) &&
        decide (entry.upgrade.nextAt ≤ now)) = true <;>
    simp only [hd, hu, if_true, if_false, List.append_nil, List.nil_append, Bool.false_eq_true]

theorem ledger_drivePeer (policy : SupervisorPolicy) (now : Millis) (q : Cid) (entry : Peer) (rng : Rng) :
    (drivePeer policy now q entry rng).1.ledger = entry.ledger := by
  rw [drivePeer_entry]
  rfl

theorem ledger_drive (c : Core) (now : Millis) (p : Cid) : (c.drive now).1.ledger p = c.ledger p := by
  unfold drive
  split
  · rfl
  · refine (ledger_forPeers _ _ p fun q entry rng => ledger_drivePeer _ _ _ _ _).trans (ledger_congr ?_ p)
    unfold driveProbe
    dsimp only
    split <;> rfl

/-! ## One step -/

theorem handle_ledger (c : Core) (input : Input) (p : Cid) (hend : input.ends = false) :
    (c.handle input c.now).1.ledger p = (c.ledger p).next p c.now input := by
  cases input with
  | tick at_ => exact c.ledger_settle _ p
  | networkChanged at_ =>
    simp only [handle, networkChanged]
    split_ifs <;> rfl
  | serverProbe at_ outcome =>
    simp only [handle, probed]
    split
    · rfl
    split
    · rfl
    cases outcome with
    | ok rtt =>
      dsimp only
      split <;> exact ledger_rearmRelayed _ p
    | error => rfl
    | timeout => dsimp only; split_ifs <;> rfl
  | serverLink at_ state =>
    cases state with
    | up =>
      simp only [handle, linkChanged]
      split <;> rfl
    | reconnecting =>
      simp only [handle, linkChanged, loseLink]
      split <;> exact ledger_loseConnected _ p
    | ended => simp [Input.ends] at hend
  | forceFailed at_ => rfl
  | peerLost at_ q => exact c.ledger_lost q p _
  | peerReleased at_ q => exact c.ledger_released q p _
  | peerUp at_ q path => exact c.ledger_up q p path _
  | peerReachable at_ q => exact c.ledger_reachable q p _
  | peerPath at_ q path => exact c.ledger_pathChanged q p path _
  | dialResult at_ q outcome => exact c.ledger_dialed q p outcome _ at_
  | backlog q pending =>
    simp only [handle, Ledger.next, ledger_setPeer]
    split
    · rename_i h
      subst h
      rfl
    · rfl
  | interest q until_ =>
    simp only [handle, Ledger.next, ledger_setPeer]
    split
    · rename_i h
      subst h
      rfl
    · rfl

theorem step_ledger (hc : c.link ≠ .ended) (hend : input.ends = false) (p : Cid) :
    (c.step input).1.ledger p = (c.ledger p).next p (c.timeOf input) input := by
  rw [step_eq hc]
  have hsame : ({ c with now := c.timeOf input } : Core).ledger p = c.ledger p := by
    rw [ledger_eq, ledger_eq]
  refine (ledger_drive _ _ p).trans ((handle_ledger { c with now := c.timeOf input } input p hend).trans ?_)
  rw [hsame]

/-! ## The run, read off its inputs -/

end Core

/-- Whether `p` is connected after `inputs`, by what they say of it. -/
def connectedBy (p : Cid) (inputs : List Input) : Bool :=
  inputs.foldl (fun up input =>
    if input.brings p then true else if input.loses p || input.releases p then false else up) false

/-- What the latest `Backlog` for `p` said is queued. -/
def latestBacklog (p : Cid) (inputs : List Input) : UInt32 :=
  inputs.foldl (fun pending input =>
    match input with
    | .backlog q count => if q = p then count else pending
    | _ => pending) 0

/-- `p` was connected and was lost at `s`, and has neither come up nor been released since. -/
def LostSince (p : Cid) (inputs : List Input) (s : Millis) : Prop :=
  ∃ earlier x later, inputs = earlier ++ x :: later ∧ x.loses p = true ∧ x.time? = some s ∧
    connectedBy p earlier = true ∧ ∀ y ∈ later, y.brings p = false ∧ y.releases p = false

/-- An `Interest` in `p` until `until_`, and no release of `p` since. -/
def InterestSince (p : Cid) (inputs : List Input) (until_ : Millis) : Prop :=
  ∃ earlier later, inputs = earlier ++ .interest p until_ :: later ∧ ∀ y ∈ later, y.releases p = false

def NonDecreasing (inputs : List Input) : Prop := (inputs.filterMap Input.time?).Pairwise (· ≤ ·)

theorem connectedBy_snoc (p : Cid) (inputs : List Input) (input : Input) :
    connectedBy p (inputs ++ [input]) =
      if input.brings p then true
      else if input.loses p || input.releases p then false else connectedBy p inputs := by
  unfold connectedBy
  rw [List.foldl_append]
  rfl

theorem latestBacklog_snoc (p : Cid) (inputs : List Input) (input : Input) :
    latestBacklog p (inputs ++ [input]) =
      match input with
      | .backlog q count => if q = p then count else latestBacklog p inputs
      | _ => latestBacklog p inputs := by
  unfold latestBacklog
  rw [List.foldl_append]
  rfl

theorem LostSince.snoc (h : LostSince p inputs s)
    (hb : input.brings p = false) (hr : input.releases p = false) : LostSince p (inputs ++ [input]) s := by
  obtain ⟨earlier, x, later, rfl, hx, hs, hup, hlater⟩ := h
  refine ⟨earlier, x, later ++ [input], by simp, hx, hs, hup, fun y hy => ?_⟩
  rcases List.mem_append.mp hy with hy | hy
  · exact hlater y hy
  · exact List.mem_singleton.mp hy ▸ ⟨hb, hr⟩

theorem LostSince.time_mem (h : LostSince p inputs s) :
    s ∈ inputs.filterMap Input.time? := by
  obtain ⟨earlier, x, later, rfl, -, hs, -, -⟩ := h
  exact List.mem_filterMap.mpr ⟨x, by simp, hs⟩

theorem LostSince.of_loss (hx : input.loses p = true)
    (hs : input.time? = some s) (hup : connectedBy p inputs = true) : LostSince p (inputs ++ [input]) s :=
  ⟨inputs, input, [], rfl, hx, hs, hup, fun y hy => by simp at hy⟩

theorem LostSince.of_snoc (h : LostSince p (inputs ++ [input]) s) :
    (input.loses p = true ∧ input.time? = some s ∧ connectedBy p inputs = true) ∨
      (LostSince p inputs s ∧ input.brings p = false ∧ input.releases p = false) := by
  obtain ⟨earlier, x, later, hsplit, hx, hs, hup, hlater⟩ := h
  rcases List.eq_nil_or_concat later with rfl | ⟨rest, y, rfl⟩
  · obtain ⟨rfl, hxy⟩ := List.append_inj' hsplit rfl
    obtain rfl : input = x := by simpa using hxy
    exact .inl ⟨hx, hs, hup⟩
  · rw [List.concat_eq_append, ← List.cons_append, ← List.append_assoc] at hsplit
    obtain ⟨rfl, hxy⟩ := List.append_inj' hsplit rfl
    obtain rfl : input = y := by simpa using hxy
    have hlast := hlater input (by simp)
    exact .inr ⟨⟨earlier, x, rest, rfl, hx, hs, hup, fun z hz => hlater z (by simp [hz])⟩, hlast⟩

theorem InterestSince.snoc {until_ : Millis} (h : InterestSince p inputs until_)
    (hr : input.releases p = false) : InterestSince p (inputs ++ [input]) until_ := by
  obtain ⟨earlier, later, rfl, hlater⟩ := h
  refine ⟨earlier, later ++ [input], by simp, fun y hy => ?_⟩
  rcases List.mem_append.mp hy with hy | hy
  · exact hlater y hy
  · exact List.mem_singleton.mp hy ▸ hr

namespace Core

/-- The ledger of `p` says what the inputs say. -/
structure History (p : Cid) (inputs : List Input) (l : Ledger) : Prop where
  connected : l.connected = connectedBy p inputs
  backlog : l.backlog = latestBacklog p inputs
  interest : ∀ until_, l.interestUntil = some until_ → InterestSince p inputs until_
  lost : ∀ s, l.lostAt = some s ↔ LostSince p inputs s
  notBoth : l.connected = true → l.lostAt = none

theorem step_link_ended (hc : c.link ≠ .ended) (input : Input) :
    (c.step input).1.link = .ended ↔ input.ends = true := by
  by_cases h : ∃ now state, input = .serverLink now state
  · obtain ⟨now, state, rfl⟩ := h
    rw [step_serverLink_link hc]
    cases state <;> simp [Input.ends]
  · have hne : ∀ now state, input ≠ .serverLink now state := fun now state heq => h ⟨now, state, heq⟩
    rw [step_link_of_ne _ _ hne]
    refine ⟨fun h => absurd h hc, fun h => ?_⟩
    cases input <;> simp [Input.ends] at h
    exact absurd rfl (hne _ _)

theorem History.empty (p : Cid) : History p [] Ledger.empty :=
  ⟨rfl, rfl, fun _ h => by simp [Ledger.empty] at h, fun s => by simp [Ledger.empty, LostSince],
    fun h => by simp [Ledger.empty] at h⟩

theorem History.other (h : History p inputs l)
    (hb : input.brings p = false) (hl : input.loses p = false) (hr : input.releases p = false)
    (hq : latestBacklog p (inputs ++ [input]) = latestBacklog p inputs) : History p (inputs ++ [input]) l where
  connected := by simp [connectedBy_snoc, hb, hl, hr, h.connected]
  backlog := by rw [hq, h.backlog]
  interest until_ hu := (h.interest until_ hu).snoc hr
  lost s := by
    rw [h.lost]
    refine ⟨fun hs => hs.snoc hb hr, fun hs => ?_⟩
    rcases hs.of_snoc with ⟨hx, -, -⟩ | ⟨hs, -, -⟩
    · simp [hl] at hx
    · exact hs
  notBoth := h.notBoth

theorem History.loss (h : History p inputs l) (hx : input.loses p = true) (hnow : input.time? = some now)
    (hb : input.brings p = false) (hr : input.releases p = false)
    (hq : latestBacklog p (inputs ++ [input]) = latestBacklog p inputs) :
    History p (inputs ++ [input])
      { l with connected := false, lostAt := if l.connected then some now else l.lostAt } where
  connected := by simp [connectedBy_snoc, hb, hx]
  backlog := by rw [hq]; exact h.backlog
  interest until_ hu := (h.interest until_ hu).snoc hr
  lost s := by
    split
    · rename_i hup
      refine ⟨fun hs => ?_, fun hs => ?_⟩
      · rw [← Option.some.inj hs]
        exact .of_loss hx hnow (h.connected ▸ hup)
      · rcases hs.of_snoc with ⟨-, hs, -⟩ | ⟨hs, -, -⟩
        · exact hnow.symm.trans hs
        · have := (h.lost s).mpr hs
          simp [h.notBoth hup] at this
    · rename_i hdown
      rw [h.lost]
      refine ⟨fun hs => hs.snoc hb hr, fun hs => ?_⟩
      rcases hs.of_snoc with ⟨-, -, hup⟩ | ⟨hs, -, -⟩
      · exact absurd (h.connected.trans hup) hdown
      · exact hs
  notBoth hup := by simp at hup

theorem History.up (h : History p inputs l) (hb : input.brings p = true) (hl : input.loses p = false)
    (hr : input.releases p = false) (hq : latestBacklog p (inputs ++ [input]) = latestBacklog p inputs) :
    History p (inputs ++ [input]) { l with connected := true, lostAt := none, degradedReported := false } where
  connected := by simp [connectedBy_snoc, hb]
  backlog := by rw [hq]; exact h.backlog
  interest until_ hu := (h.interest until_ hu).snoc hr
  lost s := by
    refine ⟨fun hs => by simp at hs, fun hs => ?_⟩
    rcases hs.of_snoc with ⟨hx, -, -⟩ | ⟨-, hx, -⟩
    · simp [hl] at hx
    · simp [hb] at hx
  notBoth _ := rfl

theorem History.next (h : History p inputs l) (hend : input.ends = false) (hnow : ∀ at_, input.time? = some at_ → now = at_) :
    History p (inputs ++ [input]) (l.next p now input) := by
  cases input with
  | serverLink at_ state =>
    cases state with
    | up => exact h.other rfl rfl rfl (latestBacklog_snoc _ _ _)
    | reconnecting =>
      have hloss : History p (inputs ++ [.serverLink at_ .reconnecting]) _ :=
        h.loss rfl rfl rfl rfl (latestBacklog_snoc _ _ _)
      have hl : l.next p now (.serverLink at_ .reconnecting) =
          { l with connected := false, lostAt := if l.connected then some at_ else l.lostAt } := by
        rw [hnow at_ rfl]
        obtain ⟨connected, lostAt, backlog, interestUntil, degradedReported⟩ := l
        cases connected <;> rfl
      rw [hl]
      exact hloss
    | ended => simp [Input.ends] at hend
  | peerLost at_ q =>
    simp only [Ledger.next]
    split
    · rename_i hq
      rw [hnow at_ rfl]
      exact h.loss (by simp [Input.loses, hq]) rfl rfl rfl (latestBacklog_snoc _ _ _)
    · rename_i hq
      exact h.other rfl (by simp [Input.loses, hq]) rfl (latestBacklog_snoc _ _ _)
  | peerReleased at_ q =>
    simp only [Ledger.next]
    split
    · rename_i hq
      refine ⟨?_, ?_, fun u hu => by simp at hu, fun s => ⟨fun hs => by simp at hs, fun hs => ?_⟩, fun _ => rfl⟩
      · simp [connectedBy_snoc, Input.brings, Input.releases, hq]
      · rw [latestBacklog_snoc]
        exact h.backlog
      · rcases hs.of_snoc with ⟨hx, -, -⟩ | ⟨-, -, hx⟩
        · simp [Input.loses] at hx
        · simp [Input.releases, hq] at hx
    · rename_i hq
      exact h.other rfl rfl (by simp [Input.releases, hq]) (latestBacklog_snoc _ _ _)
  | peerUp at_ q path =>
    simp only [Ledger.next]
    split
    · rename_i hq
      exact h.up (by simp [Input.brings, hq]) rfl rfl (latestBacklog_snoc _ _ _)
    · rename_i hq
      exact h.other (by simp [Input.brings, hq]) rfl rfl (latestBacklog_snoc _ _ _)
  | dialResult at_ q outcome =>
    cases outcome with
    | connected =>
      simp only [Ledger.next]
      by_cases hq : q = p
      · have hup : History p (inputs ++ [.dialResult at_ q .connected]) _ :=
          h.up (by simp [Input.brings, hq]) rfl rfl (latestBacklog_snoc _ _ _)
        split
        · exact hup
        · rename_i hc
          have hc : l.connected = true := by simpa [hq] using hc
          exact ⟨hc.trans hup.connected, hup.backlog, hup.interest, fun s => h.notBoth hc ▸ hup.lost s, h.notBoth⟩
      · simp only [hq, false_and, if_false]
        exact h.other (by simp [Input.brings, hq]) rfl rfl (latestBacklog_snoc _ _ _)
    | failed =>
      have hother : History p (inputs ++ [.dialResult at_ q .failed]) l :=
        h.other rfl rfl rfl (latestBacklog_snoc _ _ _)
      simp only [Ledger.next]
      split
      · exact ⟨hother.connected, hother.backlog, hother.interest, hother.lost, hother.notBoth⟩
      · exact hother
    | inProgress => exact h.other rfl rfl rfl (latestBacklog_snoc _ _ _)
  | backlog q pending =>
    simp only [Ledger.next]
    split
    · rename_i hq
      refine ⟨?_, ?_, fun u hu => (h.interest u hu).snoc rfl, fun s => (h.lost s).trans ?_, h.notBoth⟩
      · simp [connectedBy_snoc, Input.brings, Input.loses, Input.releases, h.connected]
      · simp [latestBacklog_snoc, hq]
      · refine ⟨fun hs => hs.snoc rfl rfl, fun hs => ?_⟩
        rcases hs.of_snoc with ⟨hx, -, -⟩ | ⟨hs, -, -⟩
        · simp [Input.loses] at hx
        · exact hs
    · rename_i hq
      exact h.other rfl rfl rfl (by simp [latestBacklog_snoc, hq])
  | interest q until_ =>
    have hother : History p (inputs ++ [.interest q until_]) l := h.other rfl rfl rfl (latestBacklog_snoc _ _ _)
    simp only [Ledger.next]
    split
    · rename_i hq
      subst hq
      refine ⟨hother.connected, hother.backlog, fun u hu => ?_, hother.lost, hother.notBoth⟩
      have hnew : InterestSince q (inputs ++ [.interest q until_]) until_ :=
        ⟨inputs, [], rfl, fun y hy => by simp at hy⟩
      cases hi : l.interestUntil with
      | none =>
        simp only [hi, Option.elim_none, Option.some.injEq] at hu
        exact hu ▸ hnew
      | some had =>
        simp only [hi, Option.elim_some, Option.some.injEq, Millis.max] at hu
        split at hu
        · exact hother.interest u (hi.trans (congrArg some hu))
        · exact hu ▸ hnew
    · exact hother
  | _ => exact h.other rfl rfl rfl (latestBacklog_snoc _ _ _)

theorem timeOf_of_time? {at_ : Millis} (h : input.time? = some at_) :
    c.timeOf input = at_ := by
  cases input <;> simp_all [Input.time?, timeOf]

/-- **The core's memory of `p` is the run's history of it**, until the session ends. -/
theorem run_history (policy : SupervisorPolicy) (cid p : Cid) (inputs : List Input)
    (hrun : ((new policy cid).run inputs).link ≠ .ended) :
    History p inputs (((new policy cid).run inputs).ledger p) := by
  induction inputs using List.reverseRecOn with
  | nil =>
    have hnew : (new policy cid).ledger p = Ledger.empty := by simp [ledger_eq, new]
    rw [run_nil, hnew]
    exact .empty p
  | append_singleton inputs input ih =>
    have hnext : (new policy cid).run (inputs ++ [input]) = (((new policy cid).run inputs).step input).1 :=
      run_snoc _ _ _
    rw [hnext] at hrun ⊢
    generalize (new policy cid).run inputs = c at *
    have hc : c.link ≠ .ended := by
      intro h
      rw [step_of_ended h] at hrun
      exact hrun h
    have hend : input.ends = false := Bool.eq_false_iff.mpr fun h => hrun ((step_link_ended hc input).mpr h)
    rw [step_ledger hc hend]
    exact (ih hc).next hend fun at_ h => timeOf_of_time? h

/-! ## Dials -/

/-- A ledger that makes `drive` want the peer at `now`. -/
def Wants (window : Duration) (now : Millis) (l : Ledger) : Prop :=
  0 < l.backlog ∨ (∃ until_, l.interestUntil = some until_ ∧ now < until_) ∨
    ∃ s, l.lostAt = some s ∧ now.since s < window

theorem wants_of_wanted {entry : Peer} (h : entry.wanted now window = true) :
    Wants window now entry.ledger := by
  simp only [Peer.wanted, Peer.inUse, Peer.hasInterest, Bool.or_eq_true, decide_eq_true_eq, Option.any_eq_true] at h
  rcases h with (h | h) | h
  · exact .inl h
  · exact .inr (.inl h)
  · exact .inr (.inr h)

theorem dialPeer_mem_drive (h : .dialPeer p ∈ (c.drive now).2) :
    c.link = .up ∧ c.forcing = false ∧ ∃ entry, c.peers[p]? = some entry ∧ dialDue c.policy now entry = true := by
  unfold drive at h
  split at h
  · simp at h
  rename_i hlive
  obtain ⟨hup, hforcing⟩ := not_or.mp hlive
  refine ⟨not_not.mp hup, by simpa using hforcing, ?_⟩
  generalize hd : c.driveProbe now = d at h
  have hpolicy : d.1.policy = c.policy := by
    rw [← hd]
    unfold driveProbe
    dsimp only
    split <;> rfl
  have hpeers : d.1.peers = c.peers := by
    rw [← hd]
    unfold driveProbe
    dsimp only
    split <;> rfl
  rcases List.mem_append.mp h with h | h
  · rw [← hd] at h
    unfold driveProbe at h
    dsimp only at h
    split at h <;> simp at h
  · obtain ⟨draws, -, -, hcmds⟩ := d.1.forPeers_spec (drivePeer d.1.policy now)
    rw [hcmds, List.mem_flatMap] at h
    obtain ⟨q, -, h⟩ := h
    cases hq : d.1.peers[q]? with
    | none => simp [hq] at h
    | some entry =>
      rw [hq, Option.elim_some, drivePeer_commands] at h
      have hdue : q = p ∧ dialDue d.1.policy now entry = true := by
        split_ifs at h <;> simp at h <;> exact ⟨h.symm, by assumption⟩
      obtain ⟨rfl, hdue⟩ := hdue
      exact ⟨entry, hpeers ▸ hq, hpolicy ▸ hdue⟩

theorem dialPeer_mem_step (h : .dialPeer p ∈ (c.step input).2) :
    (c.step input).1.link = .up ∧ (c.step input).1.forcing = false ∧ c.policy.dialPeers = true ∧
      ((c.step input).1.ledger p).connected = false ∧
      Wants c.policy.redialWindow (c.timeOf input) ((c.step input).1.ledger p) := by
  by_cases hc : c.link = .ended
  · simp [step_of_ended hc] at h
  have hpolicy : (handle { c with now := c.timeOf input } input (c.timeOf input)).1.policy = c.policy := by
    have := c.step_policy input
    rw [step_eq hc] at this
    rwa [(drive_link _ _).1] at this
  rw [step_eq hc] at h ⊢
  have hnone := dialsTo_handle { c with now := c.timeOf input } input (c.timeOf input) p
  generalize handle { c with now := c.timeOf input } input (c.timeOf input) = d at *
  have hdrive : .dialPeer p ∈ (d.1.drive (c.timeOf input)).2 := by
    rcases List.mem_append.mp h with h | h
    · exact absurd h (List.count_eq_zero.mp hnone)
    · exact h
  obtain ⟨hup, hforcing, entry, hentry, hdue⟩ := dialPeer_mem_drive hdrive
  have hledger : d.1.ledger p = entry.ledger := by simp [ledger_eq, hentry]
  obtain ⟨-, hlink, -, -, -, -, hf, -⟩ := d.1.drive_link (c.timeOf input)
  rw [hlink, hf, ledger_drive, hledger]
  rw [hpolicy] at hdue
  simp only [dialDue, Bool.and_eq_true, Bool.not_eq_true'] at hdue
  obtain ⟨⟨⟨⟨hdials, hdown⟩, -⟩, hwanted⟩, -⟩ := hdue
  exact ⟨hup, hforcing, hdials, hdown, wants_of_wanted hwanted⟩

/-! ## The clock -/

theorem handle_now (c : Core) (input : Input) (now : Millis) : (c.handle input now).1.now = c.now := by
  cases input with
  | tick at_ => exact (sameLink_settle _ _).now
  | networkChanged at_ => simp only [handle, networkChanged]; split_ifs <;> rfl
  | serverProbe at_ outcome =>
    simp only [handle, probed]
    split
    · rfl
    split
    · rfl
    cases outcome with
    | ok rtt =>
      dsimp only
      split <;> exact (sameLink_rearmRelayed _).now
    | error => rfl
    | timeout => dsimp only; split_ifs <;> rfl
  | serverLink at_ state =>
    cases state with
    | up => simp only [handle, linkChanged]; split <;> rfl
    | reconnecting => simp only [handle, linkChanged, loseLink]; split <;> exact (sameLink_loseConnected _).now
    | ended => rfl
  | forceFailed at_ => rfl
  | peerLost at_ peer => exact (sameLink_lost _ _ _).now
  | peerReleased at_ peer => exact (sameLink_released _ _ _).now
  | peerUp at_ peer path => exact (sameLink_up _ _ _ _).now
  | peerReachable at_ peer => exact (sameLink_reachable _ _ _).now
  | peerPath at_ peer path => exact (sameLink_pathChanged _ _ _ _).now
  | dialResult at_ peer outcome => exact (sameLink_dialed _ _ _ _).now
  | backlog peer pending => rfl
  | interest peer until_ => rfl

theorem step_now (hc : c.link ≠ .ended) (input : Input) : (c.step input).1.now = c.timeOf input := by
  rw [step_eq hc]
  exact (drive_link _ _).2.2.1.trans (handle_now _ _ _)

def lastTime (inputs : List Input) : Millis := ((inputs.filterMap Input.time?).getLast?).getD ⟨0⟩

theorem lastTime_snoc (inputs : List Input) (input : Input) :
    lastTime (inputs ++ [input]) = input.time?.getD (lastTime inputs) := by
  unfold lastTime
  rw [List.filterMap_append]
  cases h : input.time? with
  | none => simp [h]
  | some at_ => simp [h]

theorem run_now (policy : SupervisorPolicy) (cid : Cid) (inputs : List Input)
    (hrun : ((new policy cid).run inputs).link ≠ .ended) : ((new policy cid).run inputs).now = lastTime inputs := by
  induction inputs using List.reverseRecOn with
  | nil => rfl
  | append_singleton inputs input ih =>
    have hnext : (new policy cid).run (inputs ++ [input]) = (((new policy cid).run inputs).step input).1 :=
      run_snoc _ _ _
    rw [hnext] at hrun ⊢
    generalize (new policy cid).run inputs = c at *
    have hc : c.link ≠ .ended := by
      intro h
      rw [step_of_ended h] at hrun
      exact hrun h
    rw [step_now hc, lastTime_snoc]
    cases h : input.time? with
    | none =>
      rw [Option.getD_none, ← ih hc]
      cases input <;> simp_all [Input.time?, timeOf]
    | some at_ => exact timeOf_of_time? h

theorem le_lastTime (htimes : NonDecreasing inputs) (hs : s ∈ inputs.filterMap Input.time?) : s ≤ lastTime inputs := by
  unfold NonDecreasing at htimes
  unfold lastTime
  generalize inputs.filterMap Input.time? = times at *
  rcases List.eq_nil_or_concat times with rfl | ⟨init, last, rfl⟩
  · simp at hs
  · simp only [List.concat_eq_append, List.getLast?_append, List.getLast?_singleton, Option.some_or,
      Option.getD_some, List.mem_append, List.mem_singleton, List.pairwise_append] at hs htimes ⊢
    rcases hs with hs | rfl
    · exact htimes.2.2 s hs last rfl
    · exact UInt64.le_refl _

/-! ## Every dial is justified -/

/-- What the run must say of `p` for a dial to it at `t`: something is queued for it, a window that has not
been released has it open past `t`, or it was lost less than `window` ago and is neither back nor released. -/
def Justified (window : Duration) (p : Cid) (inputs : List Input) (t : Millis) : Prop :=
  0 < latestBacklog p inputs ∨ (∃ until_, InterestSince p inputs until_ ∧ t < until_) ∨
    ∃ s, LostSince p inputs s ∧ s ≤ t ∧ (t.ms.toNat - s.ms.toNat) * 1000000 < window.nanos

theorem split_compare {α : Type} {e₁ l₁ e₂ l₂ : List α} {a b : α} (h : e₁ ++ a :: l₁ = e₂ ++ b :: l₂) :
    a = b ∨ (∃ mid, e₂ = e₁ ++ a :: mid ∧ l₁ = mid ++ b :: l₂) ∨ ∃ mid, l₂ = mid ++ a :: l₁ := by
  rcases List.append_eq_append_iff.mp h with ⟨mid, he, hl⟩ | ⟨mid, he, hl⟩
  · cases mid with
    | nil => exact .inl (List.cons.inj hl).1
    | cons x mid =>
      obtain ⟨hx, htail⟩ := List.cons.inj hl
      exact .inr (.inl ⟨mid, by rw [hx, he], htail⟩)
  · cases mid with
    | nil => exact .inl (List.cons.inj hl).1.symm
    | cons x mid => exact .inr (.inr ⟨mid, (List.cons.inj hl).2⟩)

theorem brings_of_connectedBy (hdown : connectedBy p earlier = false)
    (hup : connectedBy p (earlier ++ later) = true) : ∃ x ∈ later, x.brings p = true := by
  induction later using List.reverseRecOn with
  | nil => simp [hdown] at hup
  | append_singleton later x ih =>
    rw [← List.append_assoc, connectedBy_snoc] at hup
    cases hb : x.brings p with
    | true => exact ⟨x, by simp, hb⟩
    | false =>
      simp only [hb, Bool.false_eq_true, if_false] at hup
      split at hup
      · simp at hup
      · obtain ⟨y, hy, hyb⟩ := ih hup
        exact ⟨y, by simp [hy], hyb⟩

theorem backlog_of_latestBacklog (hnone : latestBacklog p earlier = 0)
    (hsome : 0 < latestBacklog p (earlier ++ later)) : ∃ pending, 0 < pending ∧ .backlog p pending ∈ later := by
  induction later using List.reverseRecOn with
  | nil => simp [hnone] at hsome
  | append_singleton later x ih =>
    have hih : 0 < latestBacklog p (earlier ++ later) → ∃ pending, 0 < pending ∧ .backlog p pending ∈ later ++ [x] := by
      intro h
      obtain ⟨pending, hpos, hmem⟩ := ih h
      exact ⟨pending, hpos, List.mem_append_left _ hmem⟩
    rw [← List.append_assoc, latestBacklog_snoc] at hsome
    split at hsome
    · rename_i q count
      split at hsome
      · rename_i hq
        exact ⟨count, hsome, by simp [hq]⟩
      · exact hih hsome
    · exact hih hsome

/-- What makes a released peer wanted again by `t`. -/
def WantedAnew (p : Cid) (t : Millis) (later : List Input) : Prop :=
  (∃ pending, 0 < pending ∧ .backlog p pending ∈ later) ∨
    (∃ until_, .interest p until_ ∈ later ∧ t < until_) ∨ ∃ x ∈ later, x.brings p = true

theorem Justified.wantedAnew {t at_ : Millis} (h : Justified window p inputs t)
    (hsplit : inputs = earlier ++ .peerReleased at_ p :: later) (hnone : latestBacklog p earlier = 0) : WantedAnew p t later := by
  have hreleases : (Input.peerReleased at_ p).releases p = true := by simp [Input.releases]
  have hreleased : inputs = (earlier ++ [.peerReleased at_ p]) ++ later := by simp [hsplit]
  rcases h with h | ⟨until_, ⟨e, l, he, hl⟩, ht⟩ | ⟨s, ⟨e, x, l, he, hx, -, hup, hl⟩, -, -⟩
  · have hquiet : latestBacklog p (earlier ++ [.peerReleased at_ p]) = 0 := by
      rw [latestBacklog_snoc]
      exact hnone
    exact .inl (backlog_of_latestBacklog hquiet (hreleased ▸ h))
  · refine .inr (.inl ⟨until_, ?_, ht⟩)
    rcases split_compare (hsplit.symm.trans he) with heq | ⟨mid, -, hmid⟩ | ⟨mid, hmid⟩
    · cases heq
    · simp [hmid]
    · have := hl (.peerReleased at_ p) (by simp [hmid])
      simp [hreleases] at this
  · refine .inr (.inr ?_)
    rcases split_compare (hsplit.symm.trans he) with heq | ⟨mid, hmid, hlater⟩ | ⟨mid, hmid⟩
    · simp [← heq, Input.loses] at hx
    · rw [hmid, List.append_cons] at hup
      have hdown : connectedBy p (earlier ++ [.peerReleased at_ p]) = false := by
        simp [connectedBy_snoc, Input.brings, hreleases]
      obtain ⟨y, hy, hyb⟩ := brings_of_connectedBy hdown hup
      exact ⟨y, by simp [hlater, hy], hyb⟩
    · have := (hl (.peerReleased at_ p) (by simp [hmid])).2
      simp [hreleases] at this

theorem since_lt_iff {t : Millis} :
    t.since s < window ↔ (t.ms.toNat - s.ms.toNat) * 1000000 < window.nanos := by
  have hlt : t.ms.toNat - s.ms.toNat < 2 ^ 64 := lt_of_le_of_lt (Nat.sub_le _ _) t.ms.toNat_lt
  have hnanos : (t.since s).nanos = (t.ms.toNat - s.ms.toNat) * 1000000 := by
    simp only [Millis.since, Duration.ofMillis, UInt64.toNat_ofNat']
    rw [Nat.mod_eq_of_lt hlt]
  exact hnanos ▸ Iff.rfl

/-- **Every dial is justified by history**: it goes out with `dialPeers` set, on a link that is up and not being
forced, to a peer that is not connected, and for one of the three reasons. -/
theorem dial_justified (policy : SupervisorPolicy) (cid p : Cid) (inputs : List Input) (input : Input)
    (htimes : NonDecreasing (inputs ++ [input]))
    (hdial : .dialPeer p ∈ (((new policy cid).run inputs).step input).2) :
    policy.dialPeers = true ∧
      ((new policy cid).run (inputs ++ [input])).link = .up ∧
      ((new policy cid).run (inputs ++ [input])).forcing = false ∧
      connectedBy p (inputs ++ [input]) = false ∧
      Justified policy.redialWindow p (inputs ++ [input]) (lastTime (inputs ++ [input])) ∧
      ∀ earlier at_ later, inputs ++ [input] = earlier ++ .peerReleased at_ p :: later →
        latestBacklog p earlier = 0 → WantedAnew p (lastTime (inputs ++ [input])) later := by
  obtain ⟨hup, hforcing, hdials, hdown, hwants⟩ := dialPeer_mem_step hdial
  rw [run_policy] at hdials hwants
  have hnext : (((new policy cid).run inputs).step input).1 = (new policy cid).run (inputs ++ [input]) :=
    (run_snoc _ _ _).symm
  have hrun : ((new policy cid).run (inputs ++ [input])).link ≠ .ended := by
    rw [← hnext, hup]
    decide
  have hc : ((new policy cid).run inputs).link ≠ .ended := by
    intro h
    simp [step_of_ended h] at hdial
  have hnow : ((new policy cid).run inputs).timeOf input = lastTime (inputs ++ [input]) := by
    rw [← step_now hc, hnext, run_now policy cid _ hrun]
  have hhist := run_history policy cid p (inputs ++ [input]) hrun
  rw [hnext] at hup hforcing hdown hwants
  rw [hnow] at hwants
  have hjust : Justified policy.redialWindow p (inputs ++ [input]) (lastTime (inputs ++ [input])) := by
    rcases hwants with h | ⟨until_, hu, ht⟩ | ⟨s, hs, ht⟩
    · exact .inl (hhist.backlog ▸ h)
    · exact .inr (.inl ⟨until_, hhist.interest until_ hu, ht⟩)
    · have hlost := (hhist.lost s).mp hs
      exact .inr (.inr ⟨s, hlost, le_lastTime htimes hlost.time_mem, since_lt_iff.mp ht⟩)
  exact ⟨hdials, hup, hforcing, hhist.connected ▸ hdown, hjust, fun _ _ _ hsplit h => hjust.wantedAnew hsplit h⟩

theorem dial_justified_lost :
    .dialPeer 11 ∈ (((new agentSupervisor 1).run [.peerUp ⟨5⟩ 11 .direct]).step (.peerLost ⟨70000⟩ 11)).2 ∧
    Justified agentSupervisor.redialWindow 11 [.peerUp ⟨5⟩ 11 .direct, .peerLost ⟨70000⟩ 11] ⟨70000⟩ := by
  have hdial : .dialPeer 11 ∈
      (((new agentSupervisor 1).run [.peerUp ⟨5⟩ 11 .direct]).step (.peerLost ⟨70000⟩ 11)).2 := by decide
  have htimes : NonDecreasing ([.peerUp ⟨5⟩ 11 .direct] ++ [.peerLost ⟨70000⟩ 11]) := by
    simp only [NonDecreasing, Input.time?, List.cons_append, List.nil_append, List.filterMap_cons,
      List.filterMap_nil, List.pairwise_cons, List.mem_singleton, List.not_mem_nil, List.Pairwise.nil]
    exact ⟨fun t ht => ht ▸ by decide, fun t ht => ht.elim, trivial⟩
  exact ⟨hdial, (dial_justified agentSupervisor 1 11 _ _ htimes hdial).2.2.2.2.1⟩

end Core

end CitadelAgent.Supervisor
