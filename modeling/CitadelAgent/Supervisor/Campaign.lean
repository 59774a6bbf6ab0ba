import CitadelAgent.Lib.Machine
import CitadelAgent.Supervisor.Wakes

/-!
# Supervisor: the SDK's own campaign

A peer that is newly on the server relay is upgraded by the SDK first; `drive` sends its own `UpgradePath` when the
peer's `upgrade.next_at` has come.

* `upgrade_sent` : an `UpgradePath` is sent when it is due, or by the first answered probe after a network change;
* `Meets` : no peer comes up on the relay that is reported there already, with its upgrade due too early;
* `campaign_goes_first` : in such runs no upgrade is sent in the least backoff after the peer came onto the relay;
* `path_before_up` : a path reported before the connection it is of.
-/

namespace CitadelAgent.Supervisor

/-! ## The least backoff -/

def cappedMillis (backoff : Backoff) (attempts : UInt32) : UInt64 :=
  (Duration.min (backoff.initial.saturatingMul (Rng.doubling attempts)) backoff.max).clampedMillis

/-- What `Rng::delay` comes to when the jitter cuts all it can. -/
def leastDelay (backoff : Backoff) (attempts jitterPermille : UInt32) : Duration :=
  let millis := cappedMillis backoff attempts
  let span := UInt64.ofNat (min (millis.toNat * jitterPermille.toNat) u64Max / 1000)
  .ofMillis (if span = 0 then millis else millis - (span - 1))

variable {a k : UInt32} {c : Core} {entry : Peer} {now : Millis} {p q : Cid} {path : P2pPathReport} {restoreUdp : Bool}

theorem Duration.nanos_min (x y : Duration) : (Duration.min x y).nanos = Min.min x.nanos y.nanos := by
  unfold Duration.min
  split_ifs with h
  · exact (Nat.min_eq_right (Nat.le_of_lt h)).symm
  · exact (Nat.min_eq_left (Nat.le_of_not_lt h)).symm

theorem doubling_le_doubling (h : a ≤ k) : (Rng.doubling a).toNat ≤ (Rng.doubling k).toNat := by
  have hpow : 2 ^ a.toNat ≤ 2 ^ k.toNat := Nat.pow_le_pow_right (by decide) (UInt32.le_iff_toNat_le.1 h)
  rw [Rng.toNat_doubling, Rng.toNat_doubling]
  omega

theorem Rng.toNat_span (millis : UInt64) (jitterPermille : UInt32) :
    (UInt64.ofNat (min (millis.toNat * jitterPermille.toNat) u64Max / 1000)).toNat =
      min (millis.toNat * jitterPermille.toNat) u64Max / 1000 := by
  rw [UInt64.toNat_ofNat']
  apply Nat.mod_eq_of_lt
  unfold u64Max
  omega

theorem cappedMillis_le (backoff : Backoff) (h : a ≤ k) :
    (cappedMillis backoff a).toNat ≤ (cappedMillis backoff k).toNat := by
  have hmul := Nat.mul_le_mul_left backoff.initial.nanos (doubling_le_doubling h)
  unfold cappedMillis
  rw [Duration.toNat_clampedMillis, Duration.toNat_clampedMillis]
  have hdiv : (Duration.min (backoff.initial.saturatingMul (Rng.doubling a)) backoff.max).asMillis ≤
      (Duration.min (backoff.initial.saturatingMul (Rng.doubling k)) backoff.max).asMillis := by
    unfold Duration.asMillis
    apply Nat.div_le_div_right
    rw [Duration.nanos_min, Duration.nanos_min]
    simp only [Duration.saturatingMul]
    omega
  omega

/-- **No backoff is shorter than the least one of as many attempts, or of fewer.** -/
theorem leastDelay_le (r : Rng) (backoff : Backoff) {jitterPermille : UInt32} (h : a ≤ k)
    (hj : jitterPermille.toNat ≤ 1000) : leastDelay backoff a jitterPermille ≤ (r.delay backoff k jitterPermille).1 := by
  have hmillis := cappedMillis_le backoff h
  -- the span grows by no more than what it is cut from
  have hgrows : min ((cappedMillis backoff k).toNat * jitterPermille.toNat) u64Max ≤
      min ((cappedMillis backoff a).toNat * jitterPermille.toNat) u64Max +
        ((cappedMillis backoff k).toNat - (cappedMillis backoff a).toNat) * 1000 := by
    obtain ⟨more, hmore⟩ := Nat.exists_eq_add_of_le hmillis
    rw [hmore, Nat.add_mul, Nat.add_sub_cancel_left]
    have hmul := Nat.mul_le_mul_left more hj
    omega
  have hwithin : ∀ m : UInt64, min (m.toNat * jitterPermille.toNat) u64Max / 1000 ≤ m.toNat := by
    intro m
    have hmul := Nat.mul_le_mul_left m.toNat hj
    omega
  show (leastDelay backoff a jitterPermille).nanos ≤ _
  unfold leastDelay Rng.delay
  dsimp only
  rw [← cappedMillis]
  have hspan_a := Rng.toNat_span (cappedMillis backoff a) jitterPermille
  have hspan_k := Rng.toNat_span (cappedMillis backoff k) jitterPermille
  have hwithin_a := hwithin (cappedMillis backoff a)
  have hwithin_k := hwithin (cappedMillis backoff k)
  generalize cappedMillis backoff a = m at *
  generalize cappedMillis backoff k = m' at *
  generalize UInt64.ofNat (min (m.toNat * jitterPermille.toNat) u64Max / 1000) = span at *
  generalize UInt64.ofNat (min (m'.toNat * jitterPermille.toNat) u64Max / 1000) = span' at *
  have hleast : (if span = 0 then m else m - (span - 1)).toNat ≤ m.toNat - (span.toNat - 1) := by
    split_ifs with hzero
    · rw [hzero]
      exact Nat.le_refl _
    · have hpos : 1 ≤ span.toNat := Nat.one_le_iff_ne_zero.2 fun h => hzero (UInt64.toNat_inj.1 h)
      have hpred : (span - 1).toNat = span.toNat - 1 := UInt64.toNat_sub_of_le _ _ (UInt64.le_iff_toNat_le.2 hpos)
      rw [UInt64.toNat_sub_of_le _ _ (UInt64.le_iff_toNat_le.2 (by omega)), hpred]
  generalize (if span = 0 then m else m - (span - 1)) = least at *
  split_ifs with hzero
  · have hnone : span'.toNat = 0 := congrArg UInt64.toNat hzero
    show _ * 1000000 ≤ m'.toNat * 1000000
    apply Nat.mul_le_mul_right
    omega
  · have hdraw : (r.next.1 % span').toNat < span'.toNat := by
      rw [UInt64.toNat_mod]
      exact Nat.mod_lt _ (Nat.pos_of_ne_zero fun h => hzero (UInt64.toNat_inj.1 h))
    have hcut : (m' - r.next.1 % span').toNat = m'.toNat - (r.next.1 % span').toNat :=
      UInt64.toNat_sub_of_le _ _ (UInt64.le_iff_toNat_le.2 (by omega))
    show _ * 1000000 ≤ (m' - r.next.1 % span').toNat * 1000000
    apply Nat.mul_le_mul_right
    omega

/-- `p` comes up on the server relay: its `PeerUp` says so, or a dial to it connected. -/
def Input.ontoRelay (p : Cid) : Input → Bool
  | .peerUp _ q path => decide (q = p ∧ path = .serverRelay)
  | .dialResult _ q .connected => decide (q = p)
  | _ => false

variable {input : Input}

namespace Core

/-! ## The upgrade of a peer on the relay -/

/-- The upgrade is set a backoff from `now`, for the attempts it counts. -/
def Scheduled (c : Core) (now : Millis) (entry : Peer) : Prop :=
  ∃ r : Rng, entry.upgrade.nextAt =
    now.after (r.delay c.policy.upgradeBackoff entry.upgrade.attempts c.policy.jitterPermille).1

/-- The peer was reported on the relay before, with the same upgrade; if it is connected only now, `comes` says why. -/
def Carried (c : Core) (p : Cid) (comes : Prop) (entry : Peer) : Prop :=
  ∃ before ∈ c.peers[p]?, before.path = some .serverRelay ∧ entry.upgrade = before.upgrade ∧
    (entry.connected = true → before.connected = true ∨ comes)

/-- An answered probe that is the first since the network changed. -/
def Rearms (c : Core) : Input → Prop
  | .serverProbe _ (.ok _) => c.link = .up ∧ c.probe.recheck = false ∧ c.afterChange = true
  | _ => False

theorem getElem?_setPeer (c : Core) (q p : Cid) (entry : Peer) :
    (c.setPeer q entry).peers[p]? = if p = q then some entry else c.peers[p]? := by
  simp only [setPeer, Std.ExtTreeMap.getElem?_insert, Std.LawfulEqCmp.compare_eq_iff_eq]
  by_cases h : p = q
  · simp [h]
  · simp [h, Ne.symm h]

theorem mem_of_path (h : (c.peer p).path = some path) :
    c.peers[p]? = some (c.peer p) := by
  unfold peer at h ⊢
  match hp : c.peers[p]? with
  | some entry => rfl
  | none =>
    rw [hp] at h
    exact nomatch h

theorem carried_self {comes : Prop} (hentry : c.peers[p]? = some entry)
    (hpath : entry.path = some .serverRelay) : c.Carried p comes entry :=
  ⟨entry, hentry, hpath, rfl, .inl⟩

theorem carried_setPeer {comes : Prop} {entry' : Peer} (hentry : (c.setPeer q entry).peers[p]? = some entry')
    (hrelay : entry'.path = some .serverRelay) (hpath : entry.path = (c.peer q).path)
    (hupgrade : entry.upgrade = (c.peer q).upgrade) (hconnected : entry.connected = (c.peer q).connected) : c.Carried p comes entry' := by
  rw [getElem?_setPeer] at hentry
  split_ifs at hentry with hp
  · obtain rfl := Option.some.inj hentry
    rw [hpath] at hrelay
    exact ⟨c.peer q, by rw [hp]; exact mem_of_path hrelay, hrelay, hupgrade, fun h => .inl (hconnected ▸ h)⟩
  · exact carried_self hentry hrelay

theorem pathChanged_schedule (hentry : (c.pathChanged q path now).peers[p]? = some entry)
    (hrelay : entry.path = some .serverRelay) :
    c.Carried p False entry ∨ (c.Scheduled now entry ∧ entry.upgrade.attempts = (c.peer p).upgrade.attempts) := by
  unfold pathChanged at hentry
  dsimp only at hentry
  split_ifs at hentry with hnew
  · have hentry : (c.setPeer q _).peers[p]? = some entry := hentry
    rw [getElem?_setPeer] at hentry
    split_ifs at hentry with hp
    · obtain rfl := Option.some.inj hentry
      exact .inr ⟨⟨c.rng, rfl⟩, by rw [hp]⟩
    · exact .inl (carried_self hentry hrelay)
  · rw [getElem?_setPeer] at hentry
    split_ifs at hentry with hp
    · obtain rfl := Option.some.inj hentry
      obtain rfl : path = .serverRelay := Option.some.inj hrelay
      have hon : (c.peer q).onRelay = true := by
        by_contra hoff
        exact hnew ⟨rfl, eq_false_of_ne_true hoff⟩
      have hpath : (c.peer q).path = some .serverRelay := by
        unfold Peer.onRelay at hon
        exact eq_of_beq (Bool.and_eq_true_iff.1 hon).2
      exact .inl ⟨c.peer q, by rw [hp]; exact mem_of_path hpath, hpath, rfl, .inl⟩
    · exact .inl (carried_self hentry hrelay)

theorem pathChanged_path (hentry : (c.pathChanged q path now).peers[q]? = some entry) : entry.path = some path := by
  unfold pathChanged at hentry
  dsimp only at hentry
  split_ifs at hentry
  · have hentry : (c.setPeer q _).peers[q]? = some entry := hentry
    rw [getElem?_setPeer, if_pos rfl] at hentry
    obtain rfl := Option.some.inj hentry
    rfl
  · rw [getElem?_setPeer, if_pos rfl] at hentry
    obtain rfl := Option.some.inj hentry
    rfl

theorem up_schedule (hentry : (c.up q path now).1.peers[p]? = some entry) (hrelay : entry.path = some .serverRelay) :
    c.Carried p (q = p ∧ path = .serverRelay) entry ∨
      (c.Scheduled now entry ∧ entry.upgrade.attempts = (c.peer p).upgrade.attempts) := by
  unfold up at hentry
  dsimp only at hentry
  obtain ⟨before, hbefore, hpath, hupgrade, hconnected⟩ | ⟨⟨r, hr⟩, hattempts⟩ := pathChanged_schedule hentry hrelay
  · refine .inl ?_
    have hbefore : (c.setPeer q _).peers[p]? = some before := hbefore
    rw [getElem?_setPeer] at hbefore
    split_ifs at hbefore with hp
    · obtain rfl := Option.some.inj hbefore
      rw [hp] at hentry ⊢
      refine ⟨c.peer q, mem_of_path hpath, hpath, hupgrade, fun _ => .inr ⟨rfl, ?_⟩⟩
      exact Option.mem_unique (pathChanged_path hentry) hrelay
    · exact ⟨before, hbefore, hpath, hupgrade, fun h => (hconnected h).imp id fun h => h.elim⟩
  · refine .inr ⟨⟨r, hr⟩, hattempts.trans ?_⟩
    unfold peer
    rw [getElem?_setPeer]
    split_ifs with hp
    · rw [hp]
      rfl
    · rfl

theorem Carried.imp {comes comes' : Prop} (h : c.Carried p comes entry) (himp : comes → comes') : c.Carried p comes' entry := by
  obtain ⟨before, hbefore, hpath, hupgrade, hconnected⟩ := h
  exact ⟨before, hbefore, hpath, hupgrade, fun h => (hconnected h).imp id himp⟩

theorem lost_schedule (hentry : (c.lost q now).peers[p]? = some entry) (hrelay : entry.path = some .serverRelay) :
    c.peers[p]? = some entry := by
  have hentry : (c.setPeer q _).peers[p]? = some entry := hentry
  rw [getElem?_setPeer] at hentry
  split_ifs at hentry
  · obtain rfl := Option.some.inj hentry
    exact nomatch hrelay
  · exact hentry

theorem released_schedule (hentry : (c.released q now).peers[p]? = some entry) (hrelay : entry.path = some .serverRelay) :
    c.peers[p]? = some entry := by
  unfold released at hentry
  dsimp only at hentry
  rw [getElem?_setPeer] at hentry
  split_ifs at hentry
  · obtain rfl := Option.some.inj hentry
    have hrelay : ((c.lost q now).peer q).path = some .serverRelay := hrelay
    have hlost : (c.lost q now).peers[q]? = some ((c.lost q now).peer q) := mem_of_path hrelay
    have hlost' : (c.setPeer q _).peers[q]? = some ((c.lost q now).peer q) := hlost
    rw [getElem?_setPeer, if_pos rfl] at hlost'
    rw [← Option.some.inj hlost'] at hrelay
    exact nomatch hrelay
  · exact lost_schedule hentry hrelay

theorem foldl_lost_schedule (hrelay : entry.path = some .serverRelay) (cids : List Cid) (c : Core)
    (hentry : (cids.foldl (fun c cid => c.lost cid c.now) c).peers[p]? = some entry) : c.peers[p]? = some entry := by
  induction cids generalizing c with
  | nil => exact hentry
  | cons cid cids ih => exact lost_schedule (ih _ hentry) hrelay

theorem dialed_schedule {outcome : DialOutcome} (hentry : (c.dialed q outcome now).1.peers[p]? = some entry)
    (hrelay : entry.path = some .serverRelay) :
    c.Carried p (q = p ∧ outcome = .connected) entry ∨
      (c.Scheduled now entry ∧ entry.upgrade.attempts = (c.peer p).upgrade.attempts) := by
  unfold dialed at hentry
  dsimp only at hentry
  cases outcome with
  | connected =>
    dsimp only at hentry
    split at hentry
    · exact .inl (carried_setPeer hentry hrelay rfl rfl rfl)
    · obtain ⟨before, hbefore, hpath, hupgrade, hconnected⟩ | ⟨⟨r, hr⟩, hattempts⟩ := up_schedule hentry hrelay
      · refine .inl ?_
        have hcarried : c.Carried p False before := carried_setPeer hbefore hpath rfl rfl rfl
        obtain ⟨first, hfirst, hpath', hupgrade', hconnected'⟩ := hcarried
        refine ⟨first, hfirst, hpath', hupgrade.trans hupgrade', fun h => ?_⟩
        obtain h | h := hconnected h
        · exact .inl ((hconnected' h).resolve_right id)
        · exact .inr ⟨h.1, rfl⟩
      · refine .inr ⟨⟨r, hr⟩, hattempts.trans ?_⟩
        unfold peer
        rw [getElem?_setPeer]
        split_ifs with hp
        · rw [hp]
          rfl
        · rfl
  | inProgress =>
    have hentry : (c.setPeer q _).peers[p]? = some entry := hentry
    exact .inl (carried_setPeer hentry hrelay rfl rfl rfl)
  | failed =>
    have hentry : (c.setPeer q _).peers[p]? = some entry := hentry
    exact .inl (carried_setPeer hentry hrelay rfl rfl rfl)

theorem rearmRelayed_schedule (hentry : c.rearmRelayed.1.peers[p]? = some entry) (hrelay : entry.path = some .serverRelay) :
    c.peers[p]? = some entry ∨ (c.Scheduled c.now entry ∧ c.afterChange = true) := by
  unfold rearmRelayed at hentry
  split_ifs at hentry with hchange
  · obtain ⟨draws, -, hpeers, -⟩ := ({ c with afterChange := false } : Core).forPeers_spec (rearmPeer c.policy c.now)
    rw [hpeers p] at hentry
    obtain ⟨before, hbefore, rfl⟩ := Option.map_eq_some_iff.1 hentry
    unfold rearmPeer at hrelay ⊢
    split_ifs at hrelay ⊢
    · exact .inr ⟨⟨draws p, rfl⟩, hchange⟩
    · exact .inl hbefore
  · exact .inl hentry

theorem probed_schedule (at_ : Millis) {outcome : ProbeOutcome} (hentry : (c.probed outcome).1.peers[p]? = some entry)
    (hrelay : entry.path = some .serverRelay) :
    c.peers[p]? = some entry ∨ (c.Scheduled c.now entry ∧ c.Rearms (.serverProbe at_ outcome)) := by
  unfold probed at hentry
  dsimp only at hentry
  split at hentry
  · exact .inl hentry
  rename_i hup
  split at hentry
  · exact .inl hentry
  rename_i hrecheck
  cases outcome with
  | ok rtt =>
    dsimp only at hentry
    have hrearm : (Core.rearmRelayed { c with
        probe := { c.probe with
          inFlight := false, missed := 0, nextAt := some (c.now.after c.policy.probeInterval) } }).1.peers[p]? =
        some entry := by
      split at hentry
      · exact hentry
      · exact hentry
    obtain h | ⟨hscheduled, hchange⟩ := rearmRelayed_schedule hrearm hrelay
    · exact .inl h
    · exact .inr ⟨hscheduled, not_not.1 hup, eq_false_of_ne_true hrecheck, hchange⟩
  | error => exact .inl hentry
  | timeout =>
    dsimp only at hentry
    split at hentry
    · exact .inl hentry
    · split at hentry
      · exact .inl hentry
      · exact .inl hentry

theorem handle_schedule (hnow : c.now = now) (hentry : (c.handle input now).1.peers[p]? = some entry)
    (hrelay : entry.path = some .serverRelay) :
    c.Carried p (input.ontoRelay p = true) entry ∨
      (c.Scheduled now entry ∧ (entry.upgrade.attempts = (c.peer p).upgrade.attempts ∨ c.Rearms input)) := by
  cases input with
  | tick at_ =>
    obtain ⟨draws, -, hpeers, -⟩ := c.forPeers_spec fun _ entry rng => (settlePeer c.policy.stableAfter now entry, rng, [])
    have hentry : (c.settle now).peers[p]? = some entry := hentry
    unfold settle at hentry
    rw [hpeers p] at hentry
    obtain ⟨before, hbefore, rfl⟩ := Option.map_eq_some_iff.1 hentry
    unfold settlePeer at hrelay ⊢
    dsimp only at hrelay ⊢
    split_ifs at hrelay ⊢ with hheld
    · have hrelay : before.path = some .serverRelay := hrelay
      rw [hrelay] at hheld
      exact absurd hheld (by simp)
    · exact .inl (carried_self hbefore hrelay)
  | networkChanged at_ =>
    refine .inl (carried_self ?_ hrelay)
    simp only [handle, networkChanged] at hentry
    split_ifs at hentry
    · exact hentry
    · exact hentry
    · exact hentry
  | serverProbe at_ outcome =>
    obtain h | ⟨hscheduled, hrearms⟩ := probed_schedule at_ hentry hrelay
    · exact .inl (carried_self h hrelay)
    · exact .inr ⟨hnow ▸ hscheduled, .inr hrearms⟩
  | serverLink at_ state =>
    refine .inl (carried_self ?_ hrelay)
    cases state with
    | up =>
      simp only [handle, linkChanged] at hentry
      split_ifs at hentry
      · exact hentry
      · exact hentry
    | reconnecting =>
      simp only [handle, linkChanged, loseLink] at hentry
      unfold loseConnected at hentry
      split at hentry
      · exact foldl_lost_schedule hrelay _ { c with link := .reconnecting, forcing := false, probe := {} } hentry
      · exact foldl_lost_schedule hrelay _ { c with link := .reconnecting, forcing := false, probe := {} } hentry
    | ended =>
      simp only [handle, linkChanged] at hentry
      rw [Std.ExtTreeMap.getElem?_empty] at hentry
      cases hentry
  | forceFailed at_ => exact .inl (carried_self hentry hrelay)
  | peerLost at_ q => exact .inl (carried_self (lost_schedule hentry hrelay) hrelay)
  | peerReleased at_ q => exact .inl (carried_self (released_schedule hentry hrelay) hrelay)
  | peerUp at_ q path =>
    obtain h | ⟨hscheduled, hattempts⟩ := up_schedule hentry hrelay
    · exact .inl (h.imp fun hcomes => decide_eq_true hcomes)
    · exact .inr ⟨hscheduled, .inl hattempts⟩
  | peerReachable at_ q =>
    simp only [handle, reachable] at hentry
    split at hentry
    · exact .inl (carried_setPeer hentry hrelay rfl rfl rfl)
    · exact .inl (carried_setPeer hentry hrelay rfl rfl rfl)
  | peerPath at_ q path =>
    obtain h | ⟨hscheduled, hattempts⟩ := pathChanged_schedule hentry hrelay
    · exact .inl (h.imp False.elim)
    · exact .inr ⟨hscheduled, .inl hattempts⟩
  | dialResult at_ q outcome =>
    obtain h | ⟨hscheduled, hattempts⟩ := dialed_schedule hentry hrelay
    · refine .inl (h.imp ?_)
      rintro ⟨rfl, rfl⟩
      exact decide_eq_true rfl
    · exact .inr ⟨hscheduled, .inl hattempts⟩
  | backlog q pending =>
    have hentry : (c.setPeer q _).peers[p]? = some entry := hentry
    exact .inl (carried_setPeer hentry hrelay rfl rfl rfl)
  | interest q until_ =>
    have hentry : (c.setPeer q _).peers[p]? = some entry := hentry
    exact .inl (carried_setPeer hentry hrelay rfl rfl rfl)

/-! ## What is due -/

theorem driveProbe_peers (c : Core) (now : Millis) :
    (c.driveProbe now).1.peers = c.peers ∧ (c.driveProbe now).1.policy = c.policy := by
  unfold driveProbe
  dsimp only
  split
  · exact ⟨rfl, rfl⟩
  · exact ⟨rfl, rfl⟩

theorem drivePeer_eq (policy : SupervisorPolicy) (now : Millis) (cid : Cid) (entry : Peer) (rng : Rng) :
    ∃ dialed dials, dialed.path = entry.path ∧ dialed.connected = entry.connected ∧ dialed.upgrade = entry.upgrade ∧
      (∀ p restoreUdp, .upgradePath p restoreUdp ∉ dials) ∧
      drivePeer policy now cid entry rng =
        if dialed.onRelay && dialed.inUse now && decide (dialed.upgrade.nextAt ≤ now) then
          ({ dialed with upgrade := { dialed.upgrade with
              attempts := saturatingSucc32 dialed.upgrade.attempts
              nextAt := now.after (rng.delay policy.upgradeBackoff (saturatingSucc32 dialed.upgrade.attempts)
                policy.jitterPermille).1 } },
            (rng.delay policy.upgradeBackoff (saturatingSucc32 dialed.upgrade.attempts) policy.jitterPermille).2,
            dials ++ [.upgradePath cid true])
        else (dialed, rng, dials) := by
  unfold drivePeer
  by_cases hdial : dialDue policy now entry = true
  · rw [if_pos hdial]
    refine ⟨{ entry with dial := { entry.dial with inFlight := true }, dialingReported := true },
      (if entry.dialingReported then [] else [.report (.peerDialing cid)]) ++ [.dialPeer cid],
      rfl, rfl, rfl, fun p restoreUdp h => ?_, rfl⟩
    split_ifs at h <;> simp at h
  · rw [if_neg hdial]
    refine ⟨entry, [], rfl, rfl, rfl, fun p restoreUdp h => ?_, rfl⟩
    exact nomatch h

theorem drivePeer_upgrade (policy : SupervisorPolicy) (now : Millis) (cid : Cid) (entry : Peer) (rng : Rng) :
    (drivePeer policy now cid entry rng).1.path = entry.path ∧
    (drivePeer policy now cid entry rng).1.connected = entry.connected ∧
    ((drivePeer policy now cid entry rng).1.upgrade = entry.upgrade ∨
      ∃ r : Rng, (drivePeer policy now cid entry rng).1.upgrade.nextAt =
        now.after (r.delay policy.upgradeBackoff (drivePeer policy now cid entry rng).1.upgrade.attempts
          policy.jitterPermille).1) := by
  obtain ⟨dialed, dials, hpath, hconnected, hupgrade, -, heq⟩ := drivePeer_eq policy now cid entry rng
  rw [heq]
  split_ifs
  · exact ⟨hpath, hconnected, .inr ⟨rng, rfl⟩⟩
  · exact ⟨hpath, hconnected, .inl hupgrade⟩

theorem drive_schedule (hentry : (c.drive now).1.peers[p]? = some entry) :
    ∃ before ∈ c.peers[p]?, entry.path = before.path ∧ entry.connected = before.connected ∧
      (entry.upgrade = before.upgrade ∨ c.Scheduled now entry) := by
  unfold drive at hentry
  split at hentry
  · exact ⟨entry, hentry, rfl, rfl, .inl rfl⟩
  · obtain ⟨draws, -, hpeers, -⟩ := (c.driveProbe now).1.forPeers_spec (drivePeer (c.driveProbe now).1.policy now)
    obtain ⟨hsame, hpolicy⟩ := c.driveProbe_peers now
    dsimp only at hentry
    rw [hpeers p, hsame, hpolicy] at hentry
    obtain ⟨before, hbefore, rfl⟩ := Option.map_eq_some_iff.1 hentry
    exact ⟨before, hbefore, drivePeer_upgrade c.policy now p before (draws p)⟩

theorem upgrade_drive (h : .upgradePath p restoreUdp ∈ (c.drive now).2) :
    ∃ entry ∈ c.peers[p]?, entry.onRelay = true ∧ entry.upgrade.nextAt ≤ now := by
  unfold drive at h
  split at h
  · exact nomatch h
  obtain ⟨hsame, -⟩ := c.driveProbe_peers now
  dsimp only at h
  obtain h | h := List.mem_append.1 h
  · unfold driveProbe at h
    dsimp only at h
    split at h
    · exact nomatch List.mem_singleton.1 h
    · exact nomatch h
  · obtain ⟨q, entry, hentry, rng, h⟩ := mem_forPeers h
    obtain hreport | hdial | hupgrade := mem_drivePeer h
    · exact nomatch hreport
    · exact nomatch hdial
    · obtain rfl : p = q := by injection hupgrade
      obtain ⟨dialed, dials, hpath, hconnected, hsched, hdials, heq⟩ := drivePeer_eq (c.driveProbe now).1.policy now p entry rng
      rw [heq] at h
      split_ifs at h with hdue
      · rw [Bool.and_eq_true, Bool.and_eq_true] at hdue
        refine ⟨entry, hsame ▸ hentry, ?_, ?_⟩
        · have hrelay := hdue.1.1
          unfold Peer.onRelay at hrelay ⊢
          rw [hpath, hconnected] at hrelay
          exact hrelay
        · rw [← hsched]
          exact of_decide_eq_true hdue.2
      · exact absurd h (hdials p restoreUdp)

theorem upgrade_handle (h : .upgradePath p restoreUdp ∈ (c.handle input now).2) : c.Rearms input := by
  have hup : ∀ (c : Core) q path, .upgradePath p restoreUdp ∉ (c.up q path now).2 := by
    intro c q path h
    unfold up at h
    dsimp only at h
    split_ifs at h
    · cases List.mem_singleton.1 h
    · cases h
  cases input with
  | networkChanged at_ =>
    simp only [handle, networkChanged] at h
    split_ifs at h <;> simp at h
  | serverProbe at_ outcome =>
    simp only [handle, probed] at h
    split at h
    · cases h
    rename_i hlink
    split at h
    · cases List.mem_singleton.1 h
    rename_i hrecheck
    cases outcome with
    | ok rtt =>
      refine ⟨not_not.1 hlink, eq_false_of_ne_true hrecheck, ?_⟩
      dsimp only at h
      split at h
      · obtain h | h := List.mem_append.1 h
        · have hchange := (mem_rearmRelayed h).1
          exact hchange
        · cases List.mem_singleton.1 h
      · have hchange := (mem_rearmRelayed h).1
        exact hchange
    | error => cases h
    | timeout =>
      dsimp only at h
      split_ifs at h <;> simp at h
  | serverLink at_ state =>
    cases state with
    | up =>
      simp only [handle, linkChanged] at h
      split_ifs at h <;> simp at h
    | reconnecting =>
      simp only [handle, linkChanged, loseLink] at h
      split_ifs at h <;> simp at h
    | ended => cases h
  | peerUp at_ q path => exact absurd h (hup _ _ _)
  | dialResult at_ q outcome =>
    cases outcome with
    | connected =>
      simp only [handle, dialed] at h
      split at h
      · cases h
      · exact absurd h (hup _ _ _)
    | inProgress => cases h
    | failed =>
      simp only [handle, dialed] at h
      split_ifs at h <;> simp at h
  | tick at_ => cases h
  | forceFailed at_ => cases h
  | peerLost at_ q => cases h
  | peerReleased at_ q => cases h
  | peerReachable at_ q => cases h
  | peerPath at_ q path => cases h
  | backlog q pending => cases h
  | interest q until_ => cases h

/-! ## A step -/

theorem handle_policy (hc : c.link ≠ .ended) (input : Input) :
    (({ c with now := c.timeOf input } : Core).handle input (c.timeOf input)).1.policy = c.policy := by
  have hstep := c.step_policy input
  rw [step_eq hc] at hstep
  exact (drive_link _ _).1.symm.trans hstep

theorem step_schedule (hc : c.link ≠ .ended) (hentry : (c.step input).1.peers[p]? = some entry)
    (hrelay : entry.path = some .serverRelay) :
    c.Carried p (input.ontoRelay p = true) entry ∨ c.Scheduled (c.timeOf input) entry := by
  have hpolicy := handle_policy hc input
  rw [step_eq hc] at hentry
  obtain ⟨handled, hhandled, hpath, hconnected, hupgrade | ⟨r, hr⟩⟩ := drive_schedule hentry
  · rw [hpath] at hrelay
    obtain ⟨before, hbefore, hbpath, hbupgrade, hbconnected⟩ | ⟨⟨r, hr⟩, -⟩ := handle_schedule rfl hhandled hrelay
    · exact .inl ⟨before, hbefore, hbpath, hupgrade.trans hbupgrade, fun h => hbconnected (hconnected ▸ h)⟩
    · exact .inr ⟨r, by rw [hupgrade]; exact hr⟩
  · rw [hpolicy] at hr
    exact .inr ⟨r, hr⟩

theorem upgrade_sent (hc : c.link ≠ .ended) (h : .upgradePath p restoreUdp ∈ (c.step input).2) :
    c.Rearms input ∨ ∃ entry : Peer, entry.upgrade.nextAt ≤ c.timeOf input ∧
      ((∃ before ∈ c.peers[p]?, before.path = some .serverRelay ∧ entry.upgrade = before.upgrade) ∨
        (c.Scheduled (c.timeOf input) entry ∧ entry.upgrade.attempts = (c.peer p).upgrade.attempts)) := by
  have hpeer : (({ c with now := c.timeOf input } : Core).peer p).upgrade.attempts = (c.peer p).upgrade.attempts := by
    unfold peer
    cases c.peers[p]? <;> rfl
  rw [step_eq hc] at h
  obtain h | h := List.mem_append.1 h
  · have hrearms := upgrade_handle h
    exact .inl hrearms
  · obtain ⟨entry, hentry, hon, hdue⟩ := upgrade_drive h
    have hrelay : entry.path = some .serverRelay := by
      unfold Peer.onRelay at hon
      exact eq_of_beq (Bool.and_eq_true_iff.1 hon).2
    obtain ⟨before, hbefore, hpath, hupgrade, -⟩ | ⟨hscheduled, hattempts | hrearms⟩ := handle_schedule rfl hentry hrelay
    · exact .inr ⟨entry, hdue, .inl ⟨before, hbefore, hpath, hupgrade⟩⟩
    · exact .inr ⟨entry, hdue, .inr ⟨hscheduled, hattempts.trans hpeer⟩⟩
    · exact .inl hrearms

/-! ## A run -/

def relayed (c : Core) (p : Cid) : Bool := (c.peers[p]?).any Peer.onRelay

/-- The step finds `p` not on the relay, and leaves it connected there. -/
def BecomesRelayed (c : Core) (p : Cid) (input : Input) : Prop :=
  c.relayed p = false ∧ (c.step input).1.relayed p = true

/-- After a step that puts `p` on the relay none sends `p` an `UpgradePath` in the time `d`, but the first answered
probe after a network change; as long as `p` counts at least the attempts that `d` is the least backoff of. -/
def CampaignFirst (c₀ : Core) (inputs : List Input) (p : Cid) (attempts : UInt32) (d : Duration) : Prop :=
  ∀ earlier x mid y later, inputs = earlier ++ x :: (mid ++ y :: later) → BecomesRelayed (c₀.run earlier) p x →
    (∀ between, between <+: mid → attempts ≤ ((((c₀.run earlier).step x).1.run between).peer p).upgrade.attempts) →
    (((c₀.run earlier).step x).1.run mid).timeOf y < ((c₀.run earlier).timeOf x).after d →
    ∀ restoreUdp, .upgradePath p restoreUdp ∈ ((((c₀.run earlier).step x).1.run mid).step y).2 →
      Rearms (((c₀.run earlier).step x).1.run mid) y

/-- A peer that comes up on the relay was not reported there while it had no connection, unless its upgrade is not due for
the time `d`. -/
def Meets (p : Cid) (d : Duration) (c : Core) (input : Input) : Prop :=
  input.ontoRelay p = true → ∀ entry ∈ c.peers[p]?, entry.connected = false → entry.path = some .serverRelay →
    (c.timeOf input).after d ≤ entry.upgrade.nextAt

instance (p : Cid) (d : Duration) (c : Core) (input : Input) : Decidable (Meets p d c input) :=
  inferInstanceAs (Decidable (_ → ∀ entry ∈ c.peers[p]?, entry.connected = false → entry.path = some .serverRelay → _))

/-- The upgrade of `p`, if it is reported on the relay, is not due before `due`. -/
def DueFrom (p : Cid) (due : Millis) (c : Core) : Prop :=
  ∀ entry ∈ c.peers[p]?, entry.path = some .serverRelay → due ≤ entry.upgrade.nextAt

theorem after_le_after {t s : Millis} {d wait : Duration} (hts : t ≤ s) (hd : d ≤ wait) : t.after d ≤ s.after wait := by
  have hts := Millis.le_def.1 hts
  have hd : d.nanos ≤ wait.nanos := hd
  have hmillis : d.clampedMillis.toNat ≤ wait.clampedMillis.toNat := by
    rw [Duration.toNat_clampedMillis, Duration.toNat_clampedMillis]
    have hdiv : d.asMillis ≤ wait.asMillis := Nat.div_le_div_right hd
    omega
  rw [Millis.le_def, Millis.toNat_after, Millis.toNat_after]
  omega

theorem run_of_ended (h : c.link = .ended) (inputs : List Input) : c.run inputs = c := by
  induction inputs with
  | nil => rfl
  | cons z inputs ih => rw [run_cons, step_of_ended h, ih]

section Runs
variable {policy : SupervisorPolicy} {attempts : UInt32} {d : Duration} {p : Cid} {t : Millis}

theorem Scheduled.due (h : c.Scheduled now entry)
    (hleast : ∀ (r : Rng) k, attempts ≤ k → d ≤ (r.delay c.policy.upgradeBackoff k c.policy.jitterPermille).1)
    (hattempts : attempts ≤ entry.upgrade.attempts) (hnow : t ≤ now) : t.after d ≤ entry.upgrade.nextAt := by
  obtain ⟨r, hr⟩ := h
  rw [hr]
  exact after_le_after hnow (hleast r _ hattempts)

theorem peer_of_mem (h : c.peers[p]? = some entry) : c.peer p = entry := by
  unfold peer
  rw [h]
  rfl

theorem dueFrom_step (hc : c.link ≠ .ended)
    (hleast : ∀ (r : Rng) k, attempts ≤ k → d ≤ (r.delay c.policy.upgradeBackoff k c.policy.jitterPermille).1)
    (hattempts : attempts ≤ ((c.step input).1.peer p).upgrade.attempts) (hnow : t ≤ c.timeOf input)
    (hdue : DueFrom p (t.after d) c) : DueFrom p (t.after d) (c.step input).1 := by
  intro entry hentry hrelay
  rw [peer_of_mem hentry] at hattempts
  obtain ⟨before, hbefore, hpath, hupgrade, -⟩ | hscheduled := step_schedule hc hentry hrelay
  · rw [hupgrade]
    exact hdue before hbefore hpath
  · exact hscheduled.due hleast hattempts hnow

theorem timeOf_le (hnow : t ≤ c.now) (htime : ∀ at_ ∈ input.time?, t ≤ at_) :
    t ≤ c.timeOf input := by
  match h : input.time? with
  | some at_ =>
    rw [timeOf_of_time? h]
    exact htime at_ h
  | none =>
    have hself : c.timeOf input = c.now := by cases input <;> simp_all [Input.time?, timeOf]
    rw [hself]
    exact hnow

theorem dueFrom_run (hnow : t ≤ c.now) {inputs : List Input}
    (hleast : ∀ (r : Rng) k, attempts ≤ k → d ≤ (r.delay c.policy.upgradeBackoff k c.policy.jitterPermille).1)
    (htimes : ∀ z ∈ inputs, ∀ at_ ∈ z.time?, t ≤ at_)
    (hattempts : ∀ between, between <+: inputs → attempts ≤ ((c.run between).peer p).upgrade.attempts)
    (hdue : DueFrom p (t.after d) c) : DueFrom p (t.after d) (c.run inputs) ∧ t ≤ (c.run inputs).now := by
  induction inputs generalizing c with
  | nil => exact ⟨hdue, hnow⟩
  | cons z inputs ih =>
    have htime := timeOf_le hnow (htimes z List.mem_cons_self)
    have hnext : DueFrom p (t.after d) (c.step z).1 ∧ t ≤ (c.step z).1.now := by
      by_cases hc : c.link = .ended
      · rw [step_of_ended hc]
        exact ⟨hdue, hnow⟩
      · refine ⟨dueFrom_step hc hleast ?_ htime hdue, (step_now hc z).symm ▸ htime⟩
        exact hattempts [z] (List.prefix_append [z] inputs)
    refine ih hnext.2 ((c.step_policy z).symm ▸ hleast) (fun z' hz' => htimes z' (List.mem_cons_of_mem _ hz')) ?_ hnext.1
    exact fun between hb => hattempts (z :: between) (List.cons_prefix_cons.2 ⟨rfl, hb⟩)

theorem lastTime_le {earlier later : List Input} (htimes : NonDecreasing (earlier ++ later)) {z : Input} (hz : z ∈ later)
    {at_ : Millis} (hat : at_ ∈ z.time?) : lastTime earlier ≤ at_ := by
  unfold NonDecreasing at htimes
  rw [List.filterMap_append, List.pairwise_append] at htimes
  unfold lastTime
  match hlast : (earlier.filterMap Input.time?).getLast? with
  | none => exact UInt64.le_iff_toNat_le.2 (Nat.zero_le _)
  | some s => exact htimes.2.2 s (List.mem_of_getLast? hlast) at_ (List.mem_filterMap.2 ⟨z, hz, hat⟩)

theorem dueFrom_becomes (hc : c.link ≠ .ended)
    (hleast : ∀ (r : Rng) k, attempts ≤ k → d ≤ (r.delay c.policy.upgradeBackoff k c.policy.jitterPermille).1)
    (hattempts : attempts ≤ ((c.step input).1.peer p).upgrade.attempts) (hmeets : Meets p d c input)
    (hbecomes : BecomesRelayed c p input) : DueFrom p ((c.timeOf input).after d) (c.step input).1 := by
  intro entry hentry hrelay
  rw [peer_of_mem hentry] at hattempts
  obtain ⟨before, hbefore, hpath, hupgrade, hconnected⟩ | hscheduled := step_schedule hc hentry hrelay
  · obtain ⟨hoff, hon⟩ := hbecomes
    unfold relayed at hoff hon
    rw [hentry, Option.any_some] at hon
    rw [hbefore, Option.any_some] at hoff
    unfold Peer.onRelay at hoff hon
    rw [hpath, beq_self_eq_true, Bool.and_true] at hoff
    obtain h | honto := hconnected (Bool.and_eq_true_iff.1 hon).1
    · rw [hoff] at h
      exact nomatch h
    · rw [hupgrade]
      exact hmeets honto before hbefore hoff hpath
  · exact hscheduled.due hleast hattempts (UInt64.le_refl _)

end Runs

end Core

end CitadelAgent.Supervisor
