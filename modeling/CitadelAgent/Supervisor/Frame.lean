import CitadelAgent.Supervisor.Core

/-!
# Supervisor: what each part of a step leaves alone

* `forPeers_spec` : one pass over the peers applies the loop body once to each entry, changes nothing
  else of the core, and commands what the bodies command, in key order;
* `SameLink c c'` : the link's half of the core (link, probe, reports, flags) is unchanged; every peer
  handler keeps it.
-/

namespace CitadelAgent.Supervisor.Core

/-! ## The loop over the peers -/

/-- The body of `forPeers`. -/
def visit (f : Cid → Peer → Rng → Peer × Rng × List Command) (acc : Core × List Command) (cid : Cid) :
    Core × List Command :=
  match acc.1.peers[cid]? with
  | some entry =>
    let (entry, rng, commands) := f cid entry acc.1.rng
    ({ acc.1 with peers := acc.1.peers.insert cid entry, rng := rng }, acc.2 ++ commands)
  | none => acc

theorem forPeers_eq (f : Cid → Peer → Rng → Peer × Rng × List Command) (c : Core) :
    c.forPeers f = c.peers.keys.foldl (visit f) (c, []) := rfl

theorem visit_frame (f : Cid → Peer → Rng → Peer × Rng × List Command) (acc : Core × List Command) (cid : Cid) :
    (visit f acc cid).1 = { acc.1 with peers := (visit f acc cid).1.peers, rng := (visit f acc cid).1.rng } := by
  unfold visit
  split <;> rfl

theorem visit_peers (f : Cid → Peer → Rng → Peer × Rng × List Command) (acc : Core × List Command) (cid p : Cid) :
    (visit f acc cid).1.peers[p]? =
      if p = cid then acc.1.peers[p]?.map fun entry => (f p entry acc.1.rng).1 else acc.1.peers[p]? := by
  unfold visit
  split
  · rename_i entry h
    simp only [Std.ExtTreeMap.getElem?_insert, Std.LawfulEqCmp.compare_eq_iff_eq]
    by_cases hp : p = cid
    · subst hp
      simp [h]
    · simp [hp, Ne.symm hp]
  · rename_i h
    by_cases hp : p = cid
    · subst hp
      simp [h]
    · simp [hp]

theorem visit_commands (f : Cid → Peer → Rng → Peer × Rng × List Command) (acc : Core × List Command) (cid : Cid) :
    (visit f acc cid).2 = acc.2 ++ (acc.1.peers[cid]?).elim [] fun entry => (f cid entry acc.1.rng).2.2 := by
  unfold visit
  split
  · rename_i entry h
    simp [h]
  · rename_i h
    simp [h]

theorem foldl_visit (f : Cid → Peer → Rng → Peer × Rng × List Command) (keys : List Cid) (hnd : keys.Nodup)
    (acc : Core × List Command) :
    ∃ draws : Cid → Rng,
      (keys.foldl (visit f) acc).1 =
        { acc.1 with
          peers := (keys.foldl (visit f) acc).1.peers, rng := (keys.foldl (visit f) acc).1.rng } ∧
      (∀ p, (keys.foldl (visit f) acc).1.peers[p]? =
        if p ∈ keys then acc.1.peers[p]?.map fun entry => (f p entry (draws p)).1 else acc.1.peers[p]?) ∧
      (keys.foldl (visit f) acc).2 =
        acc.2 ++ keys.flatMap fun p => (acc.1.peers[p]?).elim [] fun entry => (f p entry (draws p)).2.2 := by
  induction keys generalizing acc with
  | nil => exact ⟨fun _ => acc.1.rng, rfl, fun p => by simp, by simp⟩
  | cons k keys ih =>
    obtain ⟨hk, hnd⟩ := List.nodup_cons.mp hnd
    obtain ⟨draws, hframe, hpeers, hcmds⟩ := ih hnd (visit f acc k)
    have hne : ∀ p ∈ keys, p ≠ k := fun p hp h => hk (h ▸ hp)
    refine ⟨fun p => if p = k then acc.1.rng else draws p, ?_, ?_, ?_⟩
    · rw [List.foldl_cons, hframe, visit_frame]
    · intro p
      rw [List.foldl_cons, hpeers p, visit_peers]
      by_cases hp : p = k
      · subst hp
        simp [hk]
      · by_cases hmem : p ∈ keys <;> simp [hp, hmem]
    · rw [List.foldl_cons, hcmds, visit_commands, List.flatMap_cons, List.append_assoc]
      congr 1
      simp only [if_true]
      congr 1
      apply List.flatMap_congr
      intro p hp
      rw [visit_peers, if_neg (hne p hp), if_neg (hne p hp)]

/-- **One pass over the peers.** `draws p` is the generator as the loop reaches `p`. -/
theorem forPeers_spec (f : Cid → Peer → Rng → Peer × Rng × List Command) (c : Core) :
    ∃ draws : Cid → Rng,
      (c.forPeers f).1 = { c with peers := (c.forPeers f).1.peers, rng := (c.forPeers f).1.rng } ∧
      (∀ p, (c.forPeers f).1.peers[p]? = c.peers[p]?.map fun entry => (f p entry (draws p)).1) ∧
      (c.forPeers f).2 =
        c.peers.keys.flatMap fun p => (c.peers[p]?).elim [] fun entry => (f p entry (draws p)).2.2 := by
  have hnd : c.peers.keys.Nodup :=
    c.peers.distinct_keys.imp fun h heq => h (Std.LawfulEqCmp.compare_eq_iff_eq.mpr heq)
  obtain ⟨draws, hframe, hpeers, hcmds⟩ := foldl_visit f c.peers.keys hnd (c, [])
  refine ⟨draws, hframe, fun p => ?_, hcmds⟩
  rw [forPeers_eq, hpeers p]
  split
  · rfl
  · rename_i hp
    rw [Std.ExtTreeMap.mem_keys] at hp
    simp [Std.ExtTreeMap.getElem?_eq_none hp]

theorem count_flatMap_of_nodup {α β : Type} [DecidableEq α] [DecidableEq β] {keys : List α} (hnd : keys.Nodup)
    (g : α → List β) (p : α) (b : β) (h : ∀ q, q ≠ p → (g q).count b = 0) :
    (keys.flatMap g).count b = if p ∈ keys then (g p).count b else 0 := by
  induction keys with
  | nil => simp
  | cons k keys ih =>
    obtain ⟨hk, hnd⟩ := List.nodup_cons.mp hnd
    rw [List.flatMap_cons, List.count_append, ih hnd]
    by_cases hp : p = k
    · subst hp
      simp [hk]
    · rw [h k (Ne.symm hp)]
      simp [hp]

/-- One pass over the peers, seen from `p`: its entry goes through the body once, and a command that only
`p`'s body gives comes from that one call. -/
theorem forPeers_at (f : Cid → Peer → Rng → Peer × Rng × List Command) (c : Core) (p : Cid) (command : Command)
    (h : ∀ q entry rng, q ≠ p → (f q entry rng).2.2.count command = 0) :
    ∃ rng, (c.forPeers f).1.peers[p]? = c.peers[p]?.map (fun entry => (f p entry rng).1) ∧
      (c.forPeers f).2.count command = (c.peers[p]?).elim 0 fun entry => (f p entry rng).2.2.count command := by
  obtain ⟨draws, -, hpeers, hcmds⟩ := c.forPeers_spec f
  have hnd : c.peers.keys.Nodup :=
    c.peers.distinct_keys.imp fun h heq => h (Std.LawfulEqCmp.compare_eq_iff_eq.mpr heq)
  refine ⟨draws p, hpeers p, ?_⟩
  rw [hcmds, count_flatMap_of_nodup hnd _ p command]
  · cases hp : c.peers[p]? with
    | none => simp
    | some entry =>
      have : p ∈ c.peers.keys := Std.ExtTreeMap.mem_keys.mpr (Std.ExtTreeMap.mem_iff_isSome_getElem?.mpr (by simp [hp]))
      simp [this]
  · intro q hq
    cases hp : c.peers[q]? with
    | none => simp
    | some entry => simpa using h q entry (draws q) hq

/-! ## The link's half -/

/-- Everything of the core but the peers and the generator is the same. -/
structure SameLink (c c' : Core) : Prop where
  policy : c'.policy = c.policy
  link : c'.link = c.link
  now : c'.now = c.now
  probe : c'.probe = c.probe
  healing : c'.healing = c.healing
  forcing : c'.forcing = c.forcing
  afterChange : c'.afterChange = c.afterChange

variable {c : Core} {command : Command}

namespace SameLink

theorem refl (c : Core) : SameLink c c := ⟨rfl, rfl, rfl, rfl, rfl, rfl, rfl⟩

theorem trans {a b : Core} (h₁ : SameLink a b) (h₂ : SameLink b c) : SameLink a c :=
  ⟨h₂.policy.trans h₁.policy, h₂.link.trans h₁.link, h₂.now.trans h₁.now, h₂.probe.trans h₁.probe,
    h₂.healing.trans h₁.healing, h₂.forcing.trans h₁.forcing, h₂.afterChange.trans h₁.afterChange⟩

theorem of_eq {c' : Core} (h : c' = { c with peers := c'.peers, rng := c'.rng }) : SameLink c c' := by
  rw [h]
  exact ⟨rfl, rfl, rfl, rfl, rfl, rfl, rfl⟩

end SameLink

theorem sameLink_setPeer (c : Core) (cid : Cid) (entry : Peer) : SameLink c (c.setPeer cid entry) :=
  .of_eq rfl

theorem sameLink_forPeers (f : Cid → Peer → Rng → Peer × Rng × List Command) (c : Core) :
    SameLink c (c.forPeers f).1 := by
  obtain ⟨_, hframe, -, -⟩ := c.forPeers_spec f
  exact .of_eq hframe

theorem sameLink_settle (c : Core) (now : Millis) : SameLink c (c.settle now) := c.sameLink_forPeers _

theorem sameLink_lost (c : Core) (cid : Cid) (now : Millis) : SameLink c (c.lost cid now) := .of_eq rfl

theorem sameLink_released (c : Core) (cid : Cid) (now : Millis) : SameLink c (c.released cid now) :=
  (c.sameLink_lost cid now).trans (sameLink_setPeer _ _ _)

theorem sameLink_reachable (c : Core) (cid : Cid) (now : Millis) : SameLink c (c.reachable cid now) :=
  c.sameLink_setPeer _ _

theorem sameLink_pathChanged (c : Core) (cid : Cid) (path : P2pPathReport) (now : Millis) :
    SameLink c (c.pathChanged cid path now) := by
  unfold pathChanged
  dsimp only
  split
  · exact .of_eq rfl
  · exact c.sameLink_setPeer _ _

theorem sameLink_up (c : Core) (cid : Cid) (path : P2pPathReport) (now : Millis) :
    SameLink c (c.up cid path now).1 :=
  (c.sameLink_setPeer cid _).trans (sameLink_pathChanged _ _ _ _)

theorem sameLink_dialed (c : Core) (cid : Cid) (outcome : DialOutcome) (now : Millis) :
    SameLink c (c.dialed cid outcome now).1 := by
  unfold dialed
  cases outcome with
  | connected =>
    dsimp only
    split
    · exact c.sameLink_setPeer _ _
    · exact (c.sameLink_setPeer cid _).trans (sameLink_up _ _ _ _)
  | inProgress => exact .of_eq rfl
  | failed => exact .of_eq rfl

theorem sameLink_foldl_lost (cids : List Cid) (c : Core) :
    SameLink c (cids.foldl (fun c cid => c.lost cid c.now) c) := by
  induction cids generalizing c with
  | nil => exact .refl c
  | cons cid cids ih => exact (c.sameLink_lost cid c.now).trans (ih _)

theorem sameLink_loseConnected (c : Core) : SameLink c c.loseConnected := sameLink_foldl_lost _ c

theorem drive_link (c : Core) (now : Millis) :
    (c.drive now).1.policy = c.policy ∧ (c.drive now).1.link = c.link ∧ (c.drive now).1.now = c.now ∧
      (c.drive now).1.probe.missed = c.probe.missed ∧ (c.drive now).1.probe.recheck = c.probe.recheck ∧
      (c.drive now).1.healing = c.healing ∧ (c.drive now).1.forcing = c.forcing ∧
      (c.drive now).1.afterChange = c.afterChange := by
  unfold drive
  split
  · exact ⟨rfl, rfl, rfl, rfl, rfl, rfl, rfl, rfl⟩
  · have h := (c.driveProbe now).1.sameLink_forPeers (drivePeer (c.driveProbe now).1.policy now)
    have hp : (c.driveProbe now).1.probe.missed = c.probe.missed ∧
        (c.driveProbe now).1.probe.recheck = c.probe.recheck := by
      unfold driveProbe
      dsimp only
      split <;> exact ⟨rfl, rfl⟩
    have hc : SameLink { c with probe := (c.driveProbe now).1.probe } (c.driveProbe now).1 := by
      unfold driveProbe
      dsimp only
      split <;> exact .of_eq rfl
    have h := hc.trans h
    exact ⟨h.policy, h.link, h.now, (congrArg Probe.missed h.probe).trans hp.1,
      (congrArg Probe.recheck h.probe).trans hp.2, h.healing, h.forcing, h.afterChange⟩

/-! ## What the peer half never commands -/

theorem mem_forPeers {f : Cid → Peer → Rng → Peer × Rng × List Command}
    (h : command ∈ (c.forPeers f).2) : ∃ p, ∃ entry ∈ c.peers[p]?, ∃ rng, command ∈ (f p entry rng).2.2 := by
  obtain ⟨draws, -, -, hcmds⟩ := c.forPeers_spec f
  rw [hcmds, List.mem_flatMap] at h
  obtain ⟨p, -, h⟩ := h
  cases hp : c.peers[p]? with
  | none => simp [hp] at h
  | some entry =>
    rw [hp] at h
    exact ⟨p, entry, hp, draws p, h⟩

theorem mem_drivePeer {policy : SupervisorPolicy} {now : Millis} {cid : Cid} {entry : Peer} {rng : Rng}
    (h : command ∈ (drivePeer policy now cid entry rng).2.2) :
    command = .report (.peerDialing cid) ∨ command = .dialPeer cid ∨ command = .upgradePath cid true := by
  unfold drivePeer at h
  dsimp only at h
  split_ifs at h <;> simp at h <;> grind

theorem mem_drive {now : Millis} (h : command ∈ (c.drive now).2) :
    command = .probeServer ∨ ∃ p, command = .report (.peerDialing p) ∨ command = .dialPeer p ∨
      command = .upgradePath p true := by
  unfold drive at h
  split at h
  · simp at h
  · rcases List.mem_append.mp h with h | h
    · unfold driveProbe at h
      dsimp only at h
      split at h
      · exact .inl (by simpa using h)
      · simp at h
    · obtain ⟨p, entry, -, rng, h⟩ := mem_forPeers h
      exact .inr ⟨p, mem_drivePeer h⟩

theorem mem_rearmRelayed (h : command ∈ c.rearmRelayed.2) : c.afterChange = true ∧ ∃ p, command = .upgradePath p true := by
  unfold rearmRelayed at h
  split at h
  case isTrue hchange =>
    obtain ⟨p, entry, -, rng, h⟩ := mem_forPeers h
    unfold rearmPeer at h
    split at h
    · exact ⟨hchange, p, List.mem_singleton.mp h⟩
    · exact nomatch h
  case isFalse => exact nomatch h

theorem forceReconnect_notMem_drive (c : Core) (now : Millis) : .forceReconnect ∉ (c.drive now).2 := by
  intro h
  rcases mem_drive h with h | ⟨p, h | h | h⟩ <;> cases h

theorem forceReconnect_notMem_rearmRelayed (c : Core) : .forceReconnect ∉ c.rearmRelayed.2 :=
  fun h => nomatch (mem_rearmRelayed h).2.choose_spec

theorem sameLink_rearmRelayed (c : Core) :
    SameLink { c with afterChange := false } c.rearmRelayed.1 := by
  unfold rearmRelayed
  split
  · exact sameLink_forPeers _ _
  · rename_i h
    have h : c.afterChange = false := by simpa using h
    exact ⟨rfl, rfl, rfl, rfl, rfl, rfl, h⟩

/-! ## The policy is fixed -/

theorem probed_policy (c : Core) (outcome : ProbeOutcome) : (c.probed outcome).1.policy = c.policy := by
  unfold probed
  dsimp only
  split
  · rfl
  split
  · rfl
  cases outcome with
  | ok rtt =>
    dsimp only
    split <;> exact (sameLink_rearmRelayed _).policy
  | error => rfl
  | timeout =>
    dsimp only
    split
    · rfl
    · split <;> rfl

theorem linkChanged_policy (c : Core) (state : LinkStatus) (now : Millis) :
    (c.linkChanged state now).1.policy = c.policy := by
  cases state with
  | up => simp only [linkChanged]; split <;> rfl
  | reconnecting => simp only [linkChanged, loseLink]; split <;> exact (sameLink_loseConnected _).policy
  | ended => rfl

/-! ## A step, taken apart -/

theorem step_of_ended (h : c.link = .ended) (input : Input) : c.step input = (c, []) := by
  simp [step, h]

theorem step_eq (h : c.link ≠ .ended) (input : Input) :
    c.step input =
      (((({ c with now := c.timeOf input } : Core).handle input (c.timeOf input)).1.drive (c.timeOf input)).1,
        (({ c with now := c.timeOf input } : Core).handle input (c.timeOf input)).2 ++
          ((({ c with now := c.timeOf input } : Core).handle input (c.timeOf input)).1.drive (c.timeOf input)).2) := by
  simp [step, h]

theorem step_policy (c : Core) (input : Input) : (c.step input).1.policy = c.policy := by
  by_cases h : c.link = .ended
  · rw [step_of_ended h]
  rw [step_eq h]
  refine (drive_link _ _).1.trans ?_
  cases input with
  | tick at_ => exact (sameLink_settle _ _).policy
  | networkChanged at_ => simp only [handle, networkChanged]; split_ifs <;> rfl
  | serverProbe at_ outcome => exact probed_policy _ _
  | serverLink at_ state => exact linkChanged_policy _ _ _
  | forceFailed at_ => rfl
  | peerLost at_ peer => exact (sameLink_lost _ _ _).policy
  | peerReleased at_ peer => exact (sameLink_released _ _ _).policy
  | peerUp at_ peer path => exact (sameLink_up _ _ _ _).policy
  | peerReachable at_ peer => exact (sameLink_reachable _ _ _).policy
  | peerPath at_ peer path => exact (sameLink_pathChanged _ _ _ _).policy
  | dialResult at_ peer outcome => exact (sameLink_dialed _ _ _ _).policy
  | backlog peer pending => rfl
  | interest peer until_ => rfl

theorem run_policy (c : Core) (inputs : List Input) : (c.run inputs).policy = c.policy := by
  induction inputs generalizing c with
  | nil => rfl
  | cons input inputs ih => rw [run_cons, ih, step_policy]

end CitadelAgent.Supervisor.Core
