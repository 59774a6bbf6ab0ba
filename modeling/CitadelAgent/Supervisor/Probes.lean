import CitadelAgent.Supervisor.Frame

/-!
# Supervisor: a link is forced only when it missed its probes

* `ProbeInv` : the counter is below the threshold, and is zero while a recheck is pending or the link
  is not up (`step_probeInv`, `run_probeInv`);
* `Missed c₀ before window n` : after `before`, the inputs `window` hold `n` timeouts, each of them
  counted, and nothing that would have cleared the counter;
* `run_missed` : the counter of every reachable core whose link is up is the length of such a window;
* `forceReconnect_of_missed_probes` : so a `ForceReconnect` ends one of `max 1 missedProbes` timeouts.
-/

namespace CitadelAgent.Supervisor

def Input.isTimeout : Input → Bool
  | .serverProbe _ .timeout => true
  | _ => false

/-- An input after which earlier misses no longer count. -/
def Input.resets : Input → Bool
  | .serverProbe _ (.ok _) | .networkChanged _ | .serverLink _ _ | .forceFailed _ => true
  | _ => false

/-- How many misses in a row end the link: a policy of zero ends it at the first, as one does. -/
def SupervisorPolicy.threshold (policy : SupervisorPolicy) : Nat := max 1 policy.missedProbes.toNat

theorem SupervisorPolicy.threshold_lt (policy : SupervisorPolicy) : policy.threshold < 2 ^ 32 := by
  have := policy.missedProbes.toNat_lt
  unfold threshold
  omega

namespace Core

/-! ## What a step does to the counter -/

structure Counter where
  link : LinkStatus
  missed : UInt32
  recheck : Bool

def counter (c : Core) : Counter := ⟨c.link, c.probe.missed, c.probe.recheck⟩

/-- Every way an input moves the counter under the threshold `k`; the flag says whether the link is forced. -/
inductive Counter.Step (k : UInt32) : Counter → Input → Counter → Bool → Prop
  | ended {s input} (h : s.link = .ended) : Step k s input s false
  | other {s input} (hr : input.resets = false) (ht : input.isTimeout = false) : Step k s input s false
  | down {s now outcome} (h : s.link ≠ .up) : Step k s (.serverProbe now outcome) s false
  | discarded {s now outcome} (h : s.link = .up) (hr : s.recheck = true) :
      Step k s (.serverProbe now outcome) { s with recheck := false } false
  | answered {s now rtt} (h : s.link = .up) : Step k s (.serverProbe now (.ok rtt)) { s with missed := 0 } false
  | miss {s now} (h : s.link = .up) (hr : s.recheck = false) (hk : s.missed + 1 < k) :
      Step k s (.serverProbe now .timeout) { s with missed := s.missed + 1 } false
  | force {s now} (h : s.link = .up) (hr : s.recheck = false) (hk : ¬ s.missed + 1 < k) :
      Step k s (.serverProbe now .timeout) { s with missed := 0 } true
  | network {s now} (recheck : Bool) : Step k s (.networkChanged now) { s with missed := 0, recheck := recheck } false
  | link {s now state} : Step k s (.serverLink now state) ⟨state, 0, false⟩ false
  | linkEnded {s now} : Step k s (.serverLink now .ended) { s with link := .ended } false
  | forceFailed {s now} : Step k s (.forceFailed now) { s with missed := 0, recheck := false } false

theorem SameLink.counter {c c' : Core} (h : SameLink c c') : c'.counter = c.counter := by
  unfold Core.counter
  rw [h.link, h.probe]

variable (c : Core)

theorem counter_drive (now : Millis) : (c.drive now).1.counter = c.counter := by
  obtain ⟨-, hl, -, hm, hr, -⟩ := c.drive_link now
  unfold counter
  rw [hl, hm, hr]

def forces (commands : List Command) : Bool := decide (.forceReconnect ∈ commands)

theorem networkChanged_counterStep (k : UInt32) (now : Millis) :
    Counter.Step k c.counter (.networkChanged now) c.networkChanged.1.counter (forces c.networkChanged.2) := by
  unfold networkChanged
  dsimp only
  split_ifs
  · exact .network true
  · exact .network c.probe.recheck
  · exact .network c.probe.recheck

theorem probed_counterStep (now : Millis) (outcome : ProbeOutcome) :
    Counter.Step c.policy.missedProbes c.counter (.serverProbe now outcome) (c.probed outcome).1.counter
      (forces (c.probed outcome).2) := by
  unfold probed
  dsimp only
  split
  · rename_i h
    exact .down h
  rename_i h
  have h : c.link = .up := not_not.mp h
  split
  · rename_i hr
    exact .discarded h hr
  rename_i hr
  have hr : c.probe.recheck = false := by simpa using hr
  cases outcome with
  | ok rtt =>
    dsimp only
    -- the answer clears the counter before the relayed peers are re-armed
    generalize hd : ({ c with probe := { c.probe with
      inFlight := false, missed := 0, nextAt := some (c.now.after c.policy.probeInterval) } } : Core) = d
    have hcounter : d.rearmRelayed.1.counter = { c.counter with missed := 0 } := by
      rw [(sameLink_rearmRelayed d).counter, ← hd]
      rfl
    have hnone := forceReconnect_notMem_rearmRelayed d
    split
    · rw [show forces (d.rearmRelayed.2 ++ [.report .healed]) = false by simpa [forces] using hnone]
      exact hcounter ▸ .answered h
    · rw [show forces d.rearmRelayed.2 = false by simpa [forces] using hnone, hcounter]
      exact .answered h
  | error => exact .other rfl rfl
  | timeout =>
    dsimp only
    split
    · rename_i hk
      exact .miss h hr hk
    · rename_i hk
      split <;> exact .force h hr hk

theorem linkChanged_counterStep (k : UInt32) (state : LinkStatus) (now at_ : Millis) :
    Counter.Step k c.counter (.serverLink at_ state) (c.linkChanged state now).1.counter
      (forces (c.linkChanged state now).2) := by
  cases state with
  | up =>
    unfold linkChanged
    dsimp only
    split <;> exact .link
  | reconnecting =>
    simp only [linkChanged, loseLink]
    have hcounter : (loseConnected { c with link := .reconnecting, forcing := false, probe := {} }).counter =
        ⟨.reconnecting, 0, false⟩ := (sameLink_loseConnected _).counter
    split
    · rw [hcounter]
      exact .link
    · exact hcounter ▸ .link
  | ended => exact .linkEnded

theorem handle_counterStep (input : Input) (now : Millis) :
    Counter.Step c.policy.missedProbes c.counter input (c.handle input now).1.counter
      (forces (c.handle input now).2) := by
  cases input with
  | tick at_ => exact (sameLink_settle c now).counter ▸ .other rfl rfl
  | networkChanged at_ => exact c.networkChanged_counterStep _ _
  | serverProbe at_ outcome => exact c.probed_counterStep _ _
  | serverLink at_ state => exact c.linkChanged_counterStep _ _ _ _
  | forceFailed at_ => exact .forceFailed
  | peerLost at_ peer => exact (c.sameLink_lost peer now).counter ▸ .other rfl rfl
  | peerReleased at_ peer => exact (c.sameLink_released peer now).counter ▸ .other rfl rfl
  | peerUp at_ peer path =>
    have hf : forces (c.up peer path now).2 = false := by
      simp only [forces, up]
      split <;> simp
    simp only [handle, hf, (c.sameLink_up peer path now).counter]
    exact .other rfl rfl
  | peerReachable at_ peer => exact (c.sameLink_reachable peer now).counter ▸ .other rfl rfl
  | peerPath at_ peer path => exact (c.sameLink_pathChanged peer path now).counter ▸ .other rfl rfl
  | dialResult at_ peer outcome =>
    have hf : forces (c.dialed peer outcome now).2 = false := by
      cases outcome with
      | connected => simp only [forces, dialed, up]; split_ifs <;> simp
      | failed => simp only [forces, dialed]; split_ifs <;> simp
      | inProgress => simp [forces, dialed]
    simp only [handle, hf, (c.sameLink_dialed peer outcome now).counter]
    exact .other rfl rfl
  | backlog peer pending => exact .other rfl rfl
  | interest peer until_ => exact .other rfl rfl

theorem step_counterStep (input : Input) :
    Counter.Step c.policy.missedProbes c.counter input (c.step input).1.counter (forces (c.step input).2) := by
  by_cases h : c.link = .ended
  · rw [step_of_ended h]
    exact .ended h
  · have hs := handle_counterStep { c with now := c.timeOf input } input (c.timeOf input)
    rw [step_eq h]
    dsimp only
    rw [counter_drive]
    have hf : ∀ d : Core, ∀ l, forces (l ++ (d.drive (c.timeOf input)).2) = forces l := by
      intro d l
      simp [forces, d.forceReconnect_notMem_drive (c.timeOf input)]
    rw [hf]
    exact hs

theorem step_link_of_ne (input : Input) (h : ∀ now state, input ≠ .serverLink now state) :
    (c.step input).1.link = c.link := by
  have hstep := c.step_counterStep input
  generalize hs : (c.step input).1.counter = s' at hstep
  have hlink : (c.step input).1.link = s'.link := congrArg Counter.link hs
  generalize forces (c.step input).2 = forced at hstep
  cases hstep <;> first | exact hlink | exact absurd rfl (h _ _)

theorem step_serverLink_link {c : Core} (hc : c.link ≠ .ended) (now : Millis) (state : LinkStatus) :
    (c.step (.serverLink now state)).1.link = state := by
  have hstep := c.step_counterStep (.serverLink now state)
  generalize hs : (c.step (.serverLink now state)).1.counter = s' at hstep
  have hlink : (c.step (.serverLink now state)).1.link = s'.link := congrArg Counter.link hs
  generalize forces (c.step (.serverLink now state)).2 = forced at hstep
  cases hstep with
  | ended h => exact absurd h hc
  | other hr ht => simp [Input.resets] at hr
  | link => exact hlink
  | linkEnded => exact hlink

/-! ## The invariant -/

/-- The counter is below the threshold, and zero where a miss could not be counted. -/
structure ProbeInv (k : UInt32) (s : Counter) : Prop where
  below : s.missed.toNat < max 1 k.toNat
  recheck : s.recheck = true → s.missed = 0
  down : s.link = .reconnecting → s.missed = 0

theorem toNat_succ_of_lt {missed k : UInt32} (h : missed.toNat < max 1 k.toNat) :
    (missed + 1).toNat = missed.toNat + 1 := by
  have := k.toNat_lt
  rw [UInt32.toNat_add]
  exact Nat.mod_eq_of_lt (by simp; omega)

theorem Counter.Step.probeInv {k : UInt32} {s s' : Counter} {input : Input} {forced : Bool}
    (h : Counter.Step k s input s' forced) (inv : ProbeInv k s) : ProbeInv k s' := by
  have hpos : 0 < max 1 k.toNat := by omega
  cases h with
  | ended h => exact inv
  | other hr ht => exact inv
  | down h => exact inv
  | discarded h hr => exact ⟨inv.below, fun h => by simp at h, inv.down⟩
  | answered h => exact ⟨hpos, fun _ => rfl, fun _ => rfl⟩
  | miss h hr hk =>
    refine ⟨?_, fun h' => by simp [hr] at h', fun h' => by simp [h] at h'⟩
    have := UInt32.lt_iff_toNat_lt.mp hk
    dsimp only
    omega
  | force h hr hk => exact ⟨hpos, fun _ => rfl, fun _ => rfl⟩
  | network recheck => exact ⟨hpos, fun _ => rfl, fun _ => rfl⟩
  | link => exact ⟨hpos, fun _ => rfl, fun _ => rfl⟩
  | linkEnded => exact ⟨inv.below, inv.recheck, fun h => by simp at h⟩
  | forceFailed => exact ⟨hpos, fun _ => rfl, fun _ => rfl⟩

theorem run_probeInv (policy : SupervisorPolicy) (cid : Cid) (inputs : List Input) :
    ProbeInv policy.missedProbes ((new policy cid).run inputs).counter := by
  induction inputs using List.reverseRecOn with
  | nil => exact ⟨by simp [counter, new], fun h => by simp [counter, new] at h, fun _ => rfl⟩
  | append_singleton inputs input ih =>
    have h := ((new policy cid).run inputs).step_counterStep input
    rw [run_policy] at h
    rw [run_append]
    exact h.probeInv ih

/-! ## Where the misses came from -/

/-- After `before`, the inputs `window` hold `n` timeouts that were counted; the window starts with one; and nothing
in it clears the counter or forces the link. -/
structure Missed (c₀ : Core) (before window : List Input) (n : Nat) : Prop where
  count : window.countP Input.isTimeout = n
  first : ∀ x rest, window = x :: rest → x.isTimeout = true
  noReset : ∀ x ∈ window, x.resets = false
  counted : ∀ earlier x later, window = earlier ++ x :: later → x.isTimeout = true →
    (c₀.run (before ++ earlier)).link = .up ∧ (c₀.run (before ++ earlier)).probe.recheck = false
  noForce : ∀ earlier x later, window = earlier ++ x :: later →
    .forceReconnect ∉ ((c₀.run (before ++ earlier)).step x).2

theorem Missed.nil (c₀ : Core) (before : List Input) : Missed c₀ before [] 0 :=
  ⟨rfl, fun _ _ h => by simp at h, fun _ h => by simp at h, fun _ _ _ h => by simp at h, fun _ _ _ h => by simp at h⟩

theorem snoc_split {α : Type} {window earlier later : List α} {x y : α}
    (h : window ++ [y] = earlier ++ x :: later) :
    (earlier = window ∧ x = y ∧ later = []) ∨ ∃ rest, window = earlier ++ x :: rest := by
  induction later using List.reverseRecOn with
  | nil =>
    obtain ⟨h₁, h₂⟩ := List.append_inj' h rfl
    exact .inl ⟨h₁.symm, by simpa using h₂.symm, rfl⟩
  | append_singleton rest z _ =>
    refine .inr ⟨rest, ?_⟩
    rw [← List.cons_append, ← List.append_assoc] at h
    exact (List.append_inj' h rfl).1

theorem Missed.snoc {c₀ : Core} {before window : List Input} {n : Nat} {input : Input}
    (h : Missed c₀ before window n) (hfirst : window = [] → input.isTimeout = true)
    (hreset : input.resets = false)
    (hcounted : input.isTimeout = true → (c₀.run (before ++ window)).link = .up ∧
      (c₀.run (before ++ window)).probe.recheck = false)
    (hforce : .forceReconnect ∉ ((c₀.run (before ++ window)).step input).2) :
    Missed c₀ before (window ++ [input]) (n + if input.isTimeout then 1 else 0) where
  count := by simp [h.count]
  first := by
    intro x rest hx
    cases window with
    | nil =>
      obtain ⟨rfl, -⟩ : input = x ∧ [] = rest := by simpa using hx
      exact hfirst rfl
    | cons w ws =>
      obtain ⟨rfl, -⟩ : w = x ∧ ws ++ [input] = rest := by simpa using hx
      exact h.first _ _ rfl
  noReset := by
    intro x hx
    rcases List.mem_append.mp hx with hx | hx
    · exact h.noReset x hx
    · exact (List.mem_singleton.mp hx) ▸ hreset
  counted := by
    intro earlier x later hsplit hx
    rcases snoc_split hsplit with ⟨rfl, rfl, -⟩ | ⟨rest, hrest⟩
    · exact hcounted hx
    · exact h.counted _ _ _ hrest hx
  noForce := by
    intro earlier x later hsplit
    rcases snoc_split hsplit with ⟨rfl, rfl, -⟩ | ⟨rest, hrest⟩
    · exact hforce
    · exact h.noForce _ _ _ hrest

theorem forces_iff {commands : List Command} : forces commands = true ↔ .forceReconnect ∈ commands := by
  simp [forces]

/-- **Every miss the core has counted is in the run.** While the link is up, the counter is the number of
timeouts of a window at the end of the inputs. -/
theorem run_missed (policy : SupervisorPolicy) (cid : Cid) (inputs : List Input)
    (hup : ((new policy cid).run inputs).link = .up) :
    ∃ before window, inputs = before ++ window ∧
      Missed (new policy cid) before window ((new policy cid).run inputs).probe.missed.toNat := by
  induction inputs using List.reverseRecOn with
  | nil => exact ⟨[], [], rfl, .nil _ _⟩
  | append_singleton inputs input ih =>
    have hinv := run_probeInv policy cid inputs
    have hstep := ((new policy cid).run inputs).step_counterStep input
    rw [run_policy] at hstep
    have hnext : (new policy cid).run (inputs ++ [input]) = (((new policy cid).run inputs).step input).1 :=
      run_snoc _ _ _
    rw [hnext] at hup ⊢
    -- a counter at zero needs no window
    have hzero : (((new policy cid).run inputs).step input).1.probe.missed = 0 →
        ∃ before window, inputs ++ [input] = before ++ window ∧
          Missed (new policy cid) before window (((new policy cid).run inputs).step input).1.probe.missed.toNat := by
      intro h
      rw [h]
      exact ⟨inputs ++ [input], [], by simp, .nil _ _⟩
    generalize hc : (new policy cid).run inputs = c at *
    generalize hs : (c.step input).1.counter = s' at hstep
    generalize hf : forces (c.step input).2 = forced at hstep
    have hmissed : (c.step input).1.probe.missed = s'.missed := congrArg Counter.missed hs
    have hlink : (c.step input).1.link = s'.link := congrArg Counter.link hs
    have hquiet : forced = false → .forceReconnect ∉ (c.step input).2 := by
      intro h hmem
      rw [← hf, forces_iff.mpr hmem] at h
      cases h
    cases hstep with
    | ended h => exact absurd (hlink.symm.trans hup) (by rw [h]; decide)
    | other hr ht =>
      by_cases hm : c.probe.missed = 0
      · exact hzero (hmissed.trans hm)
      · obtain ⟨before, window, hsplit, hw⟩ := ih (hlink.symm.trans hup)
        refine ⟨before, window ++ [input], by rw [hsplit, List.append_assoc], ?_⟩
        have hne : window ≠ [] := by
          rintro rfl
          exact hm (UInt32.toNat_inj.mp hw.count.symm)
        have := hw.snoc (fun h => absurd h hne) hr (fun h => by simp [ht] at h)
          (by rw [← hsplit, hc]; exact hquiet rfl)
        rw [hmissed]
        simpa [ht, counter] using this
    | down h => exact absurd (hlink.symm.trans hup) h
    | discarded h hr => exact hzero (hmissed.trans (hinv.recheck hr))
    | answered h => exact hzero hmissed
    | miss h hr hk =>
      obtain ⟨before, window, hsplit, hw⟩ := ih h
      refine ⟨before, window ++ [_], by rw [hsplit, List.append_assoc], ?_⟩
      have := hw.snoc (fun _ => rfl) rfl (fun _ => by rw [← hsplit, hc]; exact ⟨h, hr⟩)
        (by rw [← hsplit, hc]; exact hquiet rfl)
      rw [hmissed]
      rw [show (c.counter.missed + 1).toNat = c.probe.missed.toNat + 1 from toNat_succ_of_lt hinv.below]
      exact this
    | force h hr hk => exact hzero hmissed
    | network recheck => exact hzero hmissed
    | link => exact hzero hmissed
    | linkEnded => exact absurd (hlink.symm.trans hup) (by simp)
    | forceFailed => exact hzero hmissed

/-! ## The result -/

/-- **`ForceReconnect` is never sent for a link that answered.** A step that forces the link is the last of
`threshold` counted timeouts with nothing between them that clears the counter; and the counter stays below that. -/
theorem forceReconnect_of_missed_probes (policy : SupervisorPolicy) (cid : Cid) (inputs : List Input) :
    (∀ input, .forceReconnect ∈ (((new policy cid).run inputs).step input).2 →
      ((new policy cid).run inputs).link = .up ∧
      (((new policy cid).run inputs).step input).1.link = .up ∧
      ((new policy cid).run inputs).probe.recheck = false ∧ input.isTimeout = true ∧
      ∃ before window n, inputs = before ++ window ∧ Missed (new policy cid) before window n ∧
        n + 1 = policy.threshold) ∧
    (∀ now, (((new policy cid).run inputs).step (.serverProbe now .error)).1.probe.missed =
      ((new policy cid).run inputs).probe.missed) ∧
    ((new policy cid).run inputs).probe.missed.toNat < policy.threshold ∧
    ((new policy cid).run inputs).probe.missed.toNat + 1 < 2 ^ 32 := by
  have hinv := run_probeInv policy cid inputs
  have hbelow : ((new policy cid).run inputs).probe.missed.toNat < policy.threshold := hinv.below
  refine ⟨?_, ?_, hbelow, by have := policy.threshold_lt; omega⟩
  · intro input hforce
    have hstep := ((new policy cid).run inputs).step_counterStep input
    rw [run_policy, forces_iff.mpr hforce] at hstep
    generalize hs : (((new policy cid).run inputs).step input).1.counter = s' at hstep
    cases hstep with
    | force h hr hk =>
      obtain ⟨before, window, hsplit, hw⟩ := run_missed policy cid inputs h
      refine ⟨h, (congrArg Counter.link hs).trans h, hr, rfl, before, window, _, hsplit, hw, ?_⟩
      have hk := mt UInt32.lt_iff_toNat_lt.mpr hk
      rw [toNat_succ_of_lt hinv.below] at hk
      change ¬ ((new policy cid).run inputs).probe.missed.toNat + 1 < policy.missedProbes.toNat at hk
      unfold SupervisorPolicy.threshold at hbelow ⊢
      omega
  · intro now
    have hstep := ((new policy cid).run inputs).step_counterStep (.serverProbe now .error)
    generalize hs : (((new policy cid).run inputs).step (.serverProbe now .error)).1.counter = s' at hstep
    have hmissed := congrArg Counter.missed hs
    generalize forces (((new policy cid).run inputs).step (.serverProbe now .error)).2 = forced at hstep
    cases hstep <;> exact hmissed

/-- Two probes in a row go unanswered under the agent's policy. -/
theorem forceReconnect_two_misses :
    .forceReconnect ∈ (((new agentSupervisor 1).run [.networkChanged ⟨5⟩, .serverProbe ⟨6⟩ .timeout]).step
      (.serverProbe ⟨7⟩ .timeout)).2 ∧
    ∃ before window n, [.networkChanged ⟨5⟩, .serverProbe ⟨6⟩ .timeout] = before ++ window ∧
      Missed (new agentSupervisor 1) before window n ∧ n + 1 = agentSupervisor.threshold := by
  have hforce : .forceReconnect ∈ (((new agentSupervisor 1).run
      [.networkChanged ⟨5⟩, .serverProbe ⟨6⟩ .timeout]).step (.serverProbe ⟨7⟩ .timeout)).2 := by decide
  exact ⟨hforce, ((forceReconnect_of_missed_probes agentSupervisor 1 _).1 _ hforce).2.2.2.2⟩

end Core

end CitadelAgent.Supervisor
