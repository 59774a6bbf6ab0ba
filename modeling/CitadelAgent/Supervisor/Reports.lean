import CitadelAgent.Supervisor.History

/-!
# Supervisor: what the reports say

* `PeerReportsTrue` : `Degraded` only about a peer that is not connected and once between two times it comes
  up, `PeerRestored` exactly when a lost peer comes back;
* `peer_reports_true_iff` : so it is in a run if and only if no failed dial to `p` is answered while `p` is
  connected. `degraded_while_connected` is such a run: the peer's own dial crosses ours and connects first;
* `link_reports_alternate` : `Healing` and `Healed` alternate over a whole run, a `Healing` is outstanding while
  the link is down, and while it is being forced unless a probe was answered since.
-/

namespace CitadelAgent.Supervisor

/-! ## Peers -/

/-- The report a command makes on how `p` is reached. -/
def Command.aboutPeer (p : Cid) : Command → Option SupervisorEvent
  | .report (.degraded q) => if q = p then some (.degraded q) else none
  | .report (.peerRestored q path) => if q = p then some (.peerRestored q path) else none
  | _ => none

/-- What a step says of `p`. -/
def Ledger.reports (p : Cid) (l : Ledger) : Input → List SupervisorEvent
  | .peerUp _ q path => if q = p ∧ l.lostAt.isSome then [.peerRestored q path] else []
  | .dialResult _ q .connected =>
    if q = p ∧ l.connected = false ∧ l.lostAt.isSome then [.peerRestored q .serverRelay] else []
  | .dialResult _ q .failed => if q = p ∧ l.degradedReported = false then [.degraded q] else []
  | _ => []

variable {c : Core} {earlier mid inputs : List Input} {p : Cid} {input : Input} {l : Ledger} {healing : Bool}
  {reports : List Bool}

namespace Core

theorem aboutPeer_drive (c : Core) (now : Millis) (p : Cid) : (c.drive now).2.filterMap (Command.aboutPeer p) = [] := by
  refine List.filterMap_eq_nil_iff.mpr fun command h => ?_
  rcases mem_drive h with rfl | ⟨q, rfl | rfl | rfl⟩ <;> rfl

theorem aboutPeer_up (c : Core) (q p : Cid) (path : P2pPathReport) (now : Millis) :
    (c.up q path now).2.filterMap (Command.aboutPeer p) =
      if q = p ∧ (c.ledger p).lostAt.isSome then [.peerRestored q path] else [] := by
  by_cases hq : q = p
  · subst hq
    have hlost : (c.ledger q).lostAt = (c.peer q).lostAt := rfl
    unfold up
    dsimp only
    rw [hlost]
    split <;> simp_all [Command.aboutPeer]
  · unfold up
    dsimp only
    split <;> simp [Command.aboutPeer, hq]

theorem aboutPeer_dialed (c : Core) (q p : Cid) (outcome : DialOutcome) (now at_ : Millis) :
    (c.dialed q outcome now).2.filterMap (Command.aboutPeer p) = (c.ledger p).reports p (.dialResult at_ q outcome) := by
  unfold dialed
  dsimp only
  cases outcome with
  | connected =>
    simp only [Ledger.reports]
    split
    · rename_i hc
      refine (if_neg ?_).symm
      rintro ⟨rfl, h, -⟩
      exact absurd (h.symm.trans hc) (by decide)
    · rename_i hc
      rw [aboutPeer_up, ledger_setPeer]
      by_cases hq : q = p
      · subst hq
        have hl : (c.ledger q).connected = false := Bool.eq_false_iff.mpr hc
        have hlost : (c.ledger q).lostAt = (c.peer q).lostAt := rfl
        simp [hl, hlost, Peer.ledger]
      · simp [hq]
  | inProgress => rfl
  | failed =>
    simp only [Ledger.reports]
    by_cases hq : q = p
    · subst hq
      have hl : (c.ledger q).degradedReported = (c.peer q).degradedReported := rfl
      rw [hl]
      split <;> simp_all [Command.aboutPeer]
    · split <;> simp [Command.aboutPeer, hq]

theorem aboutPeer_handle (c : Core) (input : Input) (now : Millis) (p : Cid) :
    (c.handle input now).2.filterMap (Command.aboutPeer p) = (c.ledger p).reports p input := by
  cases input with
  | networkChanged at_ =>
    simp only [handle, networkChanged]
    split_ifs <;> rfl
  | serverProbe at_ outcome =>
    have hrearm : ∀ c : Core, c.rearmRelayed.2.filterMap (Command.aboutPeer p) = [] := by
      intro c
      refine List.filterMap_eq_nil_iff.mpr fun command h => ?_
      obtain ⟨-, q, rfl⟩ := mem_rearmRelayed h
      rfl
    simp only [handle, probed]
    split
    · rfl
    split
    · rfl
    cases outcome with
    | ok rtt =>
      dsimp only
      split
      · rw [List.filterMap_append, hrearm]
        rfl
      · exact hrearm _
    | error => rfl
    | timeout => dsimp only; split_ifs <;> rfl
  | serverLink at_ state =>
    cases state with
    | up => simp only [handle, linkChanged]; split <;> rfl
    | reconnecting => simp only [handle, linkChanged, loseLink]; split <;> rfl
    | ended => rfl
  | peerUp at_ q path => exact c.aboutPeer_up q p path now
  | dialResult at_ q outcome => exact c.aboutPeer_dialed q p outcome now at_
  | _ => rfl

theorem step_reports (hc : c.link ≠ .ended) (input : Input) (p : Cid) :
    (c.step input).2.filterMap (Command.aboutPeer p) = (c.ledger p).reports p input := by
  have hsame : ({ c with now := c.timeOf input } : Core).ledger p = c.ledger p := by
    rw [ledger_eq, ledger_eq]
  rw [step_eq hc, List.filterMap_append, aboutPeer_drive, List.append_nil, aboutPeer_handle, hsame]

/-! ## The property and its condition -/

end Core

def Command.isRestored (p : Cid) : Command → Bool
  | .report (.peerRestored q _) => decide (q = p)
  | _ => false

/-- `x` brings `p` up, which was not connected after `earlier`. -/
def ComesUp (p : Cid) (earlier : List Input) (x : Input) : Prop := connectedBy p earlier = false ∧ x.brings p = true

/-- `p` comes up nowhere in `mid`. -/
def NoneComesUp (p : Cid) (earlier mid : List Input) : Prop :=
  ∀ e x l, mid = e ++ x :: l → ¬ ComesUp p (earlier ++ e) x

theorem NoneComesUp.tail {x : Input} (h : NoneComesUp p earlier (x :: mid)) :
    NoneComesUp p (earlier ++ [x]) mid := by
  intro e y l hsplit
  have := h (x :: e) y l (by rw [hsplit]; rfl)
  rwa [List.append_cons] at this

namespace Core

structure PeerReportsTrue (c₀ : Core) (p : Cid) (inputs : List Input) : Prop where
  degraded : ∀ earlier x later, inputs = earlier ++ x :: later →
    .report (.degraded p) ∈ ((c₀.run earlier).step x).2 → connectedBy p (earlier ++ [x]) = false
  once : ∀ earlier mid later, inputs = earlier ++ mid ++ later → NoneComesUp p earlier mid →
    ((c₀.run earlier).commandsOf mid).count (.report (.degraded p)) ≤ 1
  restored : ∀ earlier x later, inputs = earlier ++ x :: later →
    ((∃ path, .report (.peerRestored p path) ∈ ((c₀.run earlier).step x).2) ↔
      (c₀.run earlier).link ≠ .ended ∧ x.brings p = true ∧ ∃ s, LostSince p earlier s) ∧
    ((c₀.run earlier).step x).2.countP (Command.isRestored p) ≤ 1

/-- Every dial to `p` that fails is answered while `p` is not connected. -/
def FailsUnconnected (c₀ : Core) (p : Cid) (inputs : List Input) : Prop :=
  ∀ earlier x later, inputs = earlier ++ x :: later → (c₀.run earlier).link ≠ .ended → x.failsDial p = true →
    connectedBy p earlier = false

/-! ## From the commands to the ledger -/

theorem count_degraded (commands : List Command) (p : Cid) :
    commands.count (.report (.degraded p)) = (commands.filterMap (Command.aboutPeer p)).count (.degraded p) := by
  rw [List.count_filterMap]
  refine List.countP_congr fun command _ => ?_
  cases command with
  | report event =>
    cases event with
    | degraded q =>
      by_cases hq : q = p <;> simp [Command.aboutPeer, hq]
    | peerRestored q path =>
      by_cases hq : q = p <;> simp [Command.aboutPeer, hq]
    | _ => simp [Command.aboutPeer]
  | _ => simp [Command.aboutPeer]

theorem mem_degraded {commands : List Command} :
    .report (.degraded p) ∈ commands ↔ .degraded p ∈ commands.filterMap (Command.aboutPeer p) := by
  rw [← List.count_pos_iff, ← List.count_pos_iff, count_degraded]

theorem mem_restored {commands : List Command} {path : P2pPathReport} :
    .report (.peerRestored p path) ∈ commands ↔
      .peerRestored p path ∈ commands.filterMap (Command.aboutPeer p) := by
  rw [List.mem_filterMap]
  refine ⟨fun h => ⟨_, h, by simp [Command.aboutPeer]⟩, ?_⟩
  rintro ⟨command, h, habout⟩
  have : command = .report (.peerRestored p path) := by
    cases command with
    | report event =>
      cases event <;> simp only [Command.aboutPeer] at habout <;> (try split at habout) <;> simp_all
    | _ => simp [Command.aboutPeer] at habout
  exact this ▸ h

theorem countP_isRestored_le (commands : List Command) (p : Cid) :
    commands.countP (Command.isRestored p) ≤ (commands.filterMap (Command.aboutPeer p)).length := by
  rw [List.length_filterMap_eq_countP]
  refine List.countP_mono_left fun command _ h => ?_
  cases command with
  | report event =>
    cases event <;> simp_all [Command.isRestored, Command.aboutPeer]
  | _ => simp [Command.isRestored] at h

theorem reports_length (p : Cid) (l : Ledger) (input : Input) : (l.reports p input).length ≤ 1 := by
  unfold Ledger.reports
  split <;> (try split) <;> simp

theorem mem_reports_degraded :
    .degraded p ∈ l.reports p input ↔ input.failsDial p = true ∧ l.degradedReported = false := by
  cases input with
  | peerUp at_ q path => simp only [Ledger.reports, Input.failsDial]; split <;> simp
  | dialResult at_ q outcome =>
    cases outcome with
    | connected => simp only [Ledger.reports, Input.failsDial]; split <;> simp
    | failed =>
      simp only [Ledger.reports, Input.failsDial, decide_eq_true_eq]
      split
      · rename_i h
        simp [h]
      · rename_i h
        simpa using h
    | inProgress => simp [Ledger.reports, Input.failsDial]
  | _ => simp [Ledger.reports, Input.failsDial]

theorem mem_reports_restored (hnot : l.connected = true → l.lostAt = none) :
    (∃ path, .peerRestored p path ∈ l.reports p input) ↔ input.brings p = true ∧ l.lostAt.isSome = true := by
  have hdown : l.lostAt.isSome = true → l.connected = false := by
    intro hs
    by_contra hup
    simp [hnot (by simpa using hup)] at hs
  cases input with
  | peerUp at_ q path =>
    simp only [Ledger.reports, Input.brings, decide_eq_true_eq]
    split
    · rename_i h
      simp [h]
    · rename_i h
      simpa using h
  | dialResult at_ q outcome =>
    cases outcome with
    | connected =>
      simp only [Ledger.reports, Input.brings, decide_eq_true_eq]
      split
      · rename_i h
        simp [h]
      · rename_i h
        refine ⟨fun h => by simp at h, ?_⟩
        rintro ⟨rfl, hs⟩
        exact absurd ⟨rfl, hdown hs, hs⟩ h
    | failed =>
      simp only [Ledger.reports, Input.brings]
      split <;> simp
    | inProgress => simp [Ledger.reports, Input.brings]
  | _ => simp [Ledger.reports, Input.brings]

theorem step_degraded (hc : c.link ≠ .ended) (input : Input) (p : Cid) :
    .report (.degraded p) ∈ (c.step input).2 ↔
      input.failsDial p = true ∧ (c.ledger p).degradedReported = false := by
  rw [mem_degraded, step_reports hc, mem_reports_degraded]

/-! ## Runs -/

theorem commandsOf_of_ended (h : c.link = .ended) (inputs : List Input) : c.commandsOf inputs = [] := by
  induction inputs with
  | nil => rfl
  | cons input inputs ih => rw [commandsOf, step_of_ended h, ih]; rfl

theorem step_ended_of_ends (h : input.ends = true) : (c.step input).1.link = .ended := by
  by_cases hc : c.link = .ended
  · rw [step_of_ended hc]
    exact hc
  · exact (step_link_ended hc input).mpr h

theorem next_reported {now : Millis} (hb : input.brings p = false) (hdown : l.connected = false)
    (hrep : l.degradedReported = true) :
    (l.next p now input).connected = false ∧ (l.next p now input).degradedReported = true := by
  cases input with
  | serverLink at_ state => cases state <;> simp [Ledger.next, hdown, hrep]
  | peerUp at_ q path =>
    have hq : q ≠ p := by simpa [Input.brings] using hb
    simp [Ledger.next, hq, hdown, hrep]
  | dialResult at_ q outcome =>
    cases outcome with
    | connected =>
      have hq : q ≠ p := by simpa [Input.brings] using hb
      simp [Ledger.next, hq, hdown, hrep]
    | failed => simp only [Ledger.next]; split <;> exact ⟨hdown, by simp [hrep]⟩
    | inProgress => exact ⟨hdown, hrep⟩
  | peerLost at_ q => simp only [Ledger.next]; split <;> simp [hdown, hrep]
  | peerReleased at_ q => simp only [Ledger.next]; split <;> simp [hdown, hrep]
  | backlog q pending => simp only [Ledger.next]; split <;> exact ⟨hdown, hrep⟩
  | interest q until_ => simp only [Ledger.next]; split <;> exact ⟨hdown, hrep⟩
  | _ => exact ⟨hdown, hrep⟩

section Runs

variable {policy : SupervisorPolicy} {cid p : Cid}

theorem count_degraded_reported (hup : NoneComesUp p earlier mid)
    (hrep : ((new policy cid).run earlier).link ≠ .ended →
      (((new policy cid).run earlier).ledger p).connected = false ∧
        (((new policy cid).run earlier).ledger p).degradedReported = true) :
    (((new policy cid).run earlier).commandsOf mid).count (.report (.degraded p)) = 0 := by
  induction mid generalizing earlier with
  | nil => rfl
  | cons x mid ih =>
    by_cases hc : ((new policy cid).run earlier).link = .ended
    · rw [commandsOf_of_ended hc]
      rfl
    obtain ⟨hdown, hreported⟩ := hrep hc
    have hhist := run_history policy cid p earlier hc
    have hb : x.brings p = false := by
      by_contra hb
      exact hup [] x mid rfl ⟨by rw [List.append_nil, ← hhist.connected, hdown], by simpa using hb⟩
    rw [commandsOf, List.count_append, ← run_snoc]
    have hhead : (((new policy cid).run earlier).step x).2.count (.report (.degraded p)) = 0 := by
      rw [List.count_eq_zero, step_degraded hc]
      simp [hreported]
    rw [hhead, ih hup.tail]
    intro hnext
    rw [run_snoc] at hnext ⊢
    have hends : x.ends = false := Bool.eq_false_iff.mpr fun h => hnext (step_ended_of_ends h)
    rw [step_ledger hc hends]
    exact next_reported hb hdown hreported

theorem count_degraded_step (hc : c.link ≠ .ended) (input : Input) (p : Cid) :
    (c.step input).2.count (.report (.degraded p)) ≤ 1 := by
  rw [count_degraded, step_reports hc]
  exact (List.count_le_length).trans (reports_length p _ _)

theorem count_degraded_le_one (hup : NoneComesUp p earlier mid) (hfails : FailsUnconnected (new policy cid) p (earlier ++ mid)) :
    (((new policy cid).run earlier).commandsOf mid).count (.report (.degraded p)) ≤ 1 := by
  induction mid generalizing earlier with
  | nil => exact Nat.zero_le 1
  | cons x mid ih =>
    by_cases hc : ((new policy cid).run earlier).link = .ended
    · rw [commandsOf_of_ended hc]
      exact Nat.zero_le 1
    have hfails' : FailsUnconnected (new policy cid) p ((earlier ++ [x]) ++ mid) := by
      rwa [← List.append_cons]
    have ih := ih hup.tail hfails'
    rw [commandsOf, List.count_append, ← run_snoc]
    by_cases hsaid : .report (.degraded p) ∈ (((new policy cid).run earlier).step x).2
    · -- reported here, so `p` is not connected and stays reported
      obtain ⟨hfail, -⟩ := (step_degraded hc x p).mp hsaid
      have hdown : connectedBy p earlier = false := hfails earlier x mid rfl hc hfail
      have hrest : (((new policy cid).run (earlier ++ [x])).commandsOf mid).count (.report (.degraded p)) = 0 := by
        refine count_degraded_reported hup.tail fun hnext => ?_
        rw [run_snoc] at hnext ⊢
        have hends : x.ends = false := Bool.eq_false_iff.mpr fun h => hnext (step_ended_of_ends h)
        rw [step_ledger hc hends]
        have hl := (run_history policy cid p earlier hc).connected.trans hdown
        cases x with
        | dialResult at_ q outcome =>
          cases outcome <;> simp only [Input.failsDial, decide_eq_true_eq, Bool.false_eq_true] at hfail
          simp [Ledger.next, hfail, hl]
        | _ => simp [Input.failsDial] at hfail
      rw [hrest]
      exact count_degraded_step hc x p
    · rw [List.count_eq_zero.mpr hsaid, Nat.zero_add]
      exact ih

theorem step_restored (earlier : List Input) (x : Input) :
    ((∃ path, .report (.peerRestored p path) ∈ (((new policy cid).run earlier).step x).2) ↔
      ((new policy cid).run earlier).link ≠ .ended ∧ x.brings p = true ∧ ∃ s, LostSince p earlier s) ∧
    (((new policy cid).run earlier).step x).2.countP (Command.isRestored p) ≤ 1 := by
  by_cases hc : ((new policy cid).run earlier).link = .ended
  · simp [step_of_ended hc, hc]
  have hhist := run_history policy cid p earlier hc
  have hlost : (((new policy cid).run earlier).ledger p).lostAt.isSome = true ↔ ∃ s, LostSince p earlier s := by
    rw [Option.isSome_iff_exists]
    exact exists_congr hhist.lost
  refine ⟨?_, (countP_isRestored_le _ p).trans ?_⟩
  · simp only [mem_restored, step_reports hc, mem_reports_restored hhist.notBoth, hlost]
    simp [hc]
  · rw [step_reports hc]
    exact reports_length p _ _

/-- A connected peer has not been reported degraded since it came up. -/
def CleanUp (l : Ledger) : Prop := l.connected = true → l.degradedReported = false

theorem CleanUp.next (h : CleanUp l) {now : Millis}
    (hfail : input.failsDial p = true → l.connected = false) : CleanUp (l.next p now input) := by
  cases input with
  | serverLink at_ state =>
    cases state with
    | reconnecting =>
      simp only [Ledger.next]
      split
      · exact fun hup => by simp at hup
      · exact h
    | _ => exact h
  | peerLost at_ q =>
    simp only [Ledger.next]
    split
    · exact fun hup => by simp at hup
    · exact h
  | peerReleased at_ q =>
    simp only [Ledger.next]
    split
    · exact fun hup => by simp at hup
    · exact h
  | peerUp at_ q path =>
    simp only [Ledger.next]
    split
    · exact fun _ => rfl
    · exact h
  | dialResult at_ q outcome =>
    cases outcome with
    | connected =>
      simp only [Ledger.next]
      split
      · exact fun _ => rfl
      · exact h
    | failed =>
      simp only [Ledger.next]
      split
      · rename_i hq
        exact fun hup => absurd (hfail (by simp [Input.failsDial, hq])) (by simpa using hup)
      · exact h
    | inProgress => exact h
  | backlog q pending => simp only [Ledger.next]; split <;> exact h
  | interest q until_ => simp only [Ledger.next]; split <;> exact h
  | _ => exact h

theorem run_cleanUp (hfails : FailsUnconnected (new policy cid) p inputs)
    (hrun : ((new policy cid).run inputs).link ≠ .ended) : CleanUp (((new policy cid).run inputs).ledger p) := by
  induction inputs using List.reverseRecOn with
  | nil => exact fun h => by simp [ledger_eq, new, Ledger.empty] at h
  | append_singleton inputs input ih =>
    have hprefix : FailsUnconnected (new policy cid) p inputs := fun e x l h =>
      hfails e x (l ++ [input]) (by rw [h, List.append_assoc]; rfl)
    rw [run_snoc] at hrun ⊢
    have hc : ((new policy cid).run inputs).link ≠ .ended := by
      intro h
      rw [step_of_ended h] at hrun
      exact hrun h
    have hends : input.ends = false := Bool.eq_false_iff.mpr fun h => hrun (step_ended_of_ends h)
    rw [step_ledger hc hends]
    refine (ih hprefix hc).next fun hfail => ?_
    rw [(run_history policy cid p inputs hc).connected]
    exact hfails inputs input [] rfl hc hfail

theorem connectedBy_failsDial {x : Input} (h : x.failsDial p = true) :
    connectedBy p (earlier ++ [x]) = connectedBy p earlier := by
  cases x with
  | dialResult at_ q outcome =>
    cases outcome <;> simp only [Input.failsDial, decide_eq_true_eq, Bool.false_eq_true] at h
    simp [connectedBy_snoc, Input.brings, Input.loses, Input.releases]
  | _ => simp [Input.failsDial] at h

/-- If `Degraded` is never said of a connected peer, no failure was answered while it was connected: the first
such failure since it came up would have been reported. -/
theorem failsUnconnected_of_degraded
    (h : ∀ earlier x later, inputs = earlier ++ x :: later →
      .report (.degraded p) ∈ (((new policy cid).run earlier).step x).2 → connectedBy p (earlier ++ [x]) = false) :
    FailsUnconnected (new policy cid) p inputs := by
  induction inputs using List.reverseRecOn with
  | nil => exact fun earlier x later hsplit => by simp at hsplit
  | append_singleton inputs input ih =>
    have ih := ih fun e x l hsplit => h e x (l ++ [input]) (by rw [hsplit, List.append_assoc]; rfl)
    intro earlier x later hsplit hc hfail
    rcases snoc_split hsplit with ⟨rfl, rfl, -⟩ | ⟨rest, hrest⟩
    · by_contra hup
      have hup : connectedBy p earlier = true := by simpa using hup
      have hhist := run_history policy cid p earlier hc
      have hclean := run_cleanUp ih hc (hhist.connected.trans hup)
      have := h earlier x [] rfl ((step_degraded hc x p).mpr ⟨hfail, hclean⟩)
      rw [connectedBy_failsDial hfail, hup] at this
      cases this
    · exact ih earlier x rest hrest hc hfail

/-- **Peer reports tell the truth exactly when no failed dial to `p` is answered while `p` is connected.** -/
theorem peer_reports_true_iff (policy : SupervisorPolicy) (cid p : Cid) (inputs : List Input) :
    PeerReportsTrue (new policy cid) p inputs ↔ FailsUnconnected (new policy cid) p inputs := by
  refine ⟨fun h => failsUnconnected_of_degraded h.degraded, fun hfails => ⟨?_, ?_, ?_⟩⟩
  · intro earlier x later hsplit hsaid
    by_cases hc : ((new policy cid).run earlier).link = .ended
    · simp [step_of_ended hc] at hsaid
    have hfail := ((step_degraded hc x p).mp hsaid).1
    rw [connectedBy_failsDial hfail]
    exact hfails earlier x later hsplit hc hfail
  · intro earlier mid later hsplit hup
    refine count_degraded_le_one hup fun e x l h => hfails e x (l ++ later) ?_
    rw [hsplit, h, List.append_assoc]
    rfl
  · exact fun earlier x later _ => step_restored earlier x

/-- The peer's own dial crosses ours and connects it; then ours is answered with a failure, and the connected
peer is reported degraded. -/
theorem degraded_while_connected :
    ¬ PeerReportsTrue (new agentSupervisor 1) 11
      [.interest 11 ⟨60000⟩, .peerUp ⟨5⟩ 11 .direct, .dialResult ⟨10⟩ 11 .failed] := by
  intro h
  have hsaid : .report (.degraded 11) ∈ (((new agentSupervisor 1).run
      [.interest 11 ⟨60000⟩, .peerUp ⟨5⟩ 11 .direct]).step (.dialResult ⟨10⟩ 11 .failed)).2 := by decide
  exact absurd (h.degraded [.interest 11 ⟨60000⟩, .peerUp ⟨5⟩ 11 .direct] _ [] rfl hsaid) (by decide)

end Runs

end Core

/-! ## The link -/

/-- `true` for a `Healing` report, `false` for a `Healed`. -/
def Command.aboutLink : Command → Option Bool
  | .report (.healing _) => some true
  | .report .healed => some false
  | _ => none

/-- The `Healing` and `Healed` reports among the commands, in order. -/
def linkReports (commands : List Command) : List Bool := commands.filterMap Command.aboutLink

theorem linkReports_append (xs ys : List Command) : linkReports (xs ++ ys) = linkReports xs ++ linkReports ys :=
  List.filterMap_append

/-- Strictly alternating, starting with a `Healing`. -/
def Alternates (reports : List Bool) : Prop := ∀ i b, reports[i]? = some b → b = decide (i % 2 = 0)

/-- The last report on the link is a `Healing`. -/
def HealingOutstanding (commands : List Command) : Prop := (linkReports commands).getLast? = some true

namespace Core

/-- An answer that says the server is there: `Ok`, on an up link, not discarded by a recheck. -/
def Answers (c : Core) (input : Input) : Prop :=
  c.link = .up ∧ c.probe.recheck = false ∧ ∃ at_ rtt, input = .serverProbe at_ (.ok rtt)

/-- What an input does to the link, to the two flags and to the reports. -/
inductive HealStep (c : Core) (input : Input) : LinkStatus → Bool → Bool → List Bool → Prop
  | same : HealStep c input c.link c.healing c.forcing []
  | up (now : Millis) (h : input = .serverLink now .up) :
    HealStep c input .up false false (if c.healing then [false] else [])
  | down : HealStep c input .reconnecting true false (if c.healing then [] else [true])
  | ended : HealStep c input .ended c.healing c.forcing []
  | forceFailed : HealStep c input c.link c.healing false []
  | answered (h : c.Answers input) : HealStep c input c.link false c.forcing (if c.healing then [false] else [])
  | forced (h : c.link = .up) : HealStep c input c.link true true (if c.healing then [] else [true])

theorem SameLink.healStep {c' : Core} (h : SameLink c c') (input : Input)
    (hr : reports = []) : HealStep c input c'.link c'.healing c'.forcing reports := by
  rw [h.link, h.healing, h.forcing, hr]
  exact .same

theorem linkReports_drive (c : Core) (now : Millis) : linkReports (c.drive now).2 = [] := by
  refine List.filterMap_eq_nil_iff.mpr fun command h => ?_
  rcases mem_drive h with rfl | ⟨q, rfl | rfl | rfl⟩ <;> rfl

theorem linkReports_rearmRelayed (c : Core) : linkReports c.rearmRelayed.2 = [] := by
  refine List.filterMap_eq_nil_iff.mpr fun command h => ?_
  obtain ⟨-, q, rfl⟩ := mem_rearmRelayed h
  rfl

theorem probed_healStep (c : Core) (at_ : Millis) (outcome : ProbeOutcome) :
    HealStep c (.serverProbe at_ outcome) (c.probed outcome).1.link (c.probed outcome).1.healing
      (c.probed outcome).1.forcing (linkReports (c.probed outcome).2) := by
  unfold probed
  dsimp only
  split
  · exact .same
  rename_i hlink
  have hlink : c.link = .up := not_not.mp hlink
  split
  · exact .same
  rename_i hr
  have hr : c.probe.recheck = false := by simpa using hr
  cases outcome with
  | ok rtt =>
    dsimp only
    generalize hd : ({ c with
      probe := ⟨some (c.now.after c.policy.probeInterval), false, 0, c.probe.recheck⟩ } : Core) = d
    have hsame := d.sameLink_rearmRelayed
    have hrep := d.linkReports_rearmRelayed
    have hl : d.rearmRelayed.1.link = c.link := hsame.link.trans (by rw [← hd])
    have hf : d.rearmRelayed.1.forcing = c.forcing := hsame.forcing.trans (by rw [← hd])
    have hh : d.rearmRelayed.1.healing = c.healing := hsame.healing.trans (by rw [← hd])
    have hstep := HealStep.answered (c := c) ⟨hlink, hr, at_, rtt, rfl⟩
    split
    · rename_i hheal
      rw [hh] at hheal
      rw [linkReports_append, hrep, hl, hf]
      simpa [hheal, linkReports, Command.aboutLink] using hstep
    · rename_i hheal
      rw [hh] at hheal
      have hheal' : c.healing = false := by simpa using hheal
      rw [hrep, hl, hf, hh, hheal']
      simpa [hheal'] using hstep
  | error => exact .same
  | timeout =>
    have hstep : HealStep c (.serverProbe at_ .timeout) _ _ _ _ := .forced hlink
    dsimp only
    split
    · exact .same
    · have hsilent : linkReports [.forceReconnect] = [] := rfl
      have hspoken : linkReports [.forceReconnect, .report (.healing .probesMissed)] = [true] := rfl
      split
      · rename_i hheal
        simpa [hheal, hsilent] using hstep
      · rename_i hheal
        simpa [hheal, hspoken] using hstep

theorem linkChanged_healStep (c : Core) (at_ now : Millis) (state : LinkStatus) :
    HealStep c (.serverLink at_ state) (c.linkChanged state now).1.link (c.linkChanged state now).1.healing
      (c.linkChanged state now).1.forcing (linkReports (c.linkChanged state now).2) := by
  cases state with
  | up =>
    have hstep := HealStep.up (c := c) at_ rfl
    simp only [linkChanged]
    split
    · rename_i hheal
      simpa [hheal, linkReports, Command.aboutLink] using hstep
    · rename_i hheal
      have hheal' : c.healing = false := by simpa using hheal
      simpa [hheal', linkReports] using hstep
  | reconnecting =>
    have hstep : HealStep c (.serverLink at_ .reconnecting) _ _ _ _ := .down
    have hsame := sameLink_loseConnected { c with link := .reconnecting, forcing := false, probe := {} }
    simp only [linkChanged, loseLink]
    generalize loseConnected { c with link := .reconnecting, forcing := false, probe := {} } = d at *
    have hh : d.healing = c.healing := hsame.healing
    split
    · rename_i hheal
      rw [hsame.link, hsame.forcing, hheal]
      rw [hh] at hheal
      simpa [hheal, linkReports] using hstep
    · rename_i hheal
      rw [hh] at hheal
      dsimp only
      rw [hsame.link, hsame.forcing]
      simpa [hheal, linkReports, Command.aboutLink] using hstep
  | ended => exact .ended

theorem handle_healStep (c : Core) (input : Input) (now : Millis) :
    HealStep c input (c.handle input now).1.link (c.handle input now).1.healing (c.handle input now).1.forcing
      (linkReports (c.handle input now).2) := by
  cases input with
  | tick at_ => exact (c.sameLink_settle now).healStep _ rfl
  | networkChanged at_ =>
    simp only [handle, networkChanged]
    split_ifs <;> exact .same
  | serverProbe at_ outcome => exact c.probed_healStep at_ outcome
  | serverLink at_ state => exact c.linkChanged_healStep at_ now state
  | forceFailed at_ => exact .forceFailed
  | peerLost at_ peer => exact (c.sameLink_lost peer now).healStep _ rfl
  | peerReleased at_ peer => exact (c.sameLink_released peer now).healStep _ rfl
  | peerUp at_ peer path =>
    refine (c.sameLink_up peer path now).healStep _ ?_
    simp only [handle, up]
    split <;> rfl
  | peerReachable at_ peer => exact (c.sameLink_reachable peer now).healStep _ rfl
  | peerPath at_ peer path => exact (c.sameLink_pathChanged peer path now).healStep _ rfl
  | dialResult at_ peer outcome =>
    refine (c.sameLink_dialed peer outcome now).healStep _ ?_
    cases outcome with
    | connected => simp only [handle, dialed, up]; split_ifs <;> rfl
    | failed => simp only [handle, dialed]; split_ifs <;> rfl
    | inProgress => rfl
  | backlog peer pending => exact .same
  | interest peer until_ => exact .same

theorem step_healStep (c : Core) (input : Input) :
    HealStep c input (c.step input).1.link (c.step input).1.healing (c.step input).1.forcing
      (linkReports (c.step input).2) := by
  by_cases hc : c.link = .ended
  · rw [step_of_ended hc]
    exact .same
  have hh := handle_healStep { c with now := c.timeOf input } input (c.timeOf input)
  rw [step_eq hc]
  dsimp only
  generalize handle { c with now := c.timeOf input } input (c.timeOf input) = d at *
  obtain ⟨-, hlink, -, -, -, hheal, hforce, -⟩ := d.1.drive_link (c.timeOf input)
  rw [linkReports_append, linkReports_drive, List.append_nil, hlink, hheal, hforce]
  generalize d.1.link = link at *
  generalize d.1.healing = healing at *
  generalize d.1.forcing = forcing at *
  generalize linkReports d.2 = reports at *
  cases hh with
  | same => exact .same
  | up at_ h => exact .up at_ h
  | down => exact .down
  | ended => exact .ended
  | forceFailed => exact .forceFailed
  | answered h => exact .answered h
  | forced h => exact .forced h

/-- The reports so far alternate, and the flag says which of them was last. -/
structure HealInv (healing : Bool) (reports : List Bool) : Prop where
  alternates : Alternates reports
  parity : healing = decide (reports.length % 2 = 1)

theorem HealInv.snoc (inv : HealInv healing reports) :
    HealInv (!healing) (reports ++ [!healing]) := by
  have hb : (!healing) = decide (reports.length % 2 = 0) := by
    rw [inv.parity, ← decide_not]
    exact decide_eq_decide.mpr (by omega)
  refine ⟨fun i b h => ?_, ?_⟩
  · rcases Nat.lt_trichotomy i reports.length with hi | rfl | hi
    · rw [List.getElem?_append_left hi] at h
      exact inv.alternates i b h
    · rw [List.getElem?_concat_length] at h
      exact (Option.some.inj h).symm.trans hb
    · rw [List.getElem?_eq_none (by simp; omega)] at h
      cases h
  · rw [hb, List.length_append, List.length_singleton]
    exact decide_eq_decide.mpr (by omega)

theorem HealInv.outstanding (inv : HealInv true reports) : reports.getLast? = some true := by
  have hodd : reports.length % 2 = 1 := by simpa using inv.parity.symm
  rcases List.eq_nil_or_concat reports with rfl | ⟨init, last, rfl⟩
  · simp at hodd
  · have hlast := inv.alternates init.length last (by simp)
    rw [List.concat_eq_append, List.getLast?_concat, hlast]
    simp only [List.concat_eq_append, List.length_append, List.length_singleton] at hodd
    simp
    omega

theorem HealStep.healInv {link : LinkStatus} {forcing : Bool} {said : List Bool} (h : HealStep c input link healing forcing said)
    (inv : HealInv c.healing reports) : HealInv healing (reports ++ said) := by
  have hclose : HealInv false (reports ++ if c.healing then [false] else []) := by
    cases hh : c.healing with
    | true => simpa [hh] using inv.snoc
    | false => simpa [hh] using inv
  have hopen : HealInv true (reports ++ if c.healing then [] else [true]) := by
    cases hh : c.healing with
    | true => simpa [hh] using inv
    | false => simpa [hh] using inv.snoc
  cases h with
  | same => simpa using inv
  | up now h => exact hclose
  | down => exact hopen
  | ended => simpa using inv
  | forceFailed => simpa using inv
  | answered h => exact hclose
  | forced h => exact hopen

theorem HealStep.length_le {link : LinkStatus} {forcing : Bool} {said : List Bool}
    (h : HealStep c input link healing forcing said) : said.length ≤ 1 := by
  cases h <;> first | exact Nat.zero_le 1 | (split <;> simp)

theorem commandsOf_snoc (c : Core) (inputs : List Input) (input : Input) :
    c.commandsOf (inputs ++ [input]) = c.commandsOf inputs ++ ((c.run inputs).step input).2 := by
  rw [commandsOf_append]
  simp [commandsOf]

theorem run_healInv (policy : SupervisorPolicy) (cid : Cid) (inputs : List Input) :
    HealInv ((new policy cid).run inputs).healing (linkReports ((new policy cid).commandsOf inputs)) := by
  induction inputs using List.reverseRecOn with
  | nil => exact ⟨fun i b h => by simp [commandsOf, linkReports] at h, rfl⟩
  | append_singleton inputs input ih =>
    rw [run_snoc, commandsOf_snoc, linkReports_append]
    exact (step_healStep _ input).healInv ih

/-- Since the `ForceReconnect` that is out was sent, a probe was answered. -/
def AnsweredSinceForce (c₀ : Core) (inputs : List Input) : Prop :=
  ∃ earlier x later, inputs = earlier ++ x :: later ∧ (c₀.run earlier).Answers x ∧
    (c₀.run earlier).forcing = true ∧ ∀ e l, later = e ++ l → (c₀.run (earlier ++ x :: e)).forcing = true

theorem AnsweredSinceForce.snoc {c₀ : Core} (h : AnsweredSinceForce c₀ inputs)
    (hforcing : (c₀.run (inputs ++ [input])).forcing = true) :
    AnsweredSinceForce c₀ (inputs ++ [input]) := by
  obtain ⟨earlier, x, later, rfl, hx, hf, hsince⟩ := h
  refine ⟨earlier, x, later ++ [input], by simp, hx, hf, fun e l hsplit => ?_⟩
  rcases List.eq_nil_or_concat l with rfl | ⟨l, y, rfl⟩
  · rw [List.append_nil] at hsplit
    rw [← hsplit]
    simpa using hforcing
  · rw [List.concat_eq_append, ← List.append_assoc] at hsplit
    exact hsince e l (List.append_inj' hsplit rfl).1

structure FlagInv (c₀ : Core) (inputs : List Input) : Prop where
  down : (c₀.run inputs).link = .reconnecting → (c₀.run inputs).healing = true
  forcing : (c₀.run inputs).forcing = true → (c₀.run inputs).healing = true ∨ AnsweredSinceForce c₀ inputs

theorem run_flagInv (policy : SupervisorPolicy) (cid : Cid) (inputs : List Input) :
    FlagInv (new policy cid) inputs := by
  induction inputs using List.reverseRecOn with
  | nil => exact ⟨fun h => by simp [new] at h, fun h => by simp [new] at h⟩
  | append_singleton inputs input ih =>
    have hstep := step_healStep ((new policy cid).run inputs) input
    rw [← run_snoc] at hstep
    have hsnoc : ∀ h : AnsweredSinceForce (new policy cid) inputs,
        ((new policy cid).run (inputs ++ [input])).forcing = true → _ := fun h => h.snoc
    obtain ⟨hdown, hforcing⟩ := ih
    generalize hl : ((new policy cid).run (inputs ++ [input])).link = link at hstep
    generalize hh : ((new policy cid).run (inputs ++ [input])).healing = healing at hstep
    generalize hf : ((new policy cid).run (inputs ++ [input])).forcing = forcing at hstep
    generalize linkReports (((new policy cid).run inputs).step input).2 = said at hstep
    rw [hf] at hsnoc
    refine ⟨fun h => ?_, fun h => ?_⟩
    · rw [hl] at h
      rw [hh]
      cases hstep with
      | same => exact hdown h
      | up now _ => cases h
      | down => rfl
      | ended => cases h
      | forceFailed => exact hdown h
      | answered ha => exact absurd (h.symm.trans ha.1) (by decide)
      | forced _ => rfl
    · rw [hf] at h
      rw [hh]
      cases hstep with
      | same =>
        rcases hforcing h with hheal | hans
        · exact .inl hheal
        · exact .inr (hsnoc hans h)
      | up now _ => cases h
      | down => cases h
      | ended =>
        rcases hforcing h with hheal | hans
        · exact .inl hheal
        · exact .inr (hsnoc hans h)
      | forceFailed => cases h
      | answered ha =>
        refine .inr ⟨inputs, input, [], rfl, ha, h, fun e l hsplit => ?_⟩
        obtain ⟨rfl, -⟩ := List.append_eq_nil_iff.mp hsplit.symm
        exact hf.trans h
      | forced _ => exact .inl rfl

/-- **Link reports alternate**, starting with a `Healing`, at most one a step; one is outstanding while the link is
down, and while a `ForceReconnect` is unanswered unless a probe was answered since. -/
theorem link_reports_alternate (policy : SupervisorPolicy) (cid : Cid) (inputs : List Input) :
    Alternates (linkReports ((new policy cid).commandsOf inputs)) ∧
    (((new policy cid).run inputs).link = .reconnecting → HealingOutstanding ((new policy cid).commandsOf inputs)) ∧
    (((new policy cid).run inputs).forcing = true →
      HealingOutstanding ((new policy cid).commandsOf inputs) ∨ AnsweredSinceForce (new policy cid) inputs) ∧
    ∀ input, (linkReports (((new policy cid).run inputs).step input).2).length ≤ 1 ∧
      (.report .healed ∈ (((new policy cid).run inputs).step input).2 →
        (∃ now, input = .serverLink now .up) ∨ ((new policy cid).run inputs).Answers input) := by
  have hinv := run_healInv policy cid inputs
  have hflag := run_flagInv policy cid inputs
  refine ⟨hinv.alternates, fun h => ?_, fun h => ?_, fun input => ⟨?_, fun hsaid => ?_⟩⟩
  · rw [hflag.down h] at hinv
    exact hinv.outstanding
  · rcases hflag.forcing h with hheal | hans
    · rw [hheal] at hinv
      exact .inl hinv.outstanding
    · exact .inr hans
  · exact (step_healStep _ input).length_le
  · have hmem : false ∈ linkReports (((new policy cid).run inputs).step input).2 :=
      List.mem_filterMap.mpr ⟨_, hsaid, rfl⟩
    have hstep := step_healStep ((new policy cid).run inputs) input
    generalize linkReports (((new policy cid).run inputs).step input).2 = said at *
    generalize (((new policy cid).run inputs).step input).1.link = link at hstep
    generalize (((new policy cid).run inputs).step input).1.healing = healing at hstep
    generalize (((new policy cid).run inputs).step input).1.forcing = forcing at hstep
    cases hstep with
    | up now h => exact .inl ⟨now, h⟩
    | answered h => exact .inr h
    | down => split at hmem <;> simp at hmem
    | forced h => split at hmem <;> simp at hmem
    | _ => simp at hmem

/-- The probe of an earlier link is answered while the next link is being forced: `Healed` is said with the
`ForceReconnect` still out. Three probes were sent and three are answered. -/
theorem healed_while_forcing :
    ((new agentSupervisor 1).run [.networkChanged ⟨5⟩, .serverLink ⟨6⟩ .reconnecting, .serverLink ⟨7⟩ .up,
      .networkChanged ⟨8⟩, .serverProbe ⟨9⟩ .timeout, .serverProbe ⟨10⟩ .timeout,
      .serverProbe ⟨11⟩ (.ok (.ofMillis 3))]).forcing = true ∧
    ((new agentSupervisor 1).commandsOf [.networkChanged ⟨5⟩, .serverLink ⟨6⟩ .reconnecting, .serverLink ⟨7⟩ .up,
      .networkChanged ⟨8⟩, .serverProbe ⟨9⟩ .timeout, .serverProbe ⟨10⟩ .timeout]).count .probeServer = 3 ∧
    ¬ HealingOutstanding ((new agentSupervisor 1).commandsOf [.networkChanged ⟨5⟩, .serverLink ⟨6⟩ .reconnecting,
      .serverLink ⟨7⟩ .up, .networkChanged ⟨8⟩, .serverProbe ⟨9⟩ .timeout, .serverProbe ⟨10⟩ .timeout,
      .serverProbe ⟨11⟩ (.ok (.ofMillis 3))]) := by
  refine ⟨by decide, by decide, ?_⟩
  unfold HealingOutstanding
  decide

end Core

end CitadelAgent.Supervisor
