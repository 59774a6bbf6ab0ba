import CitadelAgent.Supervisor.Frame

/-!
# Supervisor: the dials that are out

`outstanding` counts the dials to one peer that no `DialResult` has answered. `drive` dials a peer only while
its `dial.in_flight` is clear, and clears are what the handlers do:

* `view c p` : whether `p` is connected, and whether its dial is marked in flight;
* `RunsUndisturbed` : no report about `p` (lost, released, up) reaches the core while a dial to `p` is out;
* `outstanding_le_one` : in such a run at most one dial to `p` is out;
* `outstanding_two` : a `PeerLost` during a dial clears the mark, and a second dial goes out beside the first.
-/

namespace CitadelAgent.Supervisor

namespace Core

/-! ## Connected, and dialling -/

/-- Whether `p` is connected and whether a dial to it is marked in flight. -/
def view (c : Core) (p : Cid) : Bool × Bool :=
  (c.peers[p]?).elim (false, false) fun entry => (entry.connected, entry.dial.inFlight)

variable (c : Core)

theorem view_peer (p : Cid) : ((c.peer p).connected, (c.peer p).dial.inFlight) = c.view p := by
  unfold peer view
  cases c.peers[p]? <;> rfl

theorem view_congr {c c' : Core} (h : c'.peers = c.peers) (p : Cid) : c'.view p = c.view p := by
  unfold view
  rw [h]

variable (q p : Cid)

theorem view_setPeer (entry : Peer) :
    (c.setPeer q entry).view p = if p = q then (entry.connected, entry.dial.inFlight) else c.view p := by
  simp only [view, setPeer, Std.ExtTreeMap.getElem?_insert, Std.LawfulEqCmp.compare_eq_iff_eq]
  by_cases h : p = q
  · simp [h]
  · simp [h, Ne.symm h]

theorem view_forPeers (f : Cid → Peer → Rng → Peer × Rng × List Command) (c : Core) (p : Cid)
    (h : ∀ q entry rng, (f q entry rng).1.connected = entry.connected ∧
      (f q entry rng).1.dial.inFlight = entry.dial.inFlight) : (c.forPeers f).1.view p = c.view p := by
  obtain ⟨draws, -, hpeers, -⟩ := c.forPeers_spec f
  unfold view
  rw [hpeers p]
  cases c.peers[p]? with
  | none => rfl
  | some entry => simp [(h p entry (draws p)).1, (h p entry (draws p)).2]

/-! ## The handlers -/

variable (now : Millis)

theorem view_lost :
    (c.lost q now).view p = if p = q then (false, false) else c.view p :=
  c.view_setPeer q p _

theorem view_released :
    (c.released q now).view p = if p = q then (false, false) else c.view p := by
  unfold released
  dsimp only
  rw [view_setPeer]
  by_cases h : p = q
  · subst h
    simp only [if_true]
    rw [view_peer, view_lost, if_pos rfl]
  · rw [if_neg h, if_neg h, view_lost, if_neg h]

theorem view_reachable : (c.reachable q now).view p = c.view p := by
  unfold reachable
  dsimp only
  rw [view_setPeer]
  split
  · rename_i h
    subst h
    rw [← view_peer]
    split <;> rfl
  · rfl

theorem view_pathChanged (path : P2pPathReport) (now : Millis) :
    (c.pathChanged q path now).view p = c.view p := by
  have hset : ∀ entry : Peer, entry.connected = (c.peer q).connected → entry.dial = (c.peer q).dial →
      (c.setPeer q entry).view p = c.view p := by
    intro entry hc hd
    rw [view_setPeer]
    split
    · rename_i h
      subst h
      rw [hc, hd, view_peer]
    · rfl
  unfold pathChanged
  dsimp only
  split
  · exact (view_congr rfl p).trans (hset _ rfl rfl)
  · exact hset _ rfl rfl

theorem view_up (path : P2pPathReport) (now : Millis) :
    (c.up q path now).1.view p = if p = q then (true, false) else c.view p := by
  unfold up
  dsimp only
  rw [view_pathChanged, view_setPeer]

theorem view_dialed (outcome : DialOutcome) (now : Millis) :
    (c.dialed q outcome now).1.view p =
      if p = q then ((c.view p).1 || outcome == .connected, false) else c.view p := by
  have hconn : (c.peer q).connected = (c.view q).1 := congrArg Prod.fst (c.view_peer q)
  unfold dialed
  dsimp only
  cases outcome with
  | connected =>
    dsimp only
    split
    · rename_i h
      rw [view_setPeer]
      split
      · rename_i hp
        subst hp
        simp [h]
      · rfl
    · rw [view_up, view_setPeer]
      split <;> simp_all
  | inProgress =>
    refine (view_congr rfl p).trans ((c.view_setPeer q p _).trans ?_)
    split
    · rename_i hp
      subst hp
      simp [hconn]
    · rfl
  | failed =>
    refine (view_congr rfl p).trans ((c.view_setPeer q p _).trans ?_)
    split
    · rename_i hp
      subst hp
      simp [hconn]
    · rfl

theorem view_foldl_lost (cids : List Cid) (c : Core) (p : Cid) :
    (cids.foldl (fun c cid => c.lost cid c.now) c).view p = if p ∈ cids then (false, false) else c.view p := by
  induction cids generalizing c with
  | nil => simp
  | cons cid cids ih =>
    rw [List.foldl_cons, ih, view_lost]
    by_cases h : p = cid <;> by_cases h' : p ∈ cids <;> simp [h, h']

theorem view_loseConnected (p : Cid) :
    c.loseConnected.view p = if (c.view p).1 then (false, false) else c.view p := by
  have hconn : (c.peer p).connected = (c.view p).1 := congrArg Prod.fst (c.view_peer p)
  unfold loseConnected
  rw [view_foldl_lost]
  by_cases hp : (c.view p).1 = true
  · have hmem : p ∈ c.peers.keys := by
      rw [Std.ExtTreeMap.mem_keys, Std.ExtTreeMap.mem_iff_isSome_getElem?]
      unfold view at hp
      cases h : c.peers[p]? with
      | none => simp [h] at hp
      | some entry => rfl
    simp [hp, hmem, hconn]
  · simp [hp, hconn]

/-! ## One step -/

/-- How many dials to `p` a command list starts. -/
def dialsTo (p : Cid) (commands : List Command) : Nat := commands.count (.dialPeer p)

theorem dialsTo_append (p : Cid) (xs ys : List Command) : dialsTo p (xs ++ ys) = dialsTo p xs + dialsTo p ys :=
  List.count_append

theorem dialsTo_drivePeer (policy : SupervisorPolicy) (now : Millis) (q : Cid) (entry : Peer) (rng : Rng) (p : Cid) :
    dialsTo p (drivePeer policy now q entry rng).2.2 = if q = p ∧ dialDue policy now entry then 1 else 0 := by
  unfold drivePeer dialsTo
  by_cases h : dialDue policy now entry = true <;> by_cases hr : entry.dialingReported = true <;>
    by_cases hq : q = p <;> simp [h, hr, hq] <;> split <;> simp [hq]

theorem view_drivePeer (policy : SupervisorPolicy) (now : Millis) (q : Cid) (entry : Peer) (rng : Rng) :
    (drivePeer policy now q entry rng).1.connected = entry.connected ∧
      (drivePeer policy now q entry rng).1.dial.inFlight = (entry.dial.inFlight || dialDue policy now entry) := by
  unfold drivePeer
  by_cases h : dialDue policy now entry = true <;> simp [h] <;> split <;> simp

theorem drive_view (p : Cid) :
    ((c.drive now).1.view p = c.view p ∧ dialsTo p (c.drive now).2 = 0) ∨
      (c.view p = (false, false) ∧ (c.drive now).1.view p = (false, true) ∧ dialsTo p (c.drive now).2 = 1) := by
  unfold drive
  split
  · exact .inl ⟨rfl, rfl⟩
  generalize hd : c.driveProbe now = d
  have hview : d.1.view p = c.view p := by
    rw [← hd]
    unfold driveProbe
    dsimp only
    split <;> rfl
  have hprobe : dialsTo p d.2 = 0 := by
    rw [← hd]
    unfold driveProbe dialsTo
    dsimp only
    split <;> simp
  obtain ⟨rng, hpeers, hcount⟩ := d.1.forPeers_at (drivePeer d.1.policy now) p (.dialPeer p) (by
    intro q entry rng hq
    exact (dialsTo_drivePeer _ _ _ _ _ p).trans (by simp [hq]))
  dsimp only
  rw [dialsTo_append, hprobe, Nat.zero_add, ← hview]
  unfold view at *
  rw [hpeers]
  cases hp : d.1.peers[p]? with
  | none => exact .inl ⟨rfl, by simpa [dialsTo, hp] using hcount⟩
  | some entry =>
    have hdials : dialsTo p (d.1.forPeers (drivePeer d.1.policy now)).2 =
        if dialDue d.1.policy now entry then 1 else 0 := by
      have := dialsTo_drivePeer d.1.policy now p entry rng p
      simp only [true_and] at this
      rw [← this]
      simpa [hp, dialsTo] using hcount
    obtain ⟨h1, h2⟩ := view_drivePeer d.1.policy now p entry rng
    by_cases hdue : dialDue d.1.policy now entry = true
    · refine .inr ⟨?_, ?_, by simp [hdials, hdue]⟩
      · simp only [dialDue, Bool.and_eq_true, Bool.not_eq_true'] at hdue
        simp [hdue.1.1.1.2, hdue.1.1.2]
      · have hcon : entry.connected = false := by
          simp only [dialDue, Bool.and_eq_true, Bool.not_eq_true'] at hdue
          exact hdue.1.1.1.2
        simp [h1, h2, hdue, hcon]
    · exact .inl ⟨by simp [h1, h2, hdue], by simp [hdials, hdue]⟩

end Core

/-- Whether an input answers a dial to `p`. -/
def Input.answersDial (p : Cid) : Input → Bool
  | .dialResult _ q _ => decide (q = p)
  | _ => false

/-- Whether an input reports on the connection to `p`: lost, released or up. -/
def Input.reportsOn (p : Cid) : Input → Bool
  | .peerLost _ q | .peerReleased _ q | .peerUp _ q _ => decide (q = p)
  | _ => false

namespace Core

theorem dialsTo_handle (c : Core) (input : Input) (now : Millis) (p : Cid) :
    dialsTo p (c.handle input now).2 = 0 := by
  have hup : ∀ (c : Core) q path, dialsTo p (c.up q path now).2 = 0 := by
    intro c q path
    unfold up dialsTo
    dsimp only
    split <;> simp
  cases input with
  | networkChanged at_ =>
    simp only [handle, networkChanged, dialsTo]
    split_ifs <;> simp
  | serverProbe at_ outcome =>
    have hrearm : ∀ c : Core, dialsTo p c.rearmRelayed.2 = 0 := by
      intro c
      exact List.count_eq_zero.mpr fun h => by cases (mem_rearmRelayed h).2.choose_spec
    simp only [handle, probed]
    split
    · rfl
    split
    · rfl
    cases outcome with
    | ok rtt =>
      dsimp only
      split
      · rw [dialsTo_append, hrearm]
        rfl
      · exact hrearm _
    | error => rfl
    | timeout => dsimp only; split_ifs <;> rfl
  | serverLink at_ state =>
    cases state with
    | up => simp only [handle, linkChanged]; split <;> rfl
    | reconnecting => simp only [handle, linkChanged, loseLink]; split <;> rfl
    | ended => rfl
  | peerUp at_ q path => exact hup _ _ _
  | dialResult at_ q outcome =>
    cases outcome with
    | connected =>
      simp only [handle, dialed]
      split
      · rfl
      · exact hup _ _ _
    | failed => simp only [handle, dialed, dialsTo]; split <;> simp
    | inProgress => rfl
  | _ => rfl

/-- What a handler does to `p`: an answer to its dial or a report on it clears the mark; anything else leaves
`p` alone, or loses it with the link, or ends the session. -/
theorem handle_view (c : Core) (input : Input) (now : Millis) (p : Cid) :
    ((input.answersDial p = true ∨ input.reportsOn p = true) ∧ ((c.handle input now).1.view p).2 = false) ∨
      (input.answersDial p = false ∧ input.reportsOn p = false ∧
        ((c.handle input now).1.view p = c.view p ∨
          ((c.view p).1 = true ∧ (c.handle input now).1.view p = (false, false)) ∨
          (c.handle input now).1.link = .ended)) := by
  cases input with
  | tick at_ =>
    refine .inr ⟨rfl, rfl, .inl (view_forPeers _ _ _ fun q entry rng => ?_)⟩
    unfold settlePeer
    dsimp only
    split <;> exact ⟨rfl, rfl⟩
  | networkChanged at_ =>
    refine .inr ⟨rfl, rfl, .inl ?_⟩
    simp only [handle, networkChanged]
    split_ifs <;> rfl
  | serverProbe at_ outcome =>
    refine .inr ⟨rfl, rfl, .inl ?_⟩
    have hrearm : ∀ c : Core, c.rearmRelayed.1.view p = c.view p := by
      intro c
      unfold rearmRelayed
      split
      · refine (view_forPeers _ _ _ fun q entry rng => ?_).trans rfl
        unfold rearmPeer
        split <;> exact ⟨rfl, rfl⟩
      · rfl
    simp only [handle, probed]
    split
    · rfl
    split
    · rfl
    cases outcome with
    | ok rtt =>
      dsimp only
      split <;> exact hrearm _
    | error => rfl
    | timeout => dsimp only; split_ifs <;> rfl
  | serverLink at_ state =>
    refine .inr ⟨rfl, rfl, ?_⟩
    cases state with
    | up =>
      refine .inl ?_
      simp only [handle, linkChanged]
      split <;> rfl
    | reconnecting =>
      have hlose : (c.handle (.serverLink at_ .reconnecting) now).1.view p =
          if (c.view p).1 then (false, false) else c.view p := by
        simp only [handle, linkChanged, loseLink]
        split <;> exact view_loseConnected _ _
      by_cases h : (c.view p).1 = true
      · exact .inr (.inl ⟨h, by rw [hlose, if_pos h]⟩)
      · exact .inl (by rw [hlose, if_neg h])
    | ended => exact .inr (.inr rfl)
  | forceFailed at_ => exact .inr ⟨rfl, rfl, .inl rfl⟩
  | peerLost at_ q =>
    by_cases h : q = p
    · exact .inl ⟨.inr (by simp [Input.reportsOn, h]), by simp [handle, view_lost, h]⟩
    · exact .inr ⟨rfl, by simp [Input.reportsOn, h], .inl (by simp [handle, view_lost, Ne.symm h])⟩
  | peerReleased at_ q =>
    by_cases h : q = p
    · exact .inl ⟨.inr (by simp [Input.reportsOn, h]), by simp [handle, view_released, h]⟩
    · exact .inr ⟨rfl, by simp [Input.reportsOn, h], .inl (by simp [handle, view_released, Ne.symm h])⟩
  | peerUp at_ q path =>
    by_cases h : q = p
    · exact .inl ⟨.inr (by simp [Input.reportsOn, h]), by simp [handle, view_up, h]⟩
    · exact .inr ⟨rfl, by simp [Input.reportsOn, h], .inl (by simp [handle, view_up, Ne.symm h])⟩
  | peerReachable at_ q => exact .inr ⟨rfl, rfl, .inl (view_reachable _ _ _ _)⟩
  | peerPath at_ q path => exact .inr ⟨rfl, rfl, .inl (view_pathChanged _ _ _ _ _)⟩
  | dialResult at_ q outcome =>
    by_cases h : q = p
    · exact .inl ⟨.inl (by simp [Input.answersDial, h]), by simp [handle, view_dialed, h]⟩
    · exact .inr ⟨by simp [Input.answersDial, h], rfl, .inl (by simp [handle, view_dialed, Ne.symm h])⟩
  | backlog q pending =>
    refine .inr ⟨rfl, rfl, .inl ?_⟩
    simp only [handle, view_setPeer]
    split
    · rename_i h
      exact h ▸ view_peer c p
    · rfl
  | interest q until_ =>
    refine .inr ⟨rfl, rfl, .inl ?_⟩
    simp only [handle, view_setPeer]
    split
    · rename_i h
      exact h ▸ view_peer c p
    · rfl

/-- A dial is marked in flight only to a peer that is not connected. -/
def DialInv (v : Bool × Bool) : Prop := v.1 = true → v.2 = false

/-- **What one step does to the dials to `p`**, for a core that has not ended. -/
theorem step_dials {c : Core} (hend : c.link ≠ .ended) (input : Input) (p : Cid) (hinv : DialInv (c.view p)) :
    (((c.step input).1.link = .ended ∧ dialsTo p (c.step input).2 = 0) ∨
      DialInv ((c.step input).1.view p) ∧
        dialsTo p (c.step input).2 +
            (if input.answersDial p ∨ input.reportsOn p then 0 else ((c.view p).2).toNat) =
          (((c.step input).1.view p).2).toNat) := by
  rw [step_eq hend]
  dsimp only
  generalize hc : ({ c with now := c.timeOf input } : Core) = c'
  have hview : c'.view p = c.view p := by rw [← hc]; rfl
  generalize c.timeOf input = now
  have hcount := c'.dialsTo_handle input now p
  have hhandle := c'.handle_view input now p
  rw [hview] at hhandle
  generalize c'.handle input now = d at *
  rw [dialsTo_append, hcount, Nat.zero_add]
  -- what the handler left, then what `drive` makes of it
  have hdrive := d.1.drive_view now p
  by_cases hended : d.1.link = .ended
  · refine .inl ⟨(d.1.drive_link now).2.1.trans hended, ?_⟩
    rw [show d.1.drive now = (d.1, []) by simp [drive, hended]]
    rfl
  · refine .inr ?_
    rcases hhandle with ⟨hkind, hclear⟩ | ⟨ha, hr, hsame | ⟨hcon, hlost⟩ | hlink⟩
    · rw [if_pos (by simpa using hkind), Nat.add_zero]
      rcases hdrive with ⟨h1, h2⟩ | ⟨-, h1, h2⟩
      · rw [h1, h2, hclear]
        exact ⟨fun _ => hclear, rfl⟩
      · rw [h1, h2]
        exact ⟨fun h => by simp at h, rfl⟩
    · rw [if_neg (by simp [ha, hr])]
      rcases hdrive with ⟨h1, h2⟩ | ⟨h0, h1, h2⟩
      · rw [h1, h2, hsame, Nat.zero_add]
        exact ⟨hinv, rfl⟩
      · rw [h1, h2, ← hsame, h0]
        exact ⟨fun h => by simp at h, rfl⟩
    · rw [if_neg (by simp [ha, hr]), hinv hcon]
      rcases hdrive with ⟨h1, h2⟩ | ⟨-, h1, h2⟩
      · rw [h1, h2, hlost]
        exact ⟨fun _ => rfl, rfl⟩
      · rw [h1, h2]
        exact ⟨fun h => by simp at h, rfl⟩
    · exact absurd hlink hended

/-! ## Runs -/

/-- The dials to `p` that the run of `inputs` has started, less the answers it was given. -/
def outstanding (c₀ : Core) (p : Cid) (inputs : List Input) : Int :=
  dialsTo p (c₀.commandsOf inputs) - inputs.countP (Input.answersDial p)

/-- Each `DialResult` for `p` answers an earlier dial to `p` that has no answer yet. -/
def EachAnswersADial (c₀ : Core) (p : Cid) (inputs : List Input) : Prop :=
  ∀ earlier x later, inputs = earlier ++ x :: later → x.answersDial p = true → 1 ≤ c₀.outstanding p earlier

/-- No report on `p` (lost, released, up) arrives while a dial to `p` is out. -/
def RunsUndisturbed (c₀ : Core) (p : Cid) (inputs : List Input) : Prop :=
  ∀ earlier x later, inputs = earlier ++ x :: later → x.reportsOn p = true → c₀.outstanding p earlier ≤ 0

theorem outstanding_snoc (c₀ : Core) (p : Cid) (inputs : List Input) (input : Input) :
    c₀.outstanding p (inputs ++ [input]) =
      c₀.outstanding p inputs + dialsTo p ((c₀.run inputs).step input).2 -
        if input.answersDial p then 1 else 0 := by
  unfold outstanding
  rw [commandsOf_append, dialsTo_append, List.countP_append]
  simp only [commandsOf, List.append_nil, List.countP_singleton]
  push_cast
  omega

theorem outstanding_inv (policy : SupervisorPolicy) (cid p : Cid) (inputs : List Input)
    (hans : EachAnswersADial (new policy cid) p inputs) (hrun : RunsUndisturbed (new policy cid) p inputs) :
    (((new policy cid).run inputs).link = .ended → (new policy cid).outstanding p inputs ≤ 1) ∧
      (((new policy cid).run inputs).link ≠ .ended → DialInv (((new policy cid).run inputs).view p) ∧
        (new policy cid).outstanding p inputs = ((((new policy cid).run inputs).view p).2).toNat) := by
  induction inputs using List.reverseRecOn with
  | nil =>
    have hv : (new policy cid).view p = (false, false) := by simp [view, new]
    refine ⟨fun h => by simp [new] at h, fun _ => ?_⟩
    rw [run_nil, hv]
    exact ⟨fun _ => rfl, rfl⟩
  | append_singleton inputs input ih =>
    have hext : ∀ {earlier x later}, inputs = earlier ++ x :: later →
        inputs ++ [input] = earlier ++ x :: (later ++ [input]) := by
      intro earlier x later h
      rw [h, List.append_assoc]
      rfl
    obtain ⟨ihend, ihup⟩ := ih (fun e x l h => hans e x _ (hext h)) (fun e x l h => hrun e x _ (hext h))
    have hans := hans inputs input [] rfl
    have hrun := hrun inputs input [] rfl
    have hsnoc := outstanding_snoc (new policy cid) p inputs input
    have hnext : (new policy cid).run (inputs ++ [input]) = (((new policy cid).run inputs).step input).1 :=
      run_snoc _ _ _
    rw [hnext, hsnoc]
    generalize (new policy cid).outstanding p inputs = o at *
    generalize (new policy cid).run inputs = c at *
    by_cases hended : c.link = .ended
    · rw [step_of_ended hended]
      refine ⟨fun _ => ?_, fun h => absurd hended h⟩
      have := ihend hended
      simp only [dialsTo, List.count_nil]
      split <;> omega
    · obtain ⟨hinv, ho⟩ := ihup hended
      have hle : ((c.view p).2).toNat ≤ 1 := Bool.toNat_le _
      rcases step_dials hended input p hinv with ⟨hl, hd⟩ | ⟨hinv', hd⟩
      · refine ⟨fun _ => ?_, fun h => absurd hl h⟩
        rw [hd]
        split <;> omega
      · have hbal : o + dialsTo p (c.step input).2 - (if input.answersDial p = true then 1 else 0) =
            ((((c.step input).1.view p).2).toNat : Int) := by
          cases ha : input.answersDial p with
          | true =>
            have := hans ha
            simp only [ha, true_or, if_true] at hd ⊢
            omega
          | false =>
            cases hr : input.reportsOn p with
            | true =>
              have := hrun hr
              simp only [ha, hr, or_true, if_true] at hd ⊢
              simp only [Bool.false_eq_true, if_false]
              omega
            | false =>
              simp only [ha, hr, Bool.false_eq_true, or_self, if_false] at hd ⊢
              omega
        refine ⟨fun _ => ?_, fun _ => ⟨hinv', hbal⟩⟩
        rw [hbal]
        have := Bool.toNat_le (((c.step input).1.view p).2)
        omega

/-- **At most one dial to `p` is out** in every run in which no report on `p` arrives while a dial to it is
out, whatever the link does and in every state the run reaches. -/
theorem outstanding_le_one (policy : SupervisorPolicy) (cid p : Cid) (inputs : List Input)
    (hans : EachAnswersADial (new policy cid) p inputs) (hrun : RunsUndisturbed (new policy cid) p inputs) :
    ∀ earlier later, inputs = earlier ++ later → (new policy cid).outstanding p earlier ≤ 1 := by
  intro earlier later hsplit
  have hext : ∀ {e x l}, earlier = e ++ x :: l → inputs = e ++ x :: (l ++ later) := by
    intro e x l h
    rw [hsplit, h, List.append_assoc]
    rfl
  obtain ⟨hend, hup⟩ := outstanding_inv policy cid p earlier (fun e x l h => hans e x _ (hext h))
    (fun e x l h => hrun e x _ (hext h))
  by_cases h : ((new policy cid).run earlier).link = .ended
  · exact hend h
  · rw [(hup h).2]
    have := Bool.toNat_le ((((new policy cid).run earlier).view p).2)
    omega

/-- A dial that fails and is tried again: never two at once. -/
theorem outstanding_le_one_redial :
    (new agentSupervisor 1).outstanding 11
      [.interest 11 ⟨60000⟩, .dialResult ⟨10⟩ 11 .failed, .tick ⟨5000⟩] = 1 ∧
    ∀ earlier later, [.interest 11 ⟨60000⟩, .dialResult ⟨10⟩ 11 .failed, .tick ⟨5000⟩] = earlier ++ later →
      (new agentSupervisor 1).outstanding 11 earlier ≤ 1 := by
  refine ⟨by decide, outstanding_le_one agentSupervisor 1 11 _ ?_ ?_⟩
  · intro earlier x later h hx
    match earlier, h with
    | [], h => obtain ⟨rfl, -⟩ := List.cons.inj h; simp [Input.answersDial] at hx
    | [_], h => obtain ⟨rfl, -⟩ := List.cons.inj h; decide
    | [_, _], h =>
      obtain ⟨-, h⟩ := List.cons.inj h
      obtain ⟨-, h⟩ := List.cons.inj h
      obtain ⟨rfl, -⟩ := List.cons.inj h
      simp [Input.answersDial] at hx
    | _ :: _ :: _ :: _, h => simp at h
  · intro earlier x later h hx
    have hmem : x ∈ [.interest 11 ⟨60000⟩, .dialResult ⟨10⟩ 11 .failed, .tick ⟨5000⟩] := by rw [h]; simp
    simp only [List.mem_cons, List.not_mem_nil, or_false] at hmem
    rcases hmem with rfl | rfl | rfl <;> simp [Input.reportsOn] at hx

/-- A `PeerLost` that arrives while a dial is out starts a second dial beside it: the link is up throughout,
and no answer came that no dial asked for. -/
theorem outstanding_two :
    EachAnswersADial (new agentSupervisor 1) 11 [.interest 11 ⟨60000⟩, .peerLost ⟨0⟩ 11] ∧
    ((new agentSupervisor 1).run [.interest 11 ⟨60000⟩]).link = .up ∧
    ((new agentSupervisor 1).run [.interest 11 ⟨60000⟩, .peerLost ⟨0⟩ 11]).link = .up ∧
    ¬ (new agentSupervisor 1).outstanding 11 [.interest 11 ⟨60000⟩, .peerLost ⟨0⟩ 11] ≤ 1 := by
  refine ⟨?_, by decide, by decide, by decide⟩
  intro earlier x later h hx
  have hmem : x ∈ [.interest 11 ⟨60000⟩, .peerLost ⟨0⟩ 11] := by rw [h]; simp
  simp only [List.mem_cons, List.not_mem_nil, or_false] at hmem
  rcases hmem with rfl | rfl <;> simp [Input.answersDial] at hx

end Core

end CitadelAgent.Supervisor
