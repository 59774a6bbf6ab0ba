import CitadelAgent.Media.Handlers

/-!
# A peer's UDP path is not lost between calls

* `Shaped`, `Loses`, `BecomesUnavailable` : what the path's state says, and what may happen to it;
* `udp_path_kept` : over whole runs.
-/

namespace CitadelAgent.Media
open Machine

variable {s t : State}

namespace State

def Awaits (s : State) (i : Nat) : Prop := ∃ call uuid rxs generation, s.calls i = some call ∧ call.task = .awaiting uuid rxs generation

/-- A `MediaClose` or a rebuild that has yet to put the path back. -/
def Closes (s : State) (i : Nat) : Prop := ∃ call session next, s.calls i = some call ∧ call.task = .closing session next

/-- A call is on a lent path; the path is opening while one open waits, and lent without a call only while one is being closed. -/
def Shaped (s : State) : Prop := ∀ peer, s.peer = some peer →
  (peer.media ≠ none → ∃ tx, peer.udp = .lent tx) ∧ (peer.udp = .opening ↔ ∃! i, s.Awaits i) ∧
    ((∃ tx, peer.udp = .lent tx) → peer.media = none → ∃ i, s.Closes i)

/-- A channel that is delivered, or is as it comes, and that the step leaves nowhere, though the SDK neither had restored one in its
place nor does now. -/
def Loses (s : State) (act : Act) (c : Nat) : Prop :=
  (s.status c = .delivered ∧ Held s.peer s.calls c ∨ s.Arrives act c) ∧ ¬ Held (s.step act).peer (s.step act).calls c ∧
    c ∉ s.superseded ∧ ¬ (act = .restore ∧ c ∈ (s.step act).superseded)

def BecomesUnavailable (s : State) (act : Act) : Prop :=
  ∃ peer peer', s.peer = some peer ∧ peer.udp ≠ .unavailable ∧ (s.step act).peer = some peer' ∧ peer'.udp = .unavailable

/-- A wait ends, all of whose offers are withdrawn. -/
def AllWithdrawn (s : State) (act : Act) : Prop := ∃ i first accepted call uuid rxs generation, act = .finishOpen i first accepted ∧
  s.calls i = some call ∧ call.task = .awaiting uuid rxs generation ∧ ∀ o ∈ rxs, s.status o = .withdrawn

def StreamEnded (s : State) (act : Act) : Prop := ∃ i accepted call session next, act = .settle i accepted ∧
  s.calls i = some call ∧ call.task = .closing session next ∧ s.status session.rx = .ended

end State

theorem Sound.shaped (h : Sound s) : s.Shaped := by
  intro peer hpeer
  have hawaits {i : Nat} (hi : s.Awaits i) : peer.udp = .opening := by
    obtain ⟨call, uuid, rxs, generation, hcall, htask⟩ := hi
    obtain ⟨peer', hpeer', -, hudp, -⟩ := h.awaiting hcall htask
    obtain rfl := Option.mem_unique hpeer hpeer'
    exact hudp
  refine ⟨fun hsome => ?_, ⟨fun hopening => ?_, fun ⟨i, hi, _⟩ => hawaits hi⟩, fun ⟨tx, hlent⟩ hnone => ?_⟩
  · cases h.phase peer hpeer with
    | call session tx hmedia hudp hquiet => exact ⟨tx, hudp⟩
    | opening i uuid rxs generation hmedia hudp honly => exact absurd hmedia hsome
    | closing i session next tx hmedia hudp honly => exact absurd hmedia hsome
    | rest hmedia hudp hquiet => exact absurd hmedia hsome
  · cases h.phase peer hpeer with
    | call session tx hmedia hudp hquiet => exact nomatch hopening.symm.trans hudp
    | opening i uuid rxs generation hmedia hudp honly =>
      obtain ⟨call, hi, htask⟩ := honly.at_
      refine ⟨i, ⟨call, uuid, rxs, generation, hi, htask⟩, fun j hj => ?_⟩
      -- each open that waits is the last that began
      obtain ⟨call', uuid', rxs', generation', hj, htask'⟩ := hj
      have hbusy : call'.task.busy := by
        rw [htask']
        trivial
      refine (honly.only j call' hj hbusy).resolve_right fun ⟨_, session, next, hclosing, _⟩ => ?_
      exact nomatch htask'.symm.trans hclosing
    | closing i session next tx hmedia hudp honly => exact nomatch hopening.symm.trans hudp
    | rest hmedia hudp hquiet =>
      rcases hudp with hudp | ⟨tx, rx, hudp⟩ | ⟨rxs, hudp⟩
      · exact nomatch hopening.symm.trans hudp
      · exact nomatch hopening.symm.trans hudp
      · exact nomatch hopening.symm.trans hudp
  · cases h.phase peer hpeer with
    | call session tx hmedia hudp hquiet => exact nomatch hnone.symm.trans hmedia
    | opening i uuid rxs generation hmedia hudp honly => exact nomatch hlent.symm.trans hudp
    | closing i session next tx hmedia hudp honly =>
      obtain ⟨call, hi, htask⟩ := honly.at_
      exact ⟨i, call, session, next, hi, htask⟩
    | rest hmedia hudp hquiet =>
      rcases hudp with hudp | ⟨tx, rx, hudp⟩ | ⟨rxs, hudp⟩
      · exact nomatch hlent.symm.trans hudp
      · exact nomatch hlent.symm.trans hudp
      · exact nomatch hlent.symm.trans hudp

theorem arrives_held {act : Act} (hmet : s.Keeps act) {c : Nat} (hc : s.Arrives act c) : Held (s.step act).peer (s.step act).calls c := by
  obtain ⟨rfl, rfl | ⟨rfl, hsome⟩⟩ := hc
  · rcases none_or_peer s with hnone | ⟨peer, hpeer⟩
    · simp only [State.step, hnone]
      exact .inl ⟨_, rfl, List.mem_singleton_self _⟩
    · have hmet := hmet peer hpeer
      by_cases hadopt : peer.media = none ∧ peer.udp ≠ .opening
      · simp only [State.step, hpeer, upsert, Option.map_some, if_pos hadopt]
        exact .inl ⟨_, rfl, List.mem_append_left _ (offer_halves peer.udp s.channels).2.1⟩
      · rw [if_neg hadopt] at hmet
        exact absurd rfl hmet
  · obtain ⟨peer, hpeer⟩ := Option.ne_none_iff_exists'.mp hsome
    have hmet := hmet peer hpeer
    rw [step_restore hpeer]
    rcases Option.eq_none_or_eq_some peer.media with hmedia | ⟨live, hmedia⟩
    · simp only [State.offerRestored, hmedia, if_neg hmet]
      exact .inl ⟨_, rfl, List.mem_append_left _ (offer_halves peer.udp s.channels).2.1⟩
    · simp only [State.offerRestored, hmedia]
      exact .inl ⟨_, rfl, List.mem_singleton_self _⟩

theorem openPath_unavailable {peer : PeerConnection} {uuid : Uuid} {accepted : Bool} {number : Nat}
    (h : (openPath peer uuid accepted number).1.udp = .unavailable) : peer.udp = .unavailable := by
  have hfinds := openPath_finds peer uuid accepted number
  generalize openPath peer uuid accepted number = result at hfinds h
  cases hfinds with
  | same | stale => exact h
  | idle =>
    cases accepted with
    | true | false => exact nomatch h
  | pending => exact nomatch h

theorem offer_available (udp : UdpState) (c : Nat) : udp.offer c ≠ .unavailable := by
  obtain ⟨⟨rxs, hpending⟩, -⟩ := offer_halves udp c
  rw [hpending]
  exact nofun

theorem not_becomes {act : Act} (h : ∀ peer peer', s.peer = some peer → (s.step act).peer = some peer' → peer'.udp = .unavailable →
    peer.udp = .unavailable) : ¬ s.BecomesUnavailable act := by
  rintro ⟨peer, peer', hpeer, havailable, hpeer', hudp⟩
  exact havailable (h peer peer' hpeer hpeer' hudp)

theorem not_becomes_peer {act : Act} (h : (s.step act).peer = s.peer) : ¬ s.BecomesUnavailable act := by
  refine not_becomes fun peer peer' hpeer hpeer' hudp => ?_
  obtain rfl := Option.mem_unique hpeer (h.symm.trans hpeer')
  exact hudp

theorem Sound.becomes (h : Sound s) {act : Act} (hmet : s.Keeps act) (hbecomes : s.BecomesUnavailable act) :
    s.AllWithdrawn act ∨ s.StreamEnded act := by
  cases act with
  | mediaOpen uuid accepted =>
    refine absurd hbecomes (not_becomes fun peer peer' hpeer hpeer' hudp => ?_)
    have hafter : (s.step (.mediaOpen uuid accepted)).peer = some (openPath peer uuid accepted s.sessions).1 := by
      rw [step_mediaOpen hpeer]
      cases (openPath peer uuid accepted s.sessions).2 with
      | none =>
        show s.peer.map _ = _
        rw [hpeer]
        rfl
      | some task =>
        show s.peer.map _ = _
        rw [hpeer]
        rfl
    rw [← Option.mem_unique hafter hpeer'] at hudp
    exact openPath_unavailable hudp
  | finishOpen i first accepted =>
    obtain ⟨peer, peer', hpeer, havailable, hpeer', hudp⟩ := hbecomes
    rcases finishOpen_cases s i first accepted with hsame | ⟨call, uuid, rxs, generation, hi, htask, hresolves⟩
    · rw [hsame, hpeer] at hpeer'
      obtain rfl := Option.some.inj hpeer'
      exact absurd hudp havailable
    obtain ⟨peer₀, hpeer₀, hmedia, hopening, -⟩ := h.awaiting hi htask
    obtain rfl := Option.mem_unique hpeer hpeer₀
    rw [step_finishOpen hi htask hresolves] at hpeer'
    replace hpeer' : s.peer.map _ = some peer' := hpeer'
    rw [hpeer] at hpeer'
    rw [← Option.some.inj hpeer'] at hudp
    obtain ⟨-, -, hunavailable, -⟩ := finishFirstOpen_spec hmedia hopening uuid rxs (s.outcome first) generation accepted s.sessions
    obtain ⟨c, rfl, hwithdrawn⟩ := State.outcome_withdrawn (hunavailable hudp)
    have hmem : c ∈ rxs := by
      simp only [State.resolves, Bool.and_eq_true, decide_eq_true_eq] at hresolves
      exact hresolves.1
    have hall := hmet call uuid rxs generation c hi htask rfl hmem
    rw [hwithdrawn] at hall
    exact .inl ⟨i, some c, accepted, call, uuid, rxs, generation, rfl, hi, htask, hall⟩
  | settle i accepted =>
    obtain ⟨peer, peer', hpeer, havailable, hpeer', hudp⟩ := hbecomes
    rcases settle_cases s i accepted with hsame | ⟨call, session, next, hi, htask⟩
    · rw [hsame, hpeer] at hpeer'
      obtain rfl := Option.some.inj hpeer'
      exact absurd hudp havailable
    rw [step_settle hi htask] at hpeer'
    replace hpeer' : s.peer.map _ = some peer' := hpeer'
    rw [hpeer] at hpeer'
    rw [← Option.some.inj hpeer'] at hudp
    rcases lent_or_not peer.udp with ⟨tx, hlent⟩ | hlent
    · obtain ⟨hmedia, -⟩ := h.settling hmet hpeer hlent hi htask
      rcases recovered_cases session with ⟨-, hended⟩ | hrecovered
      · exact .inr ⟨i, accepted, call, session, next, rfl, hi, htask, h.pumps session (.inr ⟨i, call, next, hi, htask⟩) hended⟩
      · rw [hrecovered] at hudp
        obtain ⟨-, -, hrest, -⟩ := settle_recovered hmedia hlent next session.rx accepted s.sessions
        exact absurd hudp hrest
    · replace hudp : (next.settle peer session.recovered accepted s.sessions).udp = .unavailable := hudp
      rw [settle_other hlent] at hudp
      exact absurd hudp havailable
  | mediaClose uuid =>
    refine absurd hbecomes (not_becomes fun peer peer' hpeer hpeer' hudp => ?_)
    simp only [State.step, hpeer] at hpeer'
    split at hpeer'
    case h_1 after session hclose =>
      obtain ⟨-, hafter⟩ := handleClose_spec hclose
      have hsome : some after = some peer' := by
        cases session with
        | none => exact hpeer'
        | some session => exact hpeer'
      rw [← Option.some.inj hsome, hafter] at hudp
      exact hudp
    case h_2 =>
      replace hpeer' : some peer = some peer' := hpeer'
      rw [← Option.some.inj hpeer'] at hudp
      exact hudp
  | mediaSend uuid =>
    refine absurd hbecomes (not_becomes_peer ?_)
    simp only [State.step]
    split
    · split
      · split
        · rfl
        · rfl
      · rfl
    · rfl
  | sendFrame i =>
    refine absurd hbecomes (not_becomes_peer ?_)
    simp only [State.step]
    split
    · rfl
    · rfl
  | upsert offer =>
    refine absurd hbecomes (not_becomes fun peer peer' hpeer hpeer' hudp => ?_)
    simp only [State.step, hpeer] at hpeer'
    rw [← Option.some.inj hpeer'] at hudp
    cases offer with
    | none =>
      simp only [upsert, Option.map_none, ite_self] at hudp
      exact hudp
    | some status =>
      simp only [upsert, Option.map_some] at hudp
      split at hudp
      · exact absurd hudp (offer_available _ _)
      · exact hudp
  | restore =>
    refine absurd hbecomes (not_becomes fun peer peer' hpeer hpeer' hudp => ?_)
    have hmet := hmet peer hpeer
    rw [step_restore hpeer] at hpeer'
    rcases Option.eq_none_or_eq_some peer.media with hmedia | ⟨live, hmedia⟩
    · simp only [State.offerRestored, hmedia, if_neg hmet] at hpeer'
      rw [← Option.some.inj hpeer'] at hudp
      exact absurd hudp (offer_available _ _)
    · simp only [State.offerRestored, hmedia] at hpeer'
      rw [← Option.some.inj hpeer'] at hudp
      cases hudp
  | remove => exact hmet.elim
  | deliver c =>
    refine absurd hbecomes (not_becomes_peer ?_)
    simp only [State.step]
    split
    · rfl
    · rfl
  | withdraw c =>
    refine absurd hbecomes (not_becomes_peer ?_)
    simp only [State.step]
    split
    · rfl
    · rfl
  | streamEnds c =>
    refine absurd hbecomes (not_becomes_peer ?_)
    simp only [State.step]
    split
    · rfl
    · rfl
  | clientGone =>
    refine absurd hbecomes (not_becomes fun peer peer' hpeer hpeer' hudp => ?_)
    simp only [State.step, hpeer, Option.map_some] at hpeer'
    rw [← Option.some.inj hpeer'] at hudp
    exact hudp
  | pumpEnds =>
    refine absurd hbecomes (not_becomes fun peer peer' hpeer hpeer' hudp => ?_)
    simp only [State.step, hpeer, Option.map_some] at hpeer'
    rw [← Option.some.inj hpeer'] at hudp
    exact hudp
  | closingPumpEnds i =>
    refine absurd hbecomes (not_becomes_peer ?_)
    simp only [State.step]
    split
    · rfl
    · rfl

theorem superseded_step (s : State) (act : Act) : act = .restore ∨ (s.step act).superseded = s.superseded := by
  cases act with
  | restore => exact .inl rfl
  | mediaOpen uuid accepted =>
    rcases none_or_peer s with hnone | ⟨peer, hpeer⟩
    · simp only [State.step, hnone, or_true]
    · rw [step_mediaOpen hpeer]
      cases (openPath peer uuid accepted s.sessions).2 with
      | none => exact .inr rfl
      | some task => exact .inr rfl
  | mediaClose uuid =>
    refine .inr ?_
    simp only [State.step]
    split
    · split
      case h_1 after session hclose =>
        cases session with
        | none => rfl
        | some session => rfl
      case h_2 => rfl
    · rfl
  | mediaSend uuid =>
    refine .inr ?_
    simp only [State.step]
    split
    · split
      · split
        · rfl
        · rfl
      · rfl
    · rfl
  | upsert offer =>
    refine .inr ?_
    simp only [State.step]
    split
    · cases offer with
      | none => rfl
      | some status => rfl
    · cases offer with
      | none => rfl
      | some status => rfl
  | finishOpen i first accepted =>
    refine .inr ?_
    simp only [State.step]
    split
    · split
      · rfl
      · rfl
    · rfl
  | settle i accepted =>
    refine .inr ?_
    simp only [State.step]
    split
    · rfl
    · rfl
    · rfl
  | sendFrame i | closingPumpEnds i | deliver c | withdraw c | streamEnds c =>
    refine .inr ?_
    simp only [State.step]
    split
    · rfl
    · rfl
  | remove | clientGone | pumpEnds => exact .inr rfl

/-- In every run whose steps keep it, the path is in the state that the entry says, no channel is lost, and it is
given up only for want of offers or of the stream. -/
theorem udp_path_kept (h : Reaches State.step State.Keeps (· = State.new) s) : s.Shaped ∧ ∀ act, s.Keeps act →
    (∀ c, ¬ s.Loses act c) ∧ (s.BecomesUnavailable act → s.AllWithdrawn act ∨ s.StreamEnded act) := by
  have hsound := sound_reached h
  refine ⟨hsound.shaped, fun act hmet => ⟨fun c ⟨hc, hnot, hbefore, hrestored⟩ => ?_, hsound.becomes hmet⟩⟩
  rcases hc with ⟨hlive, hheld⟩ | harrives
  · rcases (step_kept hsound hmet).held c hheld hlive with hheld | hsome
    · exact hnot hheld
    · rcases superseded_step s act with hrestore | hsame
      · exact hrestored ⟨hrestore, hsome⟩
      · exact hbefore (by rwa [← hsame])
  · exact hnot (arrives_held hmet harrives)

def closedCall : List Act := [.upsert (some .delivered), .mediaOpen 7 true, .finishOpen 0 (some 0) true, .mediaClose 7, .settle 1 true]

theorem closedCall_keeps : AllMeet State.step State.Keeps .new closedCall := by
  refine ⟨fun peer h => (nomatch h), trivial, ?_, trivial, ?_, trivial⟩
  · rintro call uuid rxs generation c hcall htask hfirst hmem
    obtain rfl := Option.some.inj hcall
    obtain ⟨rfl, rfl, rfl⟩ := Task.awaiting.inj htask
    obtain rfl := Option.some.inj hfirst
    rintro o ho hne
    exact absurd (List.mem_singleton.mp ho) hne
  · rintro peer tx call session next hpeer hudp hcall htask
    obtain rfl := Option.some.inj hpeer
    refine ⟨rfl, fun j call' session' next' hj _ => ?_⟩
    by_contra hlt
    match j, hlt with
    | 0, hlt => exact hlt (Nat.zero_le 1)
    | 1, hlt => exact hlt le_rfl
    | j + 2, _ => exact nomatch hj

theorem udp_path_kept_closedCall : ((closedCall.foldl State.step .new).Shaped ∧ ∀ act, (closedCall.foldl State.step .new).Keeps act →
    (∀ c, ¬ (closedCall.foldl State.step .new).Loses act c) ∧ ((closedCall.foldl State.step .new).BecomesUnavailable act →
      (closedCall.foldl State.step .new).AllWithdrawn act ∨ (closedCall.foldl State.step .new).StreamEnded act)) ∧
    (closedCall.foldl State.step .new).peer = some ⟨0, .idle 0 0, none, 1, none⟩ :=
  ⟨udp_path_kept (reaches_foldl closedCall_keeps), rfl⟩

/-- A connection's offer takes the place of a channel that is parked; a wait ends with the offer that was withdrawn first, another being
still good; a pump returns to the path of a later call. -/
theorem udp_path_lost :
    (∃ acts : List Act, .remove ∉ acts ∧ ¬ (acts.foldl State.step .new).Shaped) ∧
    (∃ (acts : List Act) (act : Act) (c : Nat), .remove ∉ act :: acts ∧ (acts.foldl State.step .new).Loses act c) ∧
    ∃ (acts : List Act) (act : Act), .remove ∉ act :: acts ∧ (acts.foldl State.step .new).BecomesUnavailable act ∧
      ¬ (acts.foldl State.step .new).AllWithdrawn act ∧ ¬ (acts.foldl State.step .new).StreamEnded act := by
  refine ⟨⟨[.upsert (some .delivered), .mediaOpen 7 true, .finishOpen 0 (some 0) true, .mediaClose 7, .upsert (some .delivered),
      .mediaOpen 7 true, .finishOpen 2 (some 1) true, .settle 1 true], by decide, fun h => ?_⟩,
    ⟨closedCall, .upsert (some .offered), 0, by decide, ?_, ?_, List.not_mem_nil, fun h => (nomatch h.1)⟩,
    ⟨[.upsert (some .offered), .upsert (some .offered), .mediaOpen 7 true, .withdraw 0], .finishOpen 0 (some 0) true, by decide, ?_,
      ?_, ?_⟩⟩
  · obtain ⟨tx, htx⟩ := (h _ rfl).1 nofun
    exact nomatch htx
  · exact .inl ⟨rfl, .inl ⟨_, rfl, List.mem_singleton_self 0⟩⟩
  · rintro (⟨p, hp, hc⟩ | ⟨i, call, hi, -⟩)
    · obtain rfl := Option.some.inj hp
      exact absurd (List.mem_singleton.mp hc) (by decide)
    · match i with
      | 0 => exact nomatch hi
      | 1 => exact nomatch hi
      | i + 2 => exact nomatch hi
  · exact ⟨_, _, rfl, nofun, rfl, rfl⟩
  · rintro ⟨i, first, accepted, call, uuid, rxs, generation, hact, hi, htask, hall⟩
    obtain ⟨rfl, -, -⟩ := Act.finishOpen.inj hact
    obtain rfl := Option.some.inj hi
    obtain ⟨-, rfl, -⟩ := Task.awaiting.inj htask
    exact nomatch hall 1 (by decide)
  · rintro ⟨i, accepted, call, session, next, hact, -⟩
    exact nomatch hact

end CitadelAgent.Media
