import CitadelAgent.Media.Resource

/-!
# What each handler does with the receive halves
-/

namespace CitadelAgent.Media
open Function Machine

variable {s t : State}

/-! ## The handlers -/

theorem none_or_peer (s : State) : s.peer = none ∨ ∃ peer, s.peer = some peer := by
  cases s.peer with
  | none => exact .inl rfl
  | some peer => exact .inr ⟨peer, rfl⟩

variable {peer : PeerConnection} {session : PeerMediaSession} {first : Option Nat} {rxs : List Nat} {call : Call}
  {generation i : Nat} {uuid : Uuid} {accepted : Bool}

theorem step_mediaOpen (hpeer : s.peer = some peer) (uuid : Uuid) (accepted : Bool) :
    s.step (.mediaOpen uuid accepted) =
      (s.withPeer fun _ => (openPath peer uuid accepted s.sessions).1).spawn peer.entry (openPath peer uuid accepted s.sessions).2 := by
  simp only [State.step, hpeer]

theorem step_mediaOpen_none (hnone : s.peer = none) (uuid : Uuid) (accepted : Bool) : s.step (.mediaOpen uuid accepted) = s := by
  simp only [State.step, hnone]

theorem startSession_spec (hmedia : peer.media = none) (tx rx : Nat) (owner : Uuid) (accepted : Bool) (number : Nat) :
    (startSession peer tx rx owner accepted number).halves = [rx] ∧
      (∀ session, (startSession peer tx rx owner accepted number).media = some session → session.pump = .running) ∧
      ∀ gone calls, Quiet gone calls → Phase gone calls (startSession peer tx rx owner accepted number) := by
  cases accepted with
  | true => exact ⟨rfl, fun session h => by rw [← Option.some.inj h], fun _ _ hquiet => .call _ tx rfl rfl hquiet⟩
  | false =>
    have hstart : startSession peer tx rx owner false number = { peer with udp := .idle tx rx } := rfl
    rw [hstart]
    refine ⟨halves_eq { peer with udp := .idle tx rx } rfl hmedia, fun session h => ?_, fun _ _ hquiet => ?_⟩
    · exact nomatch hmedia.symm.trans h
    · exact .rest hmedia (.inr (.inl ⟨tx, rx, rfl⟩)) hquiet

inductive OpenFinds (peer : PeerConnection) (uuid : Uuid) (accepted : Bool) (number : Nat) : PeerConnection × Option Task → Prop
  | same : OpenFinds peer uuid accepted number (peer, none)
  | stale (session : PeerMediaSession) (hmedia : peer.media = some session) (hnot : ¬ (session.pumpAlive ∧ session.owner = uuid)) :
    OpenFinds peer uuid accepted number ({ peer with mediaGeneration := peer.mediaGeneration + 1, media := none },
      some (.closing session (.rebuild uuid (peer.mediaGeneration + 1))))
  | idle (tx rx : Nat) (hmedia : peer.media = none) (hudp : peer.udp = .idle tx rx) :
    OpenFinds peer uuid accepted number (startSession peer tx rx uuid accepted number, none)
  | pending (rxs : List Nat) (hmedia : peer.media = none) (hudp : peer.udp = .pending rxs) :
    OpenFinds peer uuid accepted number
      ({ peer with udp := .opening, mediaPendingOwner := some uuid }, some (.awaiting uuid rxs peer.mediaGeneration))

theorem openPath_finds (peer : PeerConnection) (uuid : Uuid) (accepted : Bool) (number : Nat) :
    OpenFinds peer uuid accepted number (openPath peer uuid accepted number) := by
  rw [openPath]
  split
  case h_1 session hmedia =>
    split
    case isTrue => exact .same
    case isFalse hnot => exact .stale session hmedia (by simpa using hnot)
  case h_2 hmedia =>
    split
    case h_1 rxs hudp => exact .pending rxs hmedia hudp
    case h_2 tx rx hudp => exact .idle tx rx hmedia hudp
    all_goals exact .same

theorem Sound.live (h : Sound s) (hpeer : s.peer = some peer)
    (hmedia : peer.media = some session) : ∃ tx, peer.udp = .lent tx ∧ Quiet s.gone s.calls := by
  cases h.phase peer hpeer with
  | call _ tx _ hudp hquiet => exact ⟨tx, hudp, hquiet⟩
  | opening _ _ _ _ hnone | closing _ _ _ _ hnone | rest hnone => exact nomatch hnone.symm.trans hmedia

theorem Sound.quiet (h : Sound s) (hpeer : s.peer = some peer) (hopening : peer.udp ≠ .opening)
    (hlent : ∀ tx, peer.udp ≠ .lent tx) : Quiet s.gone s.calls := by
  cases h.phase peer hpeer with
  | call _ tx _ hudp => exact absurd hudp (hlent tx)
  | opening _ _ _ _ _ hudp => exact absurd hudp hopening
  | closing _ _ _ tx _ hudp => exact absurd hudp (hlent tx)
  | rest _ _ hquiet => exact hquiet

theorem mediaOpen_kept (h : Sound s) (uuid : Uuid) (accepted : Bool) : Kept s (s.step (.mediaOpen uuid accepted)) := by
  rcases none_or_peer s with hnone | ⟨peer, hpeer⟩
  · rw [step_mediaOpen_none hnone]
    exact h.kept
  rw [step_mediaOpen hpeer]
  have hfinds := openPath_finds peer uuid accepted s.sessions
  generalize openPath peer uuid accepted s.sessions = result at hfinds ⊢
  cases hfinds with
  | same =>
    exact h.kept_peer hpeer (fun c hc => hc) (fun c hc _ => hc) (fun session hsession => .inl hsession) (h.phase peer hpeer)
  | stale session hmedia hnot =>
    obtain ⟨tx, hudp, hquiet⟩ := h.live hpeer hmedia
    have hafter : ({ peer with mediaGeneration := peer.mediaGeneration + 1, media := none } : PeerConnection).halves = [] :=
      halves_eq { peer with mediaGeneration := peer.mediaGeneration + 1, media := none } hudp rfl
    refine h.kept_spawn hpeer (fun c hc => ?_) (fun c hc _ => ?_) (fun session' hsession => ?_) _
      (.closing _ session _ tx rfl hudp (hquiet.spawn h.bound ..))
    · rw [halves_eq peer hudp hmedia]
      exact hc.resolve_left (by rw [hafter]; exact List.not_mem_nil)
    · rw [halves_eq peer hudp hmedia] at hc
      exact .inr hc
    · rcases hsession with hsession | ⟨next, htask⟩
      · exact nomatch hsession
      · rw [hmedia, (Task.closing.inj htask).1]
  | idle tx rx hmedia hudp =>
    have hquiet := h.quiet hpeer (by simp [hudp]) (by simp [hudp])
    obtain ⟨hhalves, hrunning, hphase⟩ := startSession_spec hmedia tx rx uuid accepted s.sessions
    have hbefore : peer.halves = [rx] := halves_eq peer hudp hmedia
    refine h.kept_peer hpeer (fun c hc => ?_) (fun c hc _ => ?_) (fun session hsession => .inr (hrunning session hsession))
      (hphase _ _ hquiet)
    · rwa [hbefore, ← hhalves]
    · rwa [hhalves, ← hbefore]
  | pending rxs hmedia hudp =>
    have hquiet := h.quiet hpeer (by simp [hudp]) (by simp [hudp])
    have hafter : ({ peer with udp := .opening, mediaPendingOwner := some uuid } : PeerConnection).halves = [] :=
      halves_eq { peer with udp := .opening, mediaPendingOwner := some uuid } rfl hmedia
    have hbefore : peer.halves = rxs := by
      rw [halves_eq peer hudp hmedia]
      exact List.append_nil rxs
    refine h.kept_spawn hpeer (fun c hc => ?_) (fun c hc _ => ?_) (fun session hsession => ?_) _
      (.opening _ uuid rxs _ hmedia rfl (hquiet.spawn h.bound ..))
    · rw [hbefore]
      exact hc.resolve_left (by rw [hafter]; exact List.not_mem_nil)
    · rw [hbefore] at hc
      exact .inr hc
    · rcases hsession with hsession | ⟨next, htask⟩
      · exact nomatch hmedia.symm.trans hsession
      · exact nomatch htask

def ChannelOutcome.halves (rxs : List Nat) : ChannelOutcome → List Nat
  | .channel c => [c]
  | .withdrawn => []
  | .elapsed => rxs

def ChannelOutcome.parked (rxs : List Nat) : ChannelOutcome → UdpState
  | .channel c => .idle c c
  | .withdrawn => .unavailable
  | .elapsed => .pending rxs

theorem finishFirstOpen_cases (hudp : peer.udp = .opening) (uuid : Uuid) (rxs : List Nat) (outcome : ChannelOutcome)
    (generation : Nat) (accepted : Bool) (number : Nat) :
    ∃ pending, (∀ owner, pending = some owner → peer.mediaPendingOwner = some owner ∧ owner ≠ uuid) ∧
      (finishFirstOpen peer uuid rxs outcome generation accepted number =
          { peer with mediaPendingOwner := pending, udp := outcome.parked rxs } ∨
        peer.mediaGeneration = generation ∧ ∃ c, outcome = .channel c ∧
          finishFirstOpen peer uuid rxs outcome generation accepted number =
            startSession { peer with mediaPendingOwner := pending } c c uuid accepted number) := by
  refine ⟨if peer.mediaPendingOwner = some uuid then none else peer.mediaPendingOwner, fun owner howner => ?_, ?_⟩
  · split at howner
    case isTrue => exact nomatch howner
    case isFalse hnot => exact ⟨howner, fun hsame => hnot (hsame ▸ howner)⟩
  have hbase : (if peer.mediaPendingOwner = some uuid then { peer with mediaPendingOwner := none } else peer) =
      { peer with mediaPendingOwner := if peer.mediaPendingOwner = some uuid then none else peer.mediaPendingOwner } := by
    split
    · rfl
    · rfl
  unfold finishFirstOpen
  dsimp only
  rw [hbase]
  simp only [hudp, ne_eq, not_true_eq_false, or_false, if_true]
  by_cases hgeneration : peer.mediaGeneration = generation
  · rw [if_neg (not_not.mpr hgeneration)]
    cases outcome with
    | channel c => exact .inr ⟨hgeneration, c, rfl, rfl⟩
    | withdrawn | elapsed => exact .inl rfl
  · rw [if_pos hgeneration]
    exact .inl (by cases outcome <;> rfl)

theorem finishFirstOpen_spec (hmedia : peer.media = none) (hudp : peer.udp = .opening) (uuid : Uuid) (rxs : List Nat)
    (outcome : ChannelOutcome) (generation : Nat) (accepted : Bool) (number : Nat) :
    (finishFirstOpen peer uuid rxs outcome generation accepted number).halves = outcome.halves rxs ∧
      (∀ session, (finishFirstOpen peer uuid rxs outcome generation accepted number).media = some session → session.pump = .running) ∧
      ((finishFirstOpen peer uuid rxs outcome generation accepted number).udp = .unavailable → outcome = .withdrawn) ∧
      ∀ gone calls, Quiet gone calls → Phase gone calls (finishFirstOpen peer uuid rxs outcome generation accepted number) := by
  obtain ⟨pending, -, hfinish | ⟨-, c, rfl, hfinish⟩⟩ := finishFirstOpen_cases hudp uuid rxs outcome generation accepted number
  · rw [hfinish]
    have hhalves := halves_eq { peer with mediaPendingOwner := pending, udp := outcome.parked rxs } rfl hmedia
    refine ⟨hhalves.trans ((List.append_nil _).trans ?_), fun session h => (nomatch hmedia.symm.trans h), ?_,
      fun _ _ hquiet => .rest hmedia ?_ hquiet⟩
    · cases outcome <;> rfl
    · cases outcome <;> simp [ChannelOutcome.parked]
    · cases outcome <;> simp [ChannelOutcome.parked]
  · rw [hfinish]
    obtain ⟨hhalves, hrunning, hphase⟩ :=
      @startSession_spec { peer with mediaPendingOwner := pending } hmedia c c uuid accepted number
    refine ⟨hhalves, hrunning, fun h => ?_, hphase⟩
    cases accepted with
    | true | false => exact nomatch h

theorem State.outcome_withdrawn (h : s.outcome first = .withdrawn) : ∃ c, first = some c ∧ s.status c = .withdrawn := by
  cases first with
  | none => exact nomatch h
  | some c =>
    refine ⟨c, rfl, ?_⟩
    by_contra hne
    rw [State.outcome, if_neg hne] at h
    exact nomatch h

theorem outcome_sub (h : s.resolves rxs first) :
    ∀ c ∈ (s.outcome first).halves rxs, c ∈ rxs := by
  intro o ho
  cases first with
  | none => exact ho
  | some c =>
    simp only [State.resolves, Bool.and_eq_true, decide_eq_true_eq] at h
    by_cases hwithdrawn : s.status c = .withdrawn
    · rw [State.outcome, if_pos hwithdrawn] at ho
      exact absurd ho List.not_mem_nil
    · rw [State.outcome, if_neg hwithdrawn] at ho
      rw [List.mem_singleton.mp ho]
      exact h.1

theorem step_finishOpen (hi : s.calls i = some call) (htask : call.task = .awaiting uuid rxs generation)
    (hresolves : s.resolves rxs first) (accepted : Bool) :
    s.step (.finishOpen i first accepted) =
      (s.finish i).withPeer fun peer => finishFirstOpen peer uuid rxs (s.outcome first) generation accepted s.sessions := by
  obtain ⟨entry, cancelled, task⟩ := call
  obtain rfl : task = _ := htask
  simp only [State.step, hi, if_pos hresolves]

theorem finishOpen_cases (s : State) (i : Nat) (first : Option Nat) (accepted : Bool) :
    s.step (.finishOpen i first accepted) = s ∨ ∃ call uuid rxs generation, s.calls i = some call ∧
      call.task = .awaiting uuid rxs generation ∧ s.resolves rxs first := by
  simp only [State.step]
  split
  case h_1 entry cancelled uuid rxs generation hi =>
    by_cases hresolves : s.resolves rxs first
    · exact .inr ⟨_, uuid, rxs, generation, hi, rfl, hresolves⟩
    · exact .inl (if_neg hresolves)
  case h_2 => exact .inl rfl

theorem Sound.awaiting (h : Sound s) (hi : s.calls i = some call) (htask : call.task = .awaiting uuid rxs generation) :
    ∃ peer, s.peer = some peer ∧ peer.media = none ∧ peer.udp = .opening ∧ Only s.gone s.calls i call.task := by
  have hbusy : call.task.busy := by
    rw [htask]
    trivial
  have hstray : ¬ call.task.stray s.gone := by
    rintro ⟨session, next, hclosing, -⟩
    exact nomatch htask.symm.trans hclosing
  rcases none_or_peer s with hnone | ⟨peer, hpeer⟩
  · exact nomatch (h.idle hnone i).symm.trans hi
  refine ⟨peer, hpeer, ?_⟩
  cases h.phase peer hpeer with
  | call session tx hmedia hudp hquiet => exact absurd (hquiet i call hi hbusy) hstray
  | opening j uuid' rxs' generation' hmedia hudp honly =>
    have hij : i = j := (honly.only i call hi hbusy).resolve_right fun hsome => hstray hsome.2
    subst hij
    obtain ⟨call', hi', htask'⟩ := honly.at_
    rw [← Option.mem_unique hi hi'] at htask'
    rw [htask']
    exact ⟨hmedia, hudp, honly⟩
  | closing j session next tx hmedia hudp honly =>
    have hij : i = j := (honly.only i call hi hbusy).resolve_right fun hsome => hstray hsome.2
    subst hij
    obtain ⟨call', hi', htask'⟩ := honly.at_
    rw [← Option.mem_unique hi hi', htask] at htask'
    exact nomatch htask'
  | rest hmedia hudp hquiet => exact absurd (hquiet i call hi hbusy) hstray

theorem finishOpen_kept (h : Sound s) (hmet : s.Keeps (.finishOpen i first accepted)) :
    Kept s (s.step (.finishOpen i first accepted)) := by
  rcases finishOpen_cases s i first accepted with hsame | ⟨call, uuid, rxs, generation, hi, htask, hresolves⟩
  · rw [hsame]
    exact h.kept
  rw [step_finishOpen hi htask hresolves]
  obtain ⟨peer, hpeer, hmedia, hudp, honly⟩ := h.awaiting hi htask
  obtain ⟨hhalves, hrunning, -, hphase⟩ :=
    finishFirstOpen_spec hmedia hudp uuid rxs (s.outcome first) generation accepted s.sessions
  have hbefore : peer.halves = [] := halves_eq peer hudp hmedia
  refine h.kept_finish hpeer hi (fun c hc => ?_) (fun c hc hlive => ?_) (fun session hsession => .inr (hrunning session hsession))
    (hphase _ _ honly.finish)
  · rw [hhalves] at hc
    rw [htask]
    exact .inr (outcome_sub hresolves c hc)
  · rw [hbefore, htask] at hc
    rw [hhalves]
    replace hc : c ∈ rxs := hc.resolve_left List.not_mem_nil
    cases first with
    | none => exact .inl hc
    | some o =>
      have hmem : o ∈ rxs := by
        simp only [State.resolves, Bool.and_eq_true, decide_eq_true_eq] at hresolves
        exact hresolves.1
      have hall := hmet call uuid rxs generation o hi htask rfl hmem
      cases ho : s.status o with
      | offered => simp only [State.resolves, ho, ne_eq, not_true_eq_false, decide_false, Bool.and_false, Bool.false_eq_true] at hresolves
      | withdrawn =>
        rw [ho] at hall
        exact nomatch (hall c hc).symm.trans hlive
      | delivered =>
        rw [ho] at hall
        rw [State.outcome, if_neg (by rw [ho]; decide)]
        by_cases hco : c = o
        · exact .inl (List.mem_singleton.mpr hco)
        · exact absurd hlive (hall c hc hco)
      | ended =>
        rw [ho] at hall
        rw [State.outcome, if_neg (by rw [ho]; decide)]
        by_cases hco : c = o
        · exact .inl (List.mem_singleton.mpr hco)
        · exact absurd hlive (hall c hc hco)

def After.settle (next : After) (peer : PeerConnection) (recovered : Option Nat) (accepted : Bool) (number : Nat) : PeerConnection :=
  match next with
  | .park => parkRecovered peer recovered
  | .rebuild uuid generation => rebuildAfterStale peer uuid recovered generation accepted number

variable {next : After} {tx : Nat}

theorem step_settle (hi : s.calls i = some call) (htask : call.task = .closing session next) (accepted : Bool) :
    s.step (.settle i accepted) = (s.finish i).withPeer fun peer => next.settle peer session.recovered accepted s.sessions := by
  obtain ⟨entry, cancelled, task⟩ := call
  obtain rfl : task = _ := htask
  cases next with
  | park => simp only [State.step, hi, After.settle]
  | rebuild uuid generation => simp only [State.step, hi, After.settle]

theorem settle_cases (s : State) (i : Nat) (accepted : Bool) :
    s.step (.settle i accepted) = s ∨ ∃ call session next, s.calls i = some call ∧ call.task = .closing session next := by
  simp only [State.step]
  split
  case h_1 entry cancelled session hi => exact .inr ⟨_, session, .park, hi, rfl⟩
  case h_2 entry cancelled session uuid generation hi => exact .inr ⟨_, session, .rebuild uuid generation, hi, rfl⟩
  case h_3 => exact .inl rfl

theorem settle_other (hudp : ∀ tx, peer.udp ≠ .lent tx) (next : After) (recovered : Option Nat) (accepted : Bool)
    (number : Nat) : next.settle peer recovered accepted number = peer := by
  have hpark : parkRecovered peer recovered = peer := by
    rw [parkRecovered]
    split
    case h_1 tx hlent => exact absurd hlent (hudp tx)
    case h_2 => rfl
  cases next with
  | park => exact hpark
  | rebuild uuid generation =>
    rw [After.settle, rebuildAfterStale, hpark, ite_self]
    · exact fun _ tx _ hlent => hudp tx hlent
    · exact fun tx _ hlent => hudp tx hlent

theorem settle_lent (hudp : peer.udp = .lent tx) (next : After) (recovered : Option Nat) (accepted : Bool) (number : Nat) :
    next.settle peer recovered accepted number = { peer with udp := recovered.elim .unavailable (.idle tx) } ∨
      ∃ uuid rx, next = .rebuild uuid peer.mediaGeneration ∧ peer.media = none ∧ recovered = some rx ∧
        next.settle peer recovered accepted number = startSession peer tx rx uuid accepted number := by
  have hpark : parkRecovered peer recovered = { peer with udp := recovered.elim .unavailable (.idle tx) } := by
    simp only [parkRecovered, hudp]
    cases recovered with
    | none | some rx => rfl
  cases next with
  | park => exact .inl hpark
  | rebuild uuid generation =>
    simp only [After.settle, rebuildAfterStale, hpark]
    by_cases hcommit : openMayCommit generation peer.mediaGeneration peer.media.isSome
    · simp only [if_pos hcommit, hudp]
      cases recovered with
      | none => exact .inl rfl
      | some rx =>
        simp only [openMayCommit, Bool.and_eq_true, decide_eq_true_eq, Bool.not_eq_true', Option.isSome_eq_false_iff,
          Option.isNone_iff_eq_none] at hcommit
        exact .inr ⟨uuid, rx, by rw [hcommit.1], hcommit.2, rfl, rfl⟩
    · rw [if_neg hcommit]
      exact .inl rfl

theorem settle_recovered (hmedia : peer.media = none) (hudp : peer.udp = .lent tx) (next : After) (rx : Nat) (accepted : Bool)
    (number : Nat) :
    (next.settle peer (some rx) accepted number).halves = [rx] ∧
      (∀ session, (next.settle peer (some rx) accepted number).media = some session → session.pump = .running) ∧
      (next.settle peer (some rx) accepted number).udp ≠ .unavailable ∧
      ∀ gone calls, Quiet gone calls → Phase gone calls (next.settle peer (some rx) accepted number) := by
  rcases settle_lent hudp next (some rx) accepted number with hpark | ⟨uuid, _, -, -, hrx, hstart⟩
  · rw [hpark]
    refine ⟨halves_eq { peer with udp := .idle tx rx } rfl hmedia, fun session h => ?_, nofun, fun _ _ hquiet => ?_⟩
    · exact nomatch hmedia.symm.trans h
    · exact .rest hmedia (.inr (.inl ⟨tx, rx, rfl⟩)) hquiet
  · obtain rfl := Option.some.inj hrx
    rw [hstart]
    obtain ⟨hhalves, hrunning, hphase⟩ := startSession_spec hmedia tx rx uuid accepted number
    refine ⟨hhalves, hrunning, fun h => ?_, hphase⟩
    cases accepted with
    | true | false => exact nomatch h

theorem settle_ended (hudp : peer.udp = .lent tx) (next : After) (accepted : Bool) (number : Nat) :
    next.settle peer none accepted number = { peer with udp := .unavailable } :=
  (settle_lent hudp next none accepted number).resolve_right fun ⟨_, _, _, _, hrx, _⟩ => nomatch hrx

theorem lent_or_not (udp : UdpState) : (∃ tx, udp = .lent tx) ∨ ∀ tx, udp ≠ .lent tx := by
  cases udp with
  | lent tx => exact .inl ⟨tx, rfl⟩
  | _ => exact .inr fun tx h => nomatch h

theorem Sound.settling (h : Sound s) (hmet : s.Keeps (.settle i accepted)) (hpeer : s.peer = some peer)
    (hudp : peer.udp = .lent tx) (hi : s.calls i = some call) (htask : call.task = .closing session next) :
    peer.media = none ∧ Only s.gone s.calls i call.task := by
  obtain ⟨hmedia, hlast⟩ := hmet peer tx call session next hpeer hudp hi htask
  refine ⟨hmedia, ?_⟩
  cases h.phase peer hpeer with
  | call session' tx' hmedia' hudp' hquiet => exact nomatch hmedia.symm.trans hmedia'
  | opening j uuid rxs generation hmedia' hudp' honly => exact nomatch hudp.symm.trans hudp'
  | closing j session' next' tx' hmedia' hudp' honly =>
    obtain ⟨call', hj, htask'⟩ := honly.at_
    have hle := hlast j call' session' next' hj htask'
    have hbusy : call.task.busy := by
      rw [htask]
      trivial
    have hij : i = j := (honly.only i call hi hbusy).resolve_right fun hlt => by omega
    subst hij
    rw [Option.mem_unique hi hj, htask']
    exact honly
  | rest hmedia' hudp' hquiet =>
    rcases hudp' with hudp' | ⟨_, _, hudp'⟩ | ⟨_, hudp'⟩
    · exact nomatch hudp.symm.trans hudp'
    · exact nomatch hudp.symm.trans hudp'
    · exact nomatch hudp.symm.trans hudp'

theorem Sound.stray (h : Sound s) (hpeer : s.peer = some peer) (hudp : ∀ tx, peer.udp ≠ .lent tx) (hi : s.calls i = some call)
    (htask : call.task = .closing session next) :
    call.task.stray s.gone := by
  have hbusy : call.task.busy := by
    rw [htask]
    trivial
  cases h.phase peer hpeer with
  | call session' tx hmedia hlent hquiet => exact absurd hlent (hudp tx)
  | opening j uuid rxs generation hmedia hopening honly =>
    rcases honly.only i call hi hbusy with rfl | ⟨-, hstray⟩
    · obtain ⟨call', hi', htask'⟩ := honly.at_
      rw [← Option.mem_unique hi hi', htask] at htask'
      exact nomatch htask'
    · exact hstray
  | closing j session' next' tx hmedia hlent honly => exact absurd hlent (hudp tx)
  | rest hmedia hrest hquiet => exact hquiet i call hi hbusy

theorem recovered_cases (session : PeerMediaSession) :
    (session.recovered = none ∧ session.pump = .ended) ∨ session.recovered = some session.rx := by
  rw [PeerMediaSession.recovered]
  by_cases hended : session.pump = .ended
  · exact .inl ⟨if_pos hended, hended⟩
  · exact .inr (if_neg hended)

theorem settle_kept (h : Sound s) (hmet : s.Keeps (.settle i accepted)) :
    Kept s (s.step (.settle i accepted)) := by
  rcases settle_cases s i accepted with hsame | ⟨call, session, next, hi, htask⟩
  · rw [hsame]
    exact h.kept
  rw [step_settle hi htask]
  rcases none_or_peer s with hnone | ⟨peer, hpeer⟩
  · exact nomatch (h.idle hnone i).symm.trans hi
  have hrx : call.task.halves = [session.rx] := by rw [htask]; rfl
  rcases lent_or_not peer.udp with ⟨tx, hudp⟩ | hudp
  · obtain ⟨hmedia, honly⟩ := h.settling hmet hpeer hudp hi htask
    have hbefore : peer.halves = [] := halves_eq peer hudp hmedia
    rcases recovered_cases session with ⟨hrecovered, hended⟩ | hrecovered
    · -- the stream ended
      have hstatus : s.status session.rx = .ended := h.pumps session (.inr ⟨i, call, next, hi, htask⟩) hended
      have hafter : (next.settle peer session.recovered accepted s.sessions) = { peer with udp := .unavailable } := by
        rw [hrecovered]
        exact settle_ended hudp next accepted _
      have hhalves : (next.settle peer session.recovered accepted s.sessions).halves = [] := by
        rw [hafter]
        exact halves_eq { peer with udp := .unavailable } rfl hmedia
      refine h.kept_finish hpeer hi (fun c hc => ?_) (fun c hc hlive => ?_) (fun session' hsession => ?_) ?_
      · rw [hhalves] at hc
        exact absurd hc List.not_mem_nil
      · rw [hbefore, hrx] at hc
        rw [List.mem_singleton.mp (hc.resolve_left List.not_mem_nil), hstatus] at hlive
        exact nomatch hlive
      · rw [hafter] at hsession
        exact nomatch hmedia.symm.trans hsession
      · rw [hafter]
        exact .rest hmedia (.inl rfl) honly.finish
    · have hspec := settle_recovered hmedia hudp next session.rx accepted s.sessions
      rw [← hrecovered] at hspec
      obtain ⟨hhalves, hrunning, -, hphase⟩ := hspec
      refine h.kept_finish hpeer hi (fun c hc => ?_) (fun c hc _ => ?_) (fun session' hsession => .inr (hrunning session' hsession))
        (hphase _ _ honly.finish)
      · rw [hhalves] at hc
        rw [hrx]
        exact .inr hc
      · rw [hbefore, hrx] at hc
        rw [hhalves]
        exact .inl (hc.resolve_left List.not_mem_nil)
  · have hafter : next.settle peer session.recovered accepted s.sessions = peer := settle_other hudp next _ _ _
    have hstray := h.stray hpeer hudp hi htask
    refine h.kept_finish hpeer hi (fun c hc => ?_) (fun c hc hlive => ?_) (fun session' hsession => ?_) ?_
    · rw [hafter] at hc
      exact .inl hc
    · rw [hafter]
      refine hc.imp_right fun hc => ?_
      obtain ⟨session', next', htask', hgone⟩ := hstray
      rw [htask'] at hc
      rw [List.mem_singleton.mp hc] at hlive ⊢
      exact hgone.resolve_right fun hended => nomatch hended.symm.trans hlive
    · rw [hafter] at hsession
      exact .inl hsession
    · rw [hafter]
      refine (h.phase peer hpeer).finish fun call' hi' => .inr ⟨?_, hudp⟩
      rw [← Option.mem_unique hi hi']
      exact hstray

/-! ## Handlers that are marked, and their pumps -/

theorem pumpEnds_rx (session : PeerMediaSession) (status : Nat → Status) : (session.pumpEnds status).rx = session.rx := by
  rw [PeerMediaSession.pumpEnds]
  split
  · rfl
  · rfl

theorem pumpEnds_ended {status : Nat → Status} (h : (session.pumpEnds status).pump = .ended) :
    session.pump = .ended ∨ status session.rx = .ended := by
  rw [PeerMediaSession.pumpEnds] at h
  split at h
  case isTrue hboth => exact .inr hboth.2
  case isFalse => exact .inl h

/-- The handler awaits the same, but that its session's pump may have found the stream ended. -/
def Task.Follows (status : Nat → Status) (before after : Task) : Prop :=
  after = before ∨ ∃ session next, before = .closing session next ∧ after = .closing (session.pumpEnds status) next

section
variable {status : Nat → Status} {gone : Nat → Prop} {before after : Task}

theorem Task.Follows.halves (h : before.Follows status after) : after.halves = before.halves := by
  rcases h with rfl | ⟨session, next, rfl, rfl⟩
  · rfl
  · show [_] = [_]
    rw [pumpEnds_rx]

theorem Task.Follows.busy (h : before.Follows status after) (hbusy : after.busy) : before.busy := by
  rcases h with rfl | ⟨session, next, rfl, rfl⟩
  · exact hbusy
  · trivial

theorem Task.Follows.stray (h : before.Follows status after) (hstray : before.stray gone) : after.stray gone := by
  rcases h with rfl | ⟨session, next, rfl, rfl⟩
  · exact hstray
  · obtain ⟨session', next', htask, hgone⟩ := hstray
    obtain ⟨rfl, rfl⟩ := Task.closing.inj htask
    exact ⟨_, _, rfl, by rwa [pumpEnds_rx]⟩

theorem Task.Follows.awaiting (h : (Task.awaiting uuid rxs generation).Follows status after) : after = .awaiting uuid rxs generation := by
  rcases h with rfl | ⟨session, next, htask, -⟩
  · rfl
  · exact nomatch htask

theorem Task.Follows.closing (h : (Task.closing session next).Follows status after) :
    ∃ session', after = .closing session' next := by
  rcases h with rfl | ⟨session', next', htask, rfl⟩
  · exact ⟨session, rfl⟩
  · obtain ⟨rfl, rfl⟩ := Task.closing.inj htask
    exact ⟨_, rfl⟩

end

structure Relabels (s : State) (calls : Nat → Option Call) : Prop where
  forth : ∀ i a, s.calls i = some a → ∃ b, calls i = some b ∧ a.task.Follows s.status b.task
  back : ∀ i b, calls i = some b → ∃ a, s.calls i = some a ∧ a.task.Follows s.status b.task

section
variable {gone : Nat → Prop} {calls : Nat → Option Call} {i : Nat}

theorem Relabels.quiet (h : Relabels s calls) (hquiet : Quiet gone s.calls) : Quiet gone calls := by
  intro j b hj hbusy
  obtain ⟨a, ha, hfollows⟩ := h.back j b hj
  exact hfollows.stray (hquiet j a ha (hfollows.busy hbusy))

theorem Relabels.only (h : Relabels s calls) {task task' : Task} (honly : Only gone s.calls i task)
    (hat : ∃ call, calls i = some call ∧ call.task = task') : Only gone calls i task' := by
  refine ⟨hat, fun j b hj hbusy => ?_⟩
  obtain ⟨a, ha, hfollows⟩ := h.back j b hj
  exact (honly.only j a ha (hfollows.busy hbusy)).imp_right fun ⟨hlt, hstray⟩ => ⟨hlt, hfollows.stray hstray⟩

theorem Relabels.phase (h : Relabels s calls) (hphase : Phase gone s.calls peer) : Phase gone calls peer := by
  cases hphase with
  | call session tx hmedia hudp hquiet => exact .call session tx hmedia hudp (h.quiet hquiet)
  | opening i uuid rxs generation hmedia hudp honly =>
    obtain ⟨a, ha, htask⟩ := honly.at_
    obtain ⟨b, hb, hfollows⟩ := h.forth i a ha
    rw [htask] at hfollows
    exact .opening i uuid rxs generation hmedia hudp (h.only honly ⟨b, hb, hfollows.awaiting⟩)
  | closing i session next tx hmedia hudp honly =>
    obtain ⟨a, ha, htask⟩ := honly.at_
    obtain ⟨b, hb, hfollows⟩ := h.forth i a ha
    rw [htask] at hfollows
    obtain ⟨session', hb'⟩ := hfollows.closing
    exact .closing i session' next tx hmedia hudp (h.only honly ⟨b, hb, hb'⟩)
  | rest hmedia hudp hquiet => exact .rest hmedia hudp (h.quiet hquiet)

theorem Relabels.held (h : Relabels s calls) (peer : Option PeerConnection) (c : Nat) : Held peer calls c ↔ Held peer s.calls c := by
  constructor
  · rintro (hpeer | ⟨i, b, hi, hc⟩)
    · exact .inl hpeer
    · obtain ⟨a, ha, hfollows⟩ := h.back i b hi
      exact .inr ⟨i, a, ha, by rwa [← hfollows.halves]⟩
  · rintro (hpeer | ⟨i, a, hi, hc⟩)
    · exact .inl hpeer
    · obtain ⟨b, hb, hfollows⟩ := h.forth i a hi
      exact .inr ⟨i, b, hb, by rwa [hfollows.halves]⟩

theorem Sound.kept_calls (h : Sound s) (hcalls : Relabels s calls) : Kept s { s with calls := calls } := by
  have hnone (i : Nat) (hi : s.calls i = none) : calls i = none := by
    cases hi' : calls i with
    | none => rfl
    | some b =>
      obtain ⟨a, ha, -⟩ := hcalls.back i b hi'
      exact nomatch hi.symm.trans ha
  constructor
  · constructor
    · exact fun i hi => hnone i (h.bound i hi)
    · exact fun c hc => h.below c ((hcalls.held s.peer c).mp hc)
    · exact h.fresh
    · intro session huse hended
      rcases huse with hpeer | ⟨i, b, next, hi, htask⟩
      · exact h.pumps session (.inl hpeer) hended
      · obtain ⟨a, ha, hsame | ⟨session', next', hbefore, hafter⟩⟩ := hcalls.back i b hi
        · exact h.pumps session (.inr ⟨i, a, next, ha, hsame.symm.trans htask⟩) hended
        · obtain ⟨rfl, rfl⟩ := Task.closing.inj (hafter.symm.trans htask)
          rw [pumpEnds_rx]
          rcases pumpEnds_ended hended with hended | hended
          · exact h.pumps session' (.inr ⟨i, a, next', ha, hbefore⟩) hended
          · exact hended
    · exact fun peer hpeer => hcalls.phase (h.phase peer hpeer)
    · exact fun hpeer i => hnone i (h.idle hpeer i)
  · exact fun c hc _ => .inl ((hcalls.held s.peer c).mpr hc)

end

theorem cancelledBy_task (uuid : Uuid) (call : Call) : (call.cancelledBy uuid).task = call.task := by
  rw [Call.cancelledBy]
  split
  · rfl
  · rfl

theorem relabels_cancelledBy (s : State) (uuid : Uuid) : Relabels s fun i => (s.calls i).map (Call.cancelledBy uuid) := by
  constructor
  · intro i a ha
    refine ⟨a.cancelledBy uuid, ?_, .inl (cancelledBy_task uuid a)⟩
    show (s.calls i).map _ = _
    rw [ha]
    rfl
  · intro i b hb
    obtain ⟨a, ha, rfl⟩ := Option.map_eq_some_iff.mp hb
    exact ⟨a, ha, .inl (cancelledBy_task uuid a)⟩

theorem closingPumpEnds_kept (h : Sound s) (i : Nat) : Kept s (s.step (.closingPumpEnds i)) := by
  simp only [State.step]
  split
  case h_1 entry cancelled session next hi =>
    refine h.kept_calls ⟨fun j a ha => ?_, fun j b hb => ?_⟩
    · by_cases hij : j = i
      · subst hij
        rw [← Option.mem_unique hi ha]
        exact ⟨_, update_self .., .inr ⟨session, next, rfl, rfl⟩⟩
      · exact ⟨a, by rw [update_of_ne hij, ha], .inl rfl⟩
    · rcases of_update_some hb with ⟨rfl, rfl⟩ | ⟨-, hb⟩
      · exact ⟨_, hi, .inr ⟨session, next, rfl, rfl⟩⟩
      · exact ⟨b, hb, .inl rfl⟩
  case h_2 => exact h.kept

theorem Kept.same {u : State} (h : Kept s t) (hpeer : u.peer = t.peer) (hcalls : u.calls = t.calls) (hspawned : u.spawned = t.spawned)
    (hchannels : u.channels = t.channels) (hstatus : u.status = t.status) (hsuperseded : u.superseded = t.superseded) : Kept s u := by
  obtain ⟨⟨hbound, hbelow, hfresh, hpumps, hphase, hidle⟩, hheld⟩ := h
  have hgone : u.gone = t.gone := by
    funext c
    rw [State.gone, State.gone, hsuperseded, hstatus]
  constructor
  · constructor
    · rwa [hspawned, hcalls]
    · rwa [hpeer, hcalls, hchannels]
    · rwa [hchannels, hstatus]
    · rwa [hpeer, hcalls, hstatus]
    · rwa [hpeer, hcalls, hgone]
    · rwa [hpeer, hcalls]
  · rwa [hpeer, hcalls, hsuperseded]

theorem Kept.trans {u : State} (h : Kept s t) (h' : Kept t u) (hstatus : t.status = s.status)
    (hsuperseded : ∀ c ∈ t.superseded, c ∈ u.superseded) : Kept s u := by
  refine ⟨h'.sound, fun c hc hlive => ?_⟩
  rcases h.held c hc hlive with hheld | hgone
  · exact h'.held c hheld (by rwa [hstatus])
  · exact .inr (hsuperseded c hgone)

theorem handleClose_spec {after : PeerConnection} {session : Option PeerMediaSession}
    (h : handleClose peer uuid = some (after, session)) :
    session = peer.media ∧
      after = { peer with mediaGeneration := peer.mediaGeneration + 1, mediaPendingOwner := none, media := none } := by
  rw [handleClose] at h
  split at h
  · obtain ⟨rfl, rfl⟩ := Prod.mk.inj (Option.some.inj h)
    exact ⟨rfl, rfl⟩
  · exact nomatch h

theorem mediaClose_kept (h : Sound s) (uuid : Uuid) : Kept s (s.step (.mediaClose uuid)) := by
  have hmarked := h.kept_calls (relabels_cancelledBy s uuid)
  simp only [State.step]
  rcases none_or_peer s with hnone | ⟨peer, hpeer⟩
  · simp only [hnone]
    exact hmarked.same hnone.symm rfl rfl rfl rfl rfl
  simp only [hpeer]
  split
  case h_2 => exact hmarked.same hpeer.symm rfl rfl rfl rfl rfl
  case h_1 after session hclose =>
    obtain ⟨hsession, hafter⟩ := handleClose_spec hclose
    have hm := hmarked.sound
    -- the path stays, and only a session that was there goes
    have hudp : after.udp = peer.udp := by rw [hafter]
    have hnomedia : after.media = none := by rw [hafter]
    have hother (hnone : peer.media = none) : Kept s
        (({ s with calls := fun i => (s.calls i).map (Call.cancelledBy uuid), peer := some after } : State).spawn peer.entry
          (session.map (.closing · .park))) := by
      have hsame : after.halves = peer.halves := by
        rw [halves_eq after hudp hnomedia, halves_eq peer rfl hnone]
      rw [hsession, hnone]
      refine hmarked.trans ((hm.kept_peer hpeer (fun c hc => by rwa [← hsame]) (fun c hc _ => by rwa [hsame]) (fun session' h => ?_)
        ((hm.phase peer hpeer).entry hudp (hnomedia.trans hnone.symm))).same ?_ rfl rfl rfl rfl rfl) rfl fun c hc => hc
      · exact nomatch hnomedia.symm.trans h
      · show some after = s.peer.map _
        rw [hpeer]
        rfl
    cases hm.phase peer hpeer with
    | call live tx hmedia hlent hquiet =>
      have hbefore : peer.halves = [live.rx] := halves_eq peer hlent hmedia
      have hempty : after.halves = [] := halves_eq after (hudp.trans hlent) hnomedia
      rw [hsession, hmedia]
      refine hmarked.trans ((hm.kept_spawn hpeer (fun c hc => ?_) (fun c hc _ => ?_) (fun session' hsession' => ?_) peer.entry
        (.closing _ live .park tx hnomedia (hudp.trans hlent) (hquiet.spawn hm.bound ..))).same ?_ rfl rfl rfl rfl rfl) rfl fun c hc => hc
      · rw [hempty] at hc
        rw [hbefore]
        exact hc.resolve_left List.not_mem_nil
      · rw [hbefore] at hc
        exact .inr hc
      · rcases hsession' with hsession' | ⟨next, htask⟩
        · exact nomatch hnomedia.symm.trans hsession'
        · rw [hmedia, (Task.closing.inj htask).1]
      · show some after = s.peer.map _
        rw [hpeer]
        rfl
    | opening i opener rxs generation hmedia hopening honly => exact hother hmedia
    | closing i live next tx hmedia hlent honly => exact hother hmedia
    | rest hmedia hrest hquiet => exact hother hmedia

/-! ## Frames -/

theorem mediaSend_kept (h : Sound s) (uuid : Uuid) : Kept s (s.step (.mediaSend uuid)) := by
  simp only [State.step]
  rcases none_or_peer s with hnone | ⟨peer, hpeer⟩
  · simp only [hnone]
    exact h.kept
  simp only [hpeer]
  split
  case h_2 => exact h.kept
  case h_1 session hmedia =>
    by_cases hsend : sendAuthorised (some session.owner) uuid
    · rw [if_pos hsend]
      refine (h.kept_spawn hpeer (fun c hc => ?_) (fun c hc _ => .inl hc) (fun session' hsession => ?_) peer.entry
        ((h.phase peer hpeer).sending (h.bound _ le_rfl) peer.entry false uuid session.number)).same ?_ rfl rfl rfl rfl rfl
      · exact hc.resolve_right List.not_mem_nil
      · rcases hsession with hsession | ⟨next, htask⟩
        · exact hsession
        · exact nomatch htask
      · show s.peer = s.peer.map _
        rw [hpeer]
        rfl
    · rw [if_neg hsend]
      exact h.kept

theorem sendFrame_kept (h : Sound s) (i : Nat) : Kept s (s.step (.sendFrame i)) := by
  simp only [State.step]
  split
  case h_2 => exact h.kept
  case h_1 entry cancelled uuid number hi =>
    rcases none_or_peer s with hnone | ⟨peer, hpeer⟩
    · exact nomatch (h.idle hnone i).symm.trans hi
    refine (h.kept_finish hpeer hi (f := id) (fun c hc => .inl hc) (fun c hc _ => .inl (hc.resolve_right List.not_mem_nil))
      (fun session hsession => .inl hsession) ((h.phase peer hpeer).finish fun call hi' => .inl ?_)).same ?_ rfl rfl rfl rfl rfl
    · rw [← Option.mem_unique hi hi']
      exact fun hbusy => hbusy
    · show s.peer = s.peer.map id
      rw [Option.map_id_fun, id]

/-! ## The SDK's part -/

theorem Sound.kept_arrive (h : Sound s) (hpeer : s.peer = some peer) (peer' : PeerConnection) (superseded : List Nat)
    (hback : ∀ c ∈ peer'.halves, c ∈ peer.halves ∨ c = s.channels)
    (hkeep : ∀ c ∈ peer.halves, s.status c = .delivered → c ∈ peer'.halves ∨ c ∈ superseded)
    (hmedia : ∀ session, peer'.media = some session → peer.media = some session ∨ session.pump = .running)
    (hphase : Phase (fun c => c ∈ superseded ∨ s.status c = .ended) s.calls peer') (status : Status) (entry : Nat) :
    Kept s { s.arrive status entry with peer := some peer', superseded := superseded } := by
  -- what is held was there before
  have hold {c : Nat} (hc : c < s.channels) : (s.arrive status entry).status c = s.status c := update_of_ne (by omega) ..
  have hended {c : Nat} (hc : s.status c = .ended) : (s.arrive status entry).status c = .ended := by
    refine (hold ?_).trans hc
    by_contra hle
    cases (h.fresh c (by omega)).symm.trans hc
  have hrx {session : PeerMediaSession} (huse : InUse s.peer s.calls session) : session.rx < s.channels := by
    apply h.below
    rcases huse with ⟨p, hp, hsession⟩ | ⟨i, call, next, hi, htask⟩
    · refine .inl ⟨p, hp, ?_⟩
      rw [PeerConnection.halves, hsession]
      exact List.mem_append_right _ List.mem_cons_self
    · refine .inr ⟨i, call, hi, ?_⟩
      rw [htask]
      exact List.mem_singleton_self _
  constructor
  · constructor
    · exact h.bound
    · rintro c (⟨p, hp, hc⟩ | hcall)
      · obtain rfl := Option.some.inj hp
        rcases hback c hc with hc | rfl
        · exact Nat.lt_succ_of_lt (h.below c (.inl ⟨peer, hpeer, hc⟩))
        · exact Nat.lt_succ_self _
      · exact Nat.lt_succ_of_lt (h.below c (.inr hcall))
    · intro c hc
      replace hc : s.channels + 1 ≤ c := hc
      exact (update_of_ne (by omega) ..).trans (h.fresh c (by omega))
    · intro session huse hpump
      have huse : InUse s.peer s.calls session := by
        rcases huse with ⟨p, hp, hsession⟩ | hcall
        · obtain rfl := Option.some.inj hp
          rcases hmedia session hsession with hsession | hrunning
          · exact .inl ⟨peer, hpeer, hsession⟩
          · cases hrunning.symm.trans hpump
        · exact .inr hcall
      exact (hold (hrx huse)).trans (h.pumps session huse hpump)
    · intro p hp
      obtain rfl := Option.some.inj hp
      exact hphase.mono fun c hc => hc.imp_right hended
    · rintro ⟨⟩
  · intro c hc hlive
    rcases hc with ⟨p, hp, hc⟩ | hcall
    · obtain rfl := Option.mem_unique hpeer hp
      exact (hkeep c hc hlive).imp_left fun hc => .inl ⟨peer', rfl, hc⟩
    · exact .inl (.inr hcall)

theorem gone_mono {superseded : List Nat} (h : ∀ c ∈ s.superseded, c ∈ superseded) (c : Nat) (hc : s.gone c) :
    c ∈ superseded ∨ s.status c = .ended :=
  hc.imp_left (h c)

theorem offer_halves (udp : UdpState) (c : Nat) :
    (∃ rxs, udp.offer c = .pending rxs) ∧ c ∈ (udp.offer c).halves ∧ ∀ o ∈ (udp.offer c).halves, o ∈ udp.halves ∨ o = c := by
  cases udp with
  | pending offers =>
    refine ⟨⟨_, rfl⟩, List.mem_append_right _ (List.mem_singleton_self c), fun o ho => ?_⟩
    exact (List.mem_append.mp ho).imp_right List.mem_singleton.mp
  | _ => exact ⟨⟨_, rfl⟩, List.mem_singleton_self c, fun o ho => .inr (List.mem_singleton.mp ho)⟩

theorem offer_keeps (udp : UdpState) (c o : Nat) (ho : o ∈ udp.halves) : o ∈ (udp.offer c).halves ∨ ∃ tx, udp = .idle tx o := by
  cases udp with
  | pending offers => exact .inl (List.mem_append_left _ ho)
  | idle tx rx => exact .inr ⟨tx, by rw [List.mem_singleton.mp ho]⟩
  | _ => exact absurd ho List.not_mem_nil

theorem Sound.kept_offer (h : Sound s) (hpeer : s.peer = some peer) (hmedia : peer.media = none) (hudp : peer.udp ≠ .opening)
    (superseded : List Nat) (hsuperseded : ∀ c ∈ s.superseded, c ∈ superseded)
    (hidle : ∀ tx rx, peer.udp = .idle tx rx → rx ∈ superseded ∨ s.status rx = .ended)
    (hlent : ∀ tx, peer.udp = .lent tx → ∀ i call session next, s.calls i = some call → call.task = .closing session next → session.rx ∈ superseded ∨ s.status session.rx = .ended)
    (status : Status) :
    Kept s { s.arrive status peer.entry with
      peer := some { peer with udp := peer.udp.offer s.channels }, superseded := superseded } := by
  obtain ⟨⟨rxs, hpending⟩, -, hsub⟩ := offer_halves peer.udp s.channels
  have hafter : ({ peer with udp := peer.udp.offer s.channels } : PeerConnection).halves = (peer.udp.offer s.channels).halves := by
    rw [halves_eq { peer with udp := peer.udp.offer s.channels } rfl hmedia]
    exact List.append_nil _
  have hbefore : peer.halves = peer.udp.halves := by
    rw [halves_eq peer rfl hmedia]
    exact List.append_nil _
  refine h.kept_arrive hpeer { peer with udp := peer.udp.offer s.channels } superseded (fun c hc => ?_) (fun c hc hlive => ?_)
    (fun session hsession => .inl hsession) ?_ status peer.entry
  · rw [hbefore]
    exact hsub c (by rwa [← hafter])
  · rw [hbefore] at hc
    rw [hafter]
    refine (offer_keeps peer.udp s.channels c hc).imp_right fun ⟨tx, hc⟩ => ?_
    exact (hidle tx c hc).resolve_right fun hended => nomatch hended.symm.trans hlive
  · refine .rest hmedia (.inr (.inr ⟨rxs, hpending⟩)) ?_
    cases h.phase peer hpeer with
    | call session tx hsession hudp' hquiet => exact nomatch hmedia.symm.trans hsession
    | opening i uuid rxs generation hmedia' hopening honly => exact absurd hopening hudp
    | closing i session next tx hmedia' hudp' honly =>
      intro j call hj hbusy
      rcases honly.only j call hj hbusy with rfl | ⟨-, hstray⟩
      · obtain ⟨call', hj', htask⟩ := honly.at_
        obtain rfl := Option.mem_unique hj hj'
        exact ⟨session, next, htask, hlent tx hudp' j call session next hj htask⟩
      · exact hstray.mono (gone_mono hsuperseded)
    | rest hmedia' hudp' hquiet => exact hquiet.mono (gone_mono hsuperseded)

theorem Sound.kept_create (h : Sound s) (hnone : s.peer = none) (offer : Option Status) : Kept s (s.step (.upsert offer)) := by
  have hcalls : ∀ i, s.calls i = none := h.idle hnone
  have hquiet (gone : Nat → Prop) : Quiet gone s.calls := fun i call hi => nomatch (hcalls i).symm.trans hi
  have hempty (c : Nat) (hc : Held s.peer s.calls c) : False := by
    rcases hc with ⟨p, hp, -⟩ | ⟨i, call, hi, -⟩
    · exact nomatch hnone.symm.trans hp
    · exact nomatch (hcalls i).symm.trans hi
  refine ⟨?_, fun c hc => (hempty c hc).elim⟩
  simp only [State.step, hnone]
  constructor
  · cases offer with
    | none => exact h.bound
    | some status => exact h.bound
  · intro c hc
    cases offer with
    | none =>
      rcases hc with ⟨p, hp, hc⟩ | ⟨i, call, hi, -⟩
      · obtain rfl := Option.some.inj hp
        exact absurd hc List.not_mem_nil
      · exact nomatch (hcalls i).symm.trans hi
    | some status =>
      rcases hc with ⟨p, hp, hc⟩ | ⟨i, call, hi, -⟩
      · obtain rfl := Option.some.inj hp
        rw [List.mem_singleton.mp hc]
        exact Nat.lt_succ_self _
      · exact nomatch (hcalls i).symm.trans hi
  · intro c hc
    cases offer with
    | none => exact h.fresh c hc
    | some status =>
      replace hc : s.channels + 1 ≤ c := hc
      exact (update_of_ne (by omega) ..).trans (h.fresh c (by omega))
  · intro session huse
    cases offer with
    | none =>
      rcases huse with ⟨p, hp, hsession⟩ | ⟨i, call, next, hi, -⟩
      · obtain rfl := Option.some.inj hp
        exact nomatch hsession
      · exact nomatch (hcalls i).symm.trans hi
    | some status =>
      rcases huse with ⟨p, hp, hsession⟩ | ⟨i, call, next, hi, -⟩
      · obtain rfl := Option.some.inj hp
        exact nomatch hsession
      · exact nomatch (hcalls i).symm.trans hi
  · intro p hp
    cases offer with
    | none =>
      obtain rfl := Option.some.inj hp
      exact .rest rfl (.inl rfl) (hquiet _)
    | some status =>
      obtain rfl := Option.some.inj hp
      exact .rest rfl (.inr (.inr ⟨_, rfl⟩)) (hquiet _)
  · exact nofun

theorem step_upsert_none (hpeer : s.peer = some peer) : s.step (.upsert none) = { s with peer := some peer } := by
  simp only [State.step, hpeer, upsert, Option.map_none, ite_self]

theorem step_upsert_adopts (hpeer : s.peer = some peer) (hadopt : peer.media = none ∧ peer.udp ≠ .opening) (status : Status) :
    s.step (.upsert (some status)) =
      { s.arrive status peer.entry with peer := some { peer with udp := peer.udp.offer s.channels } } := by
  simp only [State.step, hpeer, upsert, Option.map_some, if_pos hadopt]

theorem step_upsert_keeps (hpeer : s.peer = some peer) (hadopt : ¬ (peer.media = none ∧ peer.udp ≠ .opening)) (status : Status) :
    s.step (.upsert (some status)) = { s.arrive status peer.entry with peer := some peer } := by
  simp only [State.step, hpeer, upsert, Option.map_some, if_neg hadopt]

theorem upsert_kept (h : Sound s) {offer : Option Status} (hmet : s.Keeps (.upsert offer)) : Kept s (s.step (.upsert offer)) := by
  rcases none_or_peer s with hnone | ⟨peer, hpeer⟩
  · exact h.kept_create hnone offer
  have hmet := hmet peer hpeer
  cases offer with
  | none =>
    rw [step_upsert_none hpeer]
    exact h.kept.same hpeer.symm rfl rfl rfl rfl rfl
  | some status =>
    by_cases hadopt : peer.media = none ∧ peer.udp ≠ .opening
    · rw [step_upsert_adopts hpeer hadopt]
      rw [if_pos hadopt] at hmet
      have hmet := hmet rfl
      refine h.kept_offer hpeer hadopt.1 hadopt.2 s.superseded (fun c hc => hc) (fun tx rx hidle => ?_) (fun tx hlent => ?_) status
      · rw [hidle] at hmet
        exact .inr hmet
      · rw [hlent] at hmet
        exact fun i call session next hi htask => .inr (hmet i call session next hi htask)
    · rw [step_upsert_keeps hpeer hadopt]
      exact h.kept_arrive hpeer peer s.superseded (fun c hc => .inl hc) (fun c hc _ => .inl hc) (fun session hsession => .inl hsession)
        (h.phase peer hpeer) status peer.entry

theorem step_restore (hpeer : s.peer = some peer) : s.step .restore = s.offerRestored peer := by
  simp only [State.step, hpeer]

theorem step_restore_none (hnone : s.peer = none) : s.step .restore = s := by simp only [State.step, hnone]

theorem offerRestored_offers (hmedia : peer.media = none) (hudp : peer.udp ≠ .opening) :
    s.offerRestored peer = { s.arrive .delivered peer.entry with
      peer := some { peer with udp := peer.udp.offer s.channels }, superseded := s.replaced peer ++ s.superseded } := by
  simp only [State.offerRestored, hmedia, if_neg hudp]

theorem offerRestored_live {live : PeerMediaSession} (hmedia : peer.media = some live) :
    s.offerRestored peer = { s.arrive .delivered peer.entry with
      peer := some { peer with
        udp := .lent s.channels
        media := some { live with sink := s.channels, rx := s.channels, pump := .running } }
      superseded := live.rx :: s.superseded } := by
  simp only [State.offerRestored, hmedia]

theorem restore_kept (h : Sound s) (hmet : s.Keeps .restore) : Kept s (s.step .restore) := by
  rcases none_or_peer s with hnone | ⟨peer, hpeer⟩
  · rw [step_restore_none hnone]
    exact h.kept
  have hmet := hmet peer hpeer
  rw [step_restore hpeer]
  rcases Option.eq_none_or_eq_some peer.media with hmedia | ⟨live, hmedia⟩
  · rw [offerRestored_offers hmedia hmet]
    refine h.kept_offer hpeer hmedia hmet _ (fun c hc => List.mem_append_right _ hc) (fun tx rx hidle => ?_) (fun tx hlent => ?_)
      .delivered
    · refine .inl (List.mem_append_left _ ?_)
      simp only [State.replaced, hidle, List.mem_singleton]
    · intro i call session next hi htask
      refine .inl (List.mem_append_left _ ?_)
      simp only [State.replaced, hlent, List.mem_filterMap, List.mem_range]
      refine ⟨i, ?_, ?_⟩
      · by_contra hle
        exact nomatch (h.bound i (by omega)).symm.trans hi
      · rw [hi]
        simp only [Option.bind_some, Call.closingHalf, htask]
  · rw [offerRestored_live hmedia]
    obtain ⟨tx, hudp, hquiet⟩ := h.live hpeer hmedia
    refine h.kept_arrive hpeer _ _ (fun c hc => ?_) (fun c hc _ => .inr ?_) (fun session hsession => .inr ?_)
      (.call _ _ rfl rfl (hquiet.mono (gone_mono fun c hc => List.mem_cons_of_mem _ hc))) .delivered peer.entry
    · replace hc : c ∈ [s.channels] := hc
      exact .inr (List.mem_singleton.mp hc)
    · rw [halves_eq peer hudp hmedia] at hc
      rw [List.mem_singleton.mp hc]
      exact List.mem_cons_self
    · rw [← Option.some.inj hsession]

/-! ## Streams and their pumps -/

theorem Sound.kept_settled (h : Sound s) {c : Nat} (hc : s.status c ≠ .ended) (hmade : c < s.channels) (status : Status) :
    Kept s (s.settled c status) := by
  have hended {o : Nat} (ho : s.status o = .ended) : (s.settled c status).status o = .ended := by
    refine (update_of_ne ?_ ..).trans ho
    rintro rfl
    exact hc ho
  constructor
  · constructor
    · exact h.bound
    · exact h.below
    · intro o ho
      replace ho : s.channels ≤ o := ho
      exact (update_of_ne (by omega) ..).trans (h.fresh o ho)
    · exact fun session huse hpump => hended (h.pumps session huse hpump)
    · exact fun peer hpeer => (h.phase peer hpeer).mono fun o ho => ho.imp_right hended
    · exact h.idle
  · exact fun o ho _ => .inl ho

theorem Sound.kept_pump (h : Sound s) (f : PeerMediaSession → PeerMediaSession) (hrx : ∀ session, (f session).rx = session.rx)
    (hpump : ∀ session, (f session).pump = .ended → session.pump = .ended ∨ s.status session.rx = .ended) :
    Kept s { s with peer := s.peer.map fun peer => { peer with media := peer.media.map f } } := by
  rcases none_or_peer s with hnone | ⟨peer, hpeer⟩
  · exact h.kept.same (by rw [hnone]; rfl) rfl rfl rfl rfl rfl
  have hafter : s.peer.map (fun peer => { peer with media := peer.media.map f }) = some { peer with media := peer.media.map f } := by
    rw [hpeer]
    rfl
  have hhalves : ({ peer with media := peer.media.map f } : PeerConnection).halves = peer.halves := by
    rw [halves_eq { peer with media := peer.media.map f } rfl rfl, Option.map_map, PeerConnection.halves]
    congr 3
    exact funext hrx
  rw [hafter]
  constructor
  · constructor
    · exact h.bound
    · rintro c (⟨p, hp, hc⟩ | hcall)
      · obtain rfl := Option.some.inj hp
        rw [hhalves] at hc
        exact h.below c (.inl ⟨peer, hpeer, hc⟩)
      · exact h.below c (.inr hcall)
    · exact h.fresh
    · rintro session (⟨p, hp, hsession⟩ | hcall) hended
      · obtain rfl := Option.some.inj hp
        obtain ⟨session', hmedia, rfl⟩ := Option.map_eq_some_iff.mp hsession
        show s.status _ = _
        rw [hrx]
        rcases hpump session' hended with hended | hstream
        · exact h.pumps session' (.inl ⟨peer, hpeer, hmedia⟩) hended
        · exact hstream
      · exact h.pumps session (.inr hcall) hended
    · intro p hp
      obtain rfl := Option.some.inj hp
      cases h.phase peer hpeer with
      | call session tx hmedia hudp hquiet =>
        refine .call (f session) tx ?_ hudp hquiet
        show peer.media.map f = _
        rw [hmedia]
        rfl
      | opening i uuid rxs generation hmedia hudp honly =>
        refine .opening i uuid rxs generation ?_ hudp honly
        show peer.media.map f = _
        rw [hmedia]
        rfl
      | closing i session next tx hmedia hudp honly =>
        refine .closing i session next tx ?_ hudp honly
        show peer.media.map f = _
        rw [hmedia]
        rfl
      | rest hmedia hudp hquiet =>
        refine .rest ?_ hudp hquiet
        show peer.media.map f = _
        rw [hmedia]
        rfl
    · rintro ⟨⟩
  · rintro c (⟨p, hp, hc⟩ | hcall) -
    · obtain rfl := Option.mem_unique hpeer hp
      exact .inl (.inl ⟨_, rfl, by rwa [hhalves]⟩)
    · exact .inl (.inr hcall)

theorem step_kept (h : Sound s) {act : Act} (hmet : s.Keeps act) : Kept s (s.step act) := by
  cases act with
  | mediaOpen uuid accepted => exact mediaOpen_kept h uuid accepted
  | finishOpen i first accepted => exact finishOpen_kept h hmet
  | settle i accepted => exact settle_kept h hmet
  | mediaClose uuid => exact mediaClose_kept h uuid
  | mediaSend uuid => exact mediaSend_kept h uuid
  | sendFrame i => exact sendFrame_kept h i
  | upsert offer => exact upsert_kept h hmet
  | restore => exact restore_kept h hmet
  | remove => exact hmet.elim
  | deliver c =>
    simp only [State.step]
    split
    case isTrue hc => exact h.kept_settled (by rw [hc.2]; decide) hc.1 .delivered
    case isFalse => exact h.kept
  | withdraw c =>
    simp only [State.step]
    split
    case isTrue hc => exact h.kept_settled (by rw [hc.2]; decide) hc.1 .withdrawn
    case isFalse => exact h.kept
  | streamEnds c =>
    simp only [State.step]
    split
    case isTrue hc =>
      refine h.kept_settled (by rw [hc]; decide) ?_ .ended
      by_contra hle
      exact nomatch (h.fresh c (by omega)).symm.trans hc
    case isFalse => exact h.kept
  | clientGone =>
    refine h.kept_pump (fun session => if session.pump = .running then { session with pump := .stopped } else session)
      (fun session => ?_) fun session hended => ?_
    · split
      · rfl
      · rfl
    · split at hended
      · exact nomatch hended
      · exact .inl hended
  | pumpEnds => exact h.kept_pump (·.pumpEnds s.status) (fun session => pumpEnds_rx session s.status) fun session => pumpEnds_ended
  | closingPumpEnds i => exact closingPumpEnds_kept h i

theorem sound_new : Sound .new where
  bound _ _ := rfl
  below c hc := by
    rcases hc with ⟨p, hp, -⟩ | ⟨i, call, hi, -⟩
    · exact nomatch hp
    · exact nomatch hi
  fresh _ _ := rfl
  pumps session huse := by
    rcases huse with ⟨p, hp, -⟩ | ⟨i, call, next, hi, -⟩
    · exact nomatch hp
    · exact nomatch hi
  phase _ hpeer := nomatch hpeer
  idle _ _ := rfl

theorem sound_reached (h : Reaches State.step State.Keeps (· = State.new) s) : Sound s := by
  refine h.invariant ?_ ?_
  · rintro s rfl
    exact sound_new
  · exact fun s act hsound hmet => (step_kept hsound hmet).sound

end CitadelAgent.Media
