import CitadelAgent.Media.Ownership

/-!
# What a window may do to a call

* `Undisturbed` : what a close that is not the window's to make leaves;
* `Installs`, `openOf` : a session that a step installs, and the open that it is for;
* `call_belongs_to_window` : over whole runs.
-/

namespace CitadelAgent.Media
open Function Machine

namespace State

/-- All is as before, but for the marks on the window's own handlers and for a generation that no open on the entry goes by. -/
structure Undisturbed (s t : State) : Prop where
  rest : t = { s with peer := t.peer, calls := t.calls }
  tasks : ∀ i, (t.calls i).map (·.task) = (s.calls i).map (·.task)
  gone : s.peer = none → t.peer = none
  peer : ∀ peer, s.peer = some peer → ∃ generation, t.peer = some { peer with mediaGeneration := generation } ∧
    ∀ i call begun, s.calls i = some call → call.entry = peer.entry → call.task.generation = some begun →
      (begun = generation ↔ begun = peer.mediaGeneration)

/-- The connection has neither the session nor an open or a rebuild in progress. -/
def Stranger (s : State) (uuid : Uuid) : Prop :=
  (s.peer.bind (·.media)).map (·.owner) ≠ some uuid ∧ ∀ peer, s.peer = some peer → ¬ s.Opens peer.entry uuid

/-- The entry has the session after the step, and had it not before. -/
def Installs (s : State) (act : Act) (session : PeerMediaSession) : Prop :=
  ((s.step act).peer.bind (·.media)) = some session ∧ (s.peer.bind (·.media)).map (·.number) ≠ some session.number

/-- The entry on which the act's open began, and whether its window's close was handled since. -/
def openOf (s : State) : Act → Option (Nat × Bool)
  | .mediaOpen _ _ => s.peer.map fun peer => (peer.entry, false)
  | .finishOpen i _ _ | .settle i _ => (s.calls i).map fun call => (call.entry, call.cancelled)
  | _ => none

end State

variable {s t : State} {peer peer' : PeerConnection}

/-! ## A stranger's close -/

theorem Owned.stranger (h : Owned s) {uuid : Uuid} (hmet : s.Orderly (.mediaClose uuid)) (hstranger : s.Stranger uuid) :
    s.Undisturbed (s.step (.mediaClose uuid)) := by
  obtain ⟨hnotOwner, hnotOpens⟩ := hstranger
  have htasks (i : Nat) : (s.marked uuid i).map (·.task) = (s.calls i).map (·.task) := by
    rw [State.marked, Option.map_map]
    congr 1
    funext call
    exact cancelledBy_task uuid call
  rcases step_mediaClose s uuid with ⟨peer, after, session, hpeer, hclose, hstep⟩ | ⟨-, hstep⟩
  · rw [hpeer] at hnotOwner
    have hfitting := h.fitting peer hpeer
    have hmedia : peer.media = none := by
      by_contra hsome
      obtain ⟨live, hmedia⟩ := Option.ne_none_iff_exists'.mp hsome
      refine hnotOwner ?_
      show peer.media.map _ = _
      rw [hmedia, Option.map_some, authorised_owner hclose hmedia]
    have hpending : peer.mediaPendingOwner = none := by
      by_contra hsome
      obtain ⟨owner, howner⟩ := Option.ne_none_iff_exists'.mp hsome
      have hself : owner = uuid := by
        rw [handleClose, hmedia, howner] at hclose
        split at hclose
        case isTrue hauthorised => exact of_decide_eq_true hauthorised
        case isFalse => cases hclose
      obtain ⟨i, call, rxs, generation, hi, hentry, htask⟩ := hfitting.waits owner howner
      refine hnotOpens peer hpeer ⟨i, call, hi, hentry, ?_⟩
      rw [htask, ← hself]
      rfl
    obtain ⟨hsession, hafter⟩ := handleClose_spec hclose
    rw [hmedia] at hsession
    subst hsession
    rw [hstep]
    refine ⟨rfl, htasks, fun hnone => (by cases hnone.symm.trans hpeer), fun p hp => ?_⟩
    obtain rfl := Option.mem_unique hpeer hp
    refine ⟨peer.mediaGeneration + 1, ?_, fun i call begun hi hentry hbegun => ?_⟩
    · show some after = _
      rw [hafter, hmedia, hpending]
    · have hfits := hfitting.fits i call hi hentry
      have hrebuild := (hmet peer hpeer).2 hmedia hpending (hnotOpens peer hpeer) i call
      rw [Call.Fits] at hfits
      cases htask : call.task with
      | awaiting owner rxs generation =>
        rw [htask] at hfits hbegun
        obtain rfl := Option.some.inj hbegun
        have hlt := hfits.2.2.1.resolve_left fun howner => by cases hpending.symm.trans howner
        omega
      | closing session next =>
        rw [htask] at hfits hbegun
        cases next with
        | park => cases hbegun
        | rebuild owner generation =>
          obtain rfl := Option.some.inj hbegun
          have hne := hrebuild session owner generation hi hentry htask
          have hle := hfits.1
          omega
      | sending owner number =>
        rw [htask] at hbegun
        cases hbegun
  · rw [hstep]
    exact ⟨rfl, htasks, fun hnone => hnone, fun p hp => ⟨p.mediaGeneration, hp, fun _ _ _ _ _ _ => Iff.rfl⟩⟩

/-! ## What is installed -/

/-- It is on the open's own entry, with its channels, and the window has not closed the call. -/
def State.InstallsOwn (s : State) (act : Act) (session : PeerMediaSession) : Prop :=
  ∃ peer peer', s.peer = some peer ∧ (s.step act).peer = some peer' ∧ peer'.entry = peer.entry ∧
    s.openOf act = some (peer.entry, false) ∧ s.Given peer.entry session.sink ∧ s.Given peer.entry session.rx

variable {act : Act} {session : PeerMediaSession} {accepted : Bool}

theorem not_installs
    (h : ((s.step act).peer.bind (·.media)).map (·.number) = (s.peer.bind (·.media)).map (·.number) ∨
      (s.step act).peer.bind (·.media) = none) : ¬ s.Installs act session := by
  rintro ⟨hsession, hnew⟩
  rcases h with h | h
  · rw [hsession] at h
    exact hnew h.symm
  · exact nomatch h.symm.trans hsession

theorem Commits.installed {number : Nat} {channels : List Nat} (h : Commits peer peer' number channels)
    (hsession : peer'.media = some session) (hnew : peer.media.map (·.number) ≠ some session.number) :
    session.sink ∈ channels ∧ session.rx ∈ channels := by
  rcases h.ending with ⟨hsame, -⟩ | ⟨-, tx, rx, owner, htx, hrx, -, hmedia⟩
  · rw [← hsame, hsession] at hnew
    exact absurd rfl hnew
  · rw [← Option.mem_unique hmedia hsession]
    exact ⟨htx, hrx⟩

theorem finishFirstOpen_stale (hudp : peer.udp = .opening) {generation : Nat} (hgeneration : generation < peer.mediaGeneration)
    (uuid : Uuid) (rxs : List Nat) (outcome : ChannelOutcome) (accepted : Bool) (number : Nat) :
    (finishFirstOpen peer uuid rxs outcome generation accepted number).media = peer.media := by
  obtain ⟨pending, -, hfinish | ⟨hsame, -⟩⟩ := finishFirstOpen_cases hudp uuid rxs outcome generation accepted number
  · rw [hfinish]
  · exact absurd hsame (Nat.ne_of_gt hgeneration)

theorem settle_installs {tx : Nat} (hudp : peer.udp = .lent tx) {next : After} {recovered : Option Nat} {number : Nat}
    (hsession : (next.settle peer recovered accepted number).media = some session)
    (hnew : peer.media.map (·.number) ≠ some session.number) :
    peer.media = none ∧ ∃ uuid, next = .rebuild uuid peer.mediaGeneration := by
  rcases settle_lent hudp next recovered accepted number with hpark | ⟨uuid, rx, hnext, hmedia, -⟩
  · rw [hpark] at hsession
    exact absurd (congrArg (Option.map (·.number)) hsession) hnew
  · exact ⟨hmedia, uuid, hnext⟩

theorem Owned.mediaOpen_installs (h : Owned s) {uuid : Uuid}
    (hinstalls : s.Installs (.mediaOpen uuid accepted) session) : s.InstallsOwn (.mediaOpen uuid accepted) session := by
  rcases none_or_peer s with hnone | ⟨peer, hpeer⟩
  · exact absurd hinstalls (not_installs (.inl (by rw [step_mediaOpen_none hnone])))
  have hpeer' : (s.step (.mediaOpen uuid accepted)).peer = some (openPath peer uuid accepted s.sessions).1 := by
    rw [step_mediaOpen hpeer, withPeer_some hpeer]
    cases (openPath peer uuid accepted s.sessions).2 with
    | none => rfl
    | some task => rfl
  obtain ⟨hsession, hnew⟩ := hinstalls
  rw [hpeer'] at hsession
  rw [hpeer] at hnew
  replace hsession : (openPath peer uuid accepted s.sessions).1.media = some session := hsession
  replace hnew : peer.media.map (·.number) ≠ some session.number := hnew
  have hfinds := openPath_finds peer uuid accepted s.sessions
  generalize openPath peer uuid accepted s.sessions = result at hfinds hsession hpeer'
  cases hfinds with
  | idle tx rx hmedia hudp =>
    have hcommits := startSession_commits hmedia ((h.fitting peer hpeer).unclaimed (by simp [hudp])) tx rx uuid accepted s.sessions
    have hgiven (c : Nat) (hc : c ∈ [tx, rx]) : s.Given peer.entry c :=
      h.offered.peer peer hpeer c (mem_channels_udp (by rwa [hudp]))
    obtain ⟨hsink, hrx⟩ := hcommits.installed hsession hnew
    refine ⟨peer, _, hpeer, hpeer', hcommits.entry, ?_, hgiven _ hsink, hgiven _ hrx⟩
    rw [State.openOf, hpeer, Option.map_some]
  | same | pending => exact absurd (congrArg (Option.map (·.number)) hsession) hnew
  | stale => exact nomatch hsession

theorem Owned.finishOpen_installs (h : Owned s) {i : Nat} {first : Option Nat} (hmet : s.Orderly (.finishOpen i first accepted))
    (hinstalls : s.Installs (.finishOpen i first accepted) session) : s.InstallsOwn (.finishOpen i first accepted) session := by
  rcases finishOpen_cases s i first accepted with hstep | ⟨call, uuid, rxs, generation, hi, htask, hresolves⟩
  · exact absurd hinstalls (not_installs (.inl (by rw [hstep])))
  rcases none_or_peer s with hnone | ⟨peer, hpeer⟩
  · refine absurd hinstalls (not_installs (.inr ?_))
    rw [step_finishOpen hi htask hresolves]
    show (s.peer.map _).bind _ = _
    rw [hnone]
    rfl
  have hpeer' : (s.step (.finishOpen i first accepted)).peer =
      some (finishFirstOpen peer uuid rxs (s.outcome first) generation accepted s.sessions) := by
    rw [step_finishOpen hi htask hresolves, withPeer_some (s := s.finish i) hpeer]
  have hwait : call.task.waits := by
    rw [htask]
    trivial
  have hfitting := h.fitting peer hpeer
  obtain ⟨hsession, hnew⟩ := hinstalls
  rw [hpeer'] at hsession
  rw [hpeer] at hnew
  replace hsession : (finishFirstOpen peer uuid rxs (s.outcome first) generation accepted s.sessions).media = some session := hsession
  replace hnew : peer.media.map (·.number) ≠ some session.number := hnew
  have hsame (hmedia : (finishFirstOpen peer uuid rxs (s.outcome first) generation accepted s.sessions).media = peer.media) : False := by
    rw [← hmedia, hsession] at hnew
    exact hnew rfl
  by_cases hentry : call.entry = peer.entry
  · have hfits := hfitting.fits i call hi hentry
    rw [Call.Fits, htask] at hfits
    obtain ⟨hudp, -, -, hcancelled⟩ := hfits
    have hpending (owner : Uuid) (hsome : peer.mediaPendingOwner = some owner) : owner = uuid := hfitting.claimant hi hentry htask hsome
    have hcommits :=
      finishFirstOpen_commits hudp (hfitting.closed hudp) hpending (outcome_sub hresolves) generation accepted s.sessions
    have hgiven (c : Nat) (hc : c ∈ rxs) : s.Given peer.entry c := by
      rw [← hentry]
      exact h.offered.calls i call hi c (by rwa [htask])
    have hlive : call.cancelled = false := by
      by_contra hc
      exact hsame (finishFirstOpen_stale hudp (hcancelled (eq_true_of_ne_false hc)) _ _ _ _ _)
    obtain ⟨hsink, hrx⟩ := hcommits.installed hsession hnew
    refine ⟨peer, _, hpeer, hpeer', hcommits.entry, ?_, hgiven _ hsink, hgiven _ hrx⟩
    rw [State.openOf, hi, Option.map_some, hentry, hlive]
  · have hudp := hmet peer call hpeer hi hentry hwait
    exact (hsame (by rw [finishFirstOpen_other hudp (hfitting.unclaimed hudp)])).elim

theorem Owned.settle_installs (h : Owned s) {i : Nat} (hmet : s.Orderly (.settle i accepted))
    (hinstalls : s.Installs (.settle i accepted) session) : s.InstallsOwn (.settle i accepted) session := by
  rcases settle_cases s i accepted with hstep | ⟨call, closed, next, hi, htask⟩
  · exact absurd hinstalls (not_installs (.inl (by rw [hstep])))
  rcases none_or_peer s with hnone | ⟨peer, hpeer⟩
  · refine absurd hinstalls (not_installs (.inr ?_))
    rw [step_settle hi htask]
    show (s.peer.map _).bind _ = _
    rw [hnone]
    rfl
  have hpeer' : (s.step (.settle i accepted)).peer = some (next.settle peer closed.recovered accepted s.sessions) := by
    rw [step_settle hi htask, withPeer_some (s := s.finish i) hpeer]
  have hfitting := h.fitting peer hpeer
  obtain ⟨hsession, hnew⟩ := hinstalls
  rw [hpeer'] at hsession
  rw [hpeer] at hnew
  replace hsession : (next.settle peer closed.recovered accepted s.sessions).media = some session := hsession
  replace hnew : peer.media.map (·.number) ≠ some session.number := hnew
  rcases lent_or_not peer.udp with ⟨tx, hudp⟩ | hudp
  · have hentry : call.entry = peer.entry := by
      by_contra hne
      exact hmet peer call closed next hpeer hi hne htask tx hudp
    have hnotOpening : peer.udp ≠ .opening := by
      rw [hudp]
      exact nofun
    obtain ⟨hmedia, uuid, rfl⟩ := Media.settle_installs hudp hsession hnew
    have hfits := hfitting.fits i call hi hentry
    rw [Call.Fits, htask] at hfits
    have hlive : call.cancelled = false := by
      by_contra hc
      rcases hfits.2 (eq_true_of_ne_false hc) with hlt | hsome | hnot
      · exact Nat.lt_irrefl _ hlt
      · exact hsome hmedia
      · exact hnot tx hudp
    have hcommits := settle_commits hudp (hfitting.unclaimed hnotOpening) closed (.rebuild uuid peer.mediaGeneration) accepted s.sessions
    have hgiven (c : Nat) (hc : c ∈ [tx, closed.rx]) : s.Given peer.entry c := by
      rcases List.mem_cons.mp hc with rfl | hc
      · exact h.offered.peer peer hpeer _ (mem_channels_udp (by rw [hudp]; exact List.mem_singleton_self _))
      · rw [← hentry]
        refine h.offered.calls i call hi c ?_
        rw [htask, List.mem_singleton.mp hc]
        exact List.mem_cons_of_mem _ (List.mem_singleton_self _)
    obtain ⟨hsink, hrx⟩ := hcommits.installed hsession hnew
    refine ⟨peer, _, hpeer, hpeer', hcommits.entry, ?_, hgiven _ hsink, hgiven _ hrx⟩
    rw [State.openOf, hi, Option.map_some, hentry, hlive]
  · rw [settle_other hudp] at hsession
    rw [hsession] at hnew
    exact absurd rfl hnew

theorem not_installs_peer (h : (s.step act).peer = s.peer) : ¬ s.Installs act session :=
  not_installs (.inl (by rw [h]))

theorem not_installs_map (f : PeerConnection → PeerConnection) (h : (s.step act).peer = s.peer.map f)
    (hf : ∀ peer, s.peer = some peer → (f peer).media.map (·.number) = peer.media.map (·.number)) :
    ¬ s.Installs act session := by
  refine not_installs (.inl ?_)
  rw [h]
  rcases none_or_peer s with hnone | ⟨peer, hpeer⟩
  · rw [hnone]
    rfl
  · rw [hpeer]
    exact hf peer hpeer

theorem Owned.installs (h : Owned s) (hmet : s.Orderly act) (hinstalls : s.Installs act session) :
    s.InstallsOwn act session := by
  cases act with
  | mediaOpen uuid accepted => exact h.mediaOpen_installs hinstalls
  | finishOpen i first accepted => exact h.finishOpen_installs hmet hinstalls
  | settle i accepted => exact h.settle_installs hmet hinstalls
  | mediaClose uuid =>
    refine absurd hinstalls ?_
    rcases step_mediaClose s uuid with ⟨peer, after, taken, hpeer, hclose, hstep⟩ | ⟨-, hstep⟩
    · refine not_installs (.inr ?_)
      obtain ⟨-, hafter⟩ := handleClose_spec hclose
      rw [hstep, hafter]
      cases taken with
      | none => rfl
      | some taken => rfl
    · exact not_installs_peer (by rw [hstep])
  | mediaSend uuid =>
    refine absurd hinstalls (not_installs_peer ?_)
    simp only [State.step]
    split
    · split
      · split
        · rfl
        · rfl
      · rfl
    · rfl
  | upsert offer =>
    refine absurd hinstalls ?_
    rcases none_or_peer s with hnone | ⟨peer, hpeer⟩
    · refine not_installs (.inr ?_)
      simp only [State.step, hnone]
      rfl
    · refine not_installs_map (fun peer => upsert peer (offer.map fun _ => s.channels)) ?_ fun peer _ => ?_
      · simp only [State.step, hpeer, Option.map_some]
      · simp only [upsert]
        split
        · cases offer with
          | none => rfl
          | some status => rfl
        · rfl
  | restore =>
    refine absurd hinstalls ?_
    rcases none_or_peer s with hnone | ⟨peer, hpeer⟩
    · exact not_installs_peer (by simp only [State.step, hnone])
    · rcases Option.eq_none_or_eq_some peer.media with hmedia | ⟨live, hmedia⟩
      · refine not_installs (.inr ?_)
        rw [step_restore hpeer]
        by_cases hudp : peer.udp = .opening
        · simp only [State.offerRestored, hmedia, if_pos hudp, State.arrive, hpeer, Option.bind_some]
        · simp only [State.offerRestored, hmedia, if_neg hudp, Option.bind_some]
      · refine not_installs (.inl ?_)
        rw [step_restore hpeer, hpeer]
        simp only [State.offerRestored, hmedia, Option.bind_some, Option.map_some]
  | remove => exact absurd hinstalls (not_installs (.inr rfl))
  | clientGone =>
    refine absurd hinstalls (not_installs_map _ rfl fun peer _ => ?_)
    show (peer.media.map _).map _ = _
    rw [Option.map_map]
    congr 1
    funext live
    show PeerMediaSession.number (if _ then _ else _) = _
    split
    · rfl
    · rfl
  | pumpEnds =>
    refine absurd hinstalls (not_installs_map _ rfl fun peer _ => ?_)
    show (peer.media.map _).map _ = _
    rw [Option.map_map]
    congr 1
    funext live
    exact (pumpEnds_same live s.status).2.2
  | sendFrame i | closingPumpEnds i | deliver c | withdraw c | streamEnds c =>
    refine absurd hinstalls (not_installs_peer ?_)
    simp only [State.step]
    split
    · rfl
    · rfl

/-- In every orderly run a frame was its session's owner's; and in every further orderly step a stranger's close
disturbs nothing, and an open installs on its own entry, while its window has not closed it. -/
theorem call_belongs_to_window (h : Reaches State.step State.Orderly (· = State.new) s) :
    (∀ frame ∈ s.wire, frame.owner = some frame.sender) ∧
      (∀ uuid, s.Orderly (.mediaClose uuid) → s.Stranger uuid → s.Undisturbed (s.step (.mediaClose uuid))) ∧
        ∀ act session, s.Orderly act → s.Installs act session → s.InstallsOwn act session := by
  have howned := owned_reached h
  exact ⟨howned.wire, fun uuid hmet hstranger => howned.stranger hmet hstranger,
    fun act session hmet hinstalls => howned.installs hmet hinstalls⟩

def handedOver : List Act := [.upsert (some .delivered), .mediaOpen 7 true, .finishOpen 0 (some 0) true, .mediaSend 7, .sendFrame 1,
  .clientGone, .mediaOpen 8 true]

theorem handedOver_orderly : AllMeet State.step State.Orderly .new handedOver := by
  refine ⟨trivial, fun peer session hpeer hsession => ?_, fun peer call hpeer hcall hentry => ?_, trivial, trivial, trivial,
    fun peer session _ _ => .inr fun i call uuid number hi => ?_, trivial⟩
  · obtain rfl := Option.some.inj hpeer
    exact nomatch hsession
  · obtain rfl := Option.some.inj hpeer
    obtain rfl := Option.some.inj hcall
    exact absurd rfl hentry
  · match i with
    | 0 => exact nomatch hi
    | 1 => exact nomatch hi
    | i + 2 => exact nomatch hi

theorem call_belongs_to_window_handedOver :
    ((∀ frame ∈ (handedOver.foldl State.step .new).wire, frame.owner = some frame.sender) ∧
      (∀ uuid, (handedOver.foldl State.step .new).Orderly (.mediaClose uuid) → (handedOver.foldl State.step .new).Stranger uuid →
        (handedOver.foldl State.step .new).Undisturbed ((handedOver.foldl State.step .new).step (.mediaClose uuid))) ∧
      ∀ act session, (handedOver.foldl State.step .new).Orderly act → (handedOver.foldl State.step .new).Installs act session →
        (handedOver.foldl State.step .new).InstallsOwn act session) ∧
    (handedOver.foldl State.step .new).wire = [⟨7, some 7⟩] :=
  ⟨call_belongs_to_window (reaches_foldl handedOver_orderly), rfl⟩

/-- A stranger's close cancels another window's rebuild; a frame goes out after its window's close; and an open that
its window closed is committed for another window's, on a newer entry. -/
theorem call_taken_over :
    (∃ (acts : List Act) (uuid : Uuid), (acts.foldl State.step .new).Stranger uuid ∧
      ¬ (acts.foldl State.step .new).Undisturbed ((acts.foldl State.step .new).step (.mediaClose uuid))) ∧
    (∃ acts : List Act, ∃ frame ∈ (acts.foldl State.step .new).wire, frame.owner ≠ some frame.sender) ∧
    ∃ (acts : List Act) (act : Act) (session : PeerMediaSession) (entry : Nat), (acts.foldl State.step .new).Installs act session ∧
      (acts.foldl State.step .new).openOf act = some (entry, true) ∧ (acts.foldl State.step .new).peer.map (·.entry) ≠ some entry ∧
      (acts.foldl State.step .new).offeredTo session.rx = entry := by
  refine ⟨⟨handedOver, 9, ⟨nofun, fun peer hpeer ⟨i, call, hi, _, hopener⟩ => ?_⟩, fun h => ?_⟩,
    ⟨[.upsert (some .delivered), .mediaOpen 7 true, .finishOpen 0 (some 0) true, .mediaSend 7, .mediaClose 7, .sendFrame 1], ⟨7, none⟩,
      List.mem_singleton_self _, nofun⟩,
    ⟨[.upsert (some .delivered), .mediaOpen 7 true, .remove, .mediaClose 7, .upsert (some .offered), .mediaOpen 8 true],
      .finishOpen 0 (some 0) true, ⟨2, 7, 0, 0, .running⟩, 0, ⟨rfl, nofun⟩, rfl, nofun, rfl⟩⟩
  · match i with
    | 0 => exact nomatch hi
    | 1 => exact nomatch hi
    | 2 =>
      rw [← Option.some.inj hi] at hopener
      exact nomatch hopener
    | i + 3 => exact nomatch hi
  · -- the rebuild goes by generation 1, and the close makes it 2
    obtain ⟨generation, hpeer, hsame⟩ := h.peer ⟨0, .lent 0, none, 1, none⟩ rfl
    have hgeneration : 2 = generation := congrArg PeerConnection.mediaGeneration (Option.some.inj hpeer)
    have hiff := hsame 2 ⟨0, false, .closing ⟨1, 7, 0, 0, .stopped⟩ (.rebuild 8 1)⟩ 1 rfl rfl rfl
    rw [← hgeneration] at hiff
    exact absurd (hiff.mpr rfl) (by decide)

end CitadelAgent.Media
