import CitadelAgent.Media.Handlers

/-!
# A call belongs to the window that opened it

* `Call.Fits`, `Fitting` : how a handler in progress stands to the entry that it began on;
* `Offered` : each channel is with an entry that it was offered to, or with a handler that began there;
* `Orderly` : the steps that keep a call its window's;
* `Commits` : the path is parked, or a session installed.
-/

namespace CitadelAgent.Media
open Function Machine

/-! ## Channels -/

def UdpState.channels : UdpState → List Nat
  | .pending offers => offers
  | .idle tx rx => [tx, rx]
  | .lent tx => [tx]
  | _ => []

def PeerMediaSession.channels (session : PeerMediaSession) : List Nat := [session.sink, session.rx]

def PeerConnection.channels (peer : PeerConnection) : List Nat :=
  peer.udp.channels ++ (peer.media.map (·.channels)).getD []

def Task.channels : Task → List Nat
  | .awaiting _ rxs _ => rxs
  | .closing session _ => session.channels
  | .sending _ _ => []

/-! ## Handlers and their entry -/

def Task.waits : Task → Prop
  | .awaiting _ _ _ => True
  | _ => False

/-- An open that waits has the entry opening and is the pending owner's or was closed since; one that its window
closed, and a rebuild of such a window, is of an earlier generation. A frame is the session's owner's. -/
def Call.Fits (peer : PeerConnection) (call : Call) : Prop :=
  match call.task with
  | .awaiting uuid _ generation => peer.udp = .opening ∧ generation ≤ peer.mediaGeneration ∧
      (peer.mediaPendingOwner = some uuid ∨ generation < peer.mediaGeneration) ∧
        (call.cancelled → generation < peer.mediaGeneration)
  | .closing _ (.rebuild _ generation) => generation ≤ peer.mediaGeneration ∧
      (call.cancelled → generation < peer.mediaGeneration ∨ peer.media ≠ none ∨ ∀ tx, peer.udp ≠ .lent tx)
  | .closing _ .park => True
  | .sending uuid _ => peer.media.map (·.owner) = some uuid

structure Fitting (peer : PeerConnection) (calls : Nat → Option Call) : Prop where
  fits : ∀ i call, calls i = some call → call.entry = peer.entry → call.Fits peer
  waits : ∀ uuid, peer.mediaPendingOwner = some uuid → ∃ i call rxs generation, calls i = some call ∧ call.entry = peer.entry ∧
    call.task = .awaiting uuid rxs generation
  one : ∀ i j a b, calls i = some a → calls j = some b → a.entry = peer.entry → b.entry = peer.entry → a.task.waits → b.task.waits → i = j
  closed : peer.udp = .opening → peer.media = none

def State.Given (s : State) (entry c : Nat) : Prop := c < s.channels ∧ s.offeredTo c = entry

structure Offered (s : State) : Prop where
  bound : ∀ i call, s.calls i = some call → i < s.spawned
  entry : ∀ peer, s.peer = some peer → peer.entry < s.entries
  peer : ∀ peer, s.peer = some peer → ∀ c ∈ peer.channels, s.Given peer.entry c
  begun : ∀ i call, s.calls i = some call → call.entry < s.entries
  calls : ∀ i call, s.calls i = some call → ∀ c ∈ call.task.channels, s.Given call.entry c
  number : ∀ peer session, s.peer = some peer → peer.media = some session → session.number < s.sessions

structure Owned (s : State) : Prop where
  offered : Offered s
  fitting : ∀ peer, s.peer = some peer → Fitting peer s.calls
  sends : ∀ i call uuid number, s.calls i = some call → call.task = .sending uuid number →
    ∃ peer, s.peer = some peer ∧ call.entry = peer.entry
  wire : ∀ frame ∈ s.wire, frame.owner = some frame.sender

namespace State

def Still (s : State) : Prop := ∀ i call uuid number, s.calls i = some call → call.task ≠ .sending uuid number

def Opens (s : State) (entry : Nat) (uuid : Uuid) : Prop :=
  ∃ i call, s.calls i = some call ∧ call.entry = entry ∧ call.task.opener = some uuid

/-- A session is taken, or the entry removed, with no frame on its way to it. A close from a window with nothing here, where nothing is
open and no open waits, comes with no rebuild in progress. What began on an earlier entry ends with the entry not opening, or its path
not lent. -/
def Orderly (s : State) : Act → Prop
  | .mediaOpen uuid _ => ∀ peer session, s.peer = some peer → peer.media = some session →
      (session.pumpAlive ∧ session.owner = uuid) ∨ s.Still
  | .mediaClose uuid => ∀ peer, s.peer = some peer →
      (peer.media.map (·.owner) = some uuid → s.Still) ∧
        (peer.media = none → peer.mediaPendingOwner = none → ¬ s.Opens peer.entry uuid → ∀ i call session owner generation,
          s.calls i = some call → call.entry = peer.entry → call.task = .closing session (.rebuild owner generation) →
            generation ≠ peer.mediaGeneration)
  | .remove => s.Still
  | .finishOpen i _ _ => ∀ peer call, s.peer = some peer → s.calls i = some call → call.entry ≠ peer.entry → call.task.waits →
      peer.udp ≠ .opening
  | .settle i _ => ∀ peer call session next, s.peer = some peer → s.calls i = some call → call.entry ≠ peer.entry →
      call.task = .closing session next → ∀ tx, peer.udp ≠ .lent tx
  | _ => True

end State

/-! ## What ends a wait, or opens a parked path -/

def UdpState.rests (udp : UdpState) : Prop := udp ≠ .opening ∧ ∀ tx, udp ≠ .lent tx

/-- The path is parked, or a session is installed; the pending owner is none, as nobody waits. -/
structure Commits (peer peer' : PeerConnection) (number : Nat) (channels : List Nat) : Prop where
  entry : peer'.entry = peer.entry
  generation : peer'.mediaGeneration = peer.mediaGeneration
  pending : peer'.mediaPendingOwner = none
  ending : (peer'.media = peer.media ∧ peer'.udp.rests ∧ ∀ c ∈ peer'.udp.channels, c ∈ channels) ∨
    peer.media = none ∧ ∃ tx rx owner, tx ∈ channels ∧ rx ∈ channels ∧ peer'.udp = .lent tx ∧
      peer'.media = some ⟨number, owner, tx, rx, .running⟩

variable {s t : State} {peer peer' : PeerConnection}

theorem startSession_commits (hmedia : peer.media = none) (hpending : peer.mediaPendingOwner = none) (tx rx : Nat) (owner : Uuid)
    (accepted : Bool) (number : Nat) : Commits peer (startSession peer tx rx owner accepted number) number [tx, rx] := by
  cases accepted with
  | true =>
    refine ⟨rfl, rfl, hpending, .inr ⟨hmedia, tx, rx, owner, List.mem_cons_self, ?_, rfl, rfl⟩⟩
    exact List.mem_cons_of_mem _ (List.mem_singleton_self rx)
  | false => exact ⟨rfl, rfl, hpending, .inl ⟨rfl, ⟨nofun, nofun⟩, fun c hc => hc⟩⟩

variable {channels : List Nat} {uuid : Uuid} {c : Nat}

theorem Commits.mono {base : PeerConnection} {number : Nat} {channels' : List Nat} (h : Commits base peer' number channels)
    (hsub : ∀ c ∈ channels, c ∈ channels') (hentry : base.entry = peer.entry)
    (hgeneration : base.mediaGeneration = peer.mediaGeneration) (hmedia : base.media = peer.media) :
    Commits peer peer' number channels' := by
  obtain ⟨hentry', hgeneration', hpending, hending⟩ := h
  refine ⟨hentry'.trans hentry, hgeneration'.trans hgeneration, hpending, ?_⟩
  rcases hending with ⟨hsame, hrests, hudp⟩ | ⟨hnone, tx, rx, owner, htx, hrx, hudp, hsession⟩
  · exact .inl ⟨hsame.trans hmedia, hrests, fun c hc => hsub c (hudp c hc)⟩
  · exact .inr ⟨hmedia.symm.trans hnone, tx, rx, owner, hsub tx htx, hsub rx hrx, hudp, hsession⟩

theorem commits_parked (udp : UdpState) (hrests : udp.rests) (hpending : peer.mediaPendingOwner = none)
    (hsub : ∀ c ∈ udp.channels, c ∈ channels) (number : Nat) : Commits peer { peer with udp := udp } number channels :=
  ⟨rfl, rfl, hpending, .inl ⟨rfl, hrests, hsub⟩⟩

theorem rests_idle (tx rx : Nat) : (UdpState.idle tx rx).rests := ⟨nofun, nofun⟩

theorem rests_pending (rxs : List Nat) : (UdpState.pending rxs).rests := ⟨nofun, nofun⟩

theorem rests_unavailable : UdpState.unavailable.rests := ⟨nofun, nofun⟩

theorem finishFirstOpen_commits (hudp : peer.udp = .opening) (hmedia : peer.media = none)
    (hpending : ∀ owner, peer.mediaPendingOwner = some owner → owner = uuid) {rxs : List Nat} {outcome : ChannelOutcome}
    (hsub : ∀ c ∈ outcome.halves rxs, c ∈ rxs) (generation : Nat) (accepted : Bool) (number : Nat) :
    Commits peer (finishFirstOpen peer uuid rxs outcome generation accepted number) number rxs := by
  obtain ⟨pending, hclaim, hfinish⟩ := finishFirstOpen_cases hudp uuid rxs outcome generation accepted number
  -- the claim's release leaves no claim
  have hnone : pending = none := by
    by_contra hsome
    obtain ⟨owner, howner⟩ := Option.ne_none_iff_exists'.mp hsome
    obtain ⟨hsame, hne⟩ := hclaim owner howner
    exact hne (hpending owner hsame)
  rcases hfinish with hfinish | ⟨-, c, rfl, hfinish⟩
  · rw [hfinish]
    refine ⟨rfl, rfl, hnone, .inl ⟨rfl, ?_, fun o ho => ?_⟩⟩
    · cases outcome with
      | channel c => exact rests_idle c c
      | withdrawn => exact rests_unavailable
      | elapsed => exact rests_pending rxs
    · cases outcome with
      | channel c => exact hsub o (by simpa [ChannelOutcome.parked, UdpState.channels, ChannelOutcome.halves] using ho)
      | withdrawn => exact absurd ho List.not_mem_nil
      | elapsed => exact ho
  · rw [hfinish]
    refine (@startSession_commits { peer with mediaPendingOwner := pending } hmedia hnone c c uuid accepted number).mono
      (fun o ho => hsub o ?_) rfl rfl rfl
    simpa [ChannelOutcome.halves] using ho

theorem settle_commits {tx : Nat} (hudp : peer.udp = .lent tx) (hpending : peer.mediaPendingOwner = none) (session : PeerMediaSession)
    (next : After) (accepted : Bool) (number : Nat) :
    Commits peer (next.settle peer session.recovered accepted number) number [tx, session.rx] := by
  rcases settle_lent hudp next session.recovered accepted number with hpark | ⟨uuid, rx, -, hmedia, hrx, hstart⟩
  · rw [hpark]
    rcases recovered_cases session with ⟨hrecovered, -⟩ | hrecovered
    · rw [hrecovered]
      exact commits_parked _ rests_unavailable hpending (fun c hc => absurd hc List.not_mem_nil) number
    · rw [hrecovered]
      exact commits_parked _ (rests_idle tx session.rx) hpending (fun c hc => hc) number
  · obtain rfl : session.rx = rx := by
      rcases recovered_cases session with ⟨hnone, -⟩ | hsome
      · exact nomatch hnone.symm.trans hrx
      · exact Option.mem_unique hsome hrx
    rw [hstart]
    exact startSession_commits hmedia hpending tx session.rx uuid accepted number

/-! ## The entry and its handlers after a commit -/

section
variable {calls calls' : Nat → Option Call} {number : Nat} {channels : List Nat}

theorem Fitting.unclaimed (h : Fitting peer calls) (hudp : peer.udp ≠ .opening) : peer.mediaPendingOwner = none := by
  by_contra hsome
  obtain ⟨uuid, hpending⟩ := Option.ne_none_iff_exists'.mp hsome
  obtain ⟨i, call, rxs, generation, hi, hentry, htask⟩ := h.waits uuid hpending
  have hfits := h.fits i call hi hentry
  rw [Call.Fits, htask] at hfits
  exact hudp hfits.1

theorem Fitting.commits (h : Fitting peer calls) (hcommits : Commits peer peer' number channels)
    (hsub : ∀ j call, calls' j = some call → calls j = some call)
    (hwaits : ∀ j call, calls' j = some call → call.entry = peer.entry → ¬ call.task.waits) : Fitting peer' calls' := by
  obtain ⟨hentry, hgeneration, hpending, hending⟩ := hcommits
  constructor
  · intro j call hj hjentry
    rw [hentry] at hjentry
    have hfits := h.fits j call (hsub j call hj) hjentry
    have hnot := hwaits j call hj hjentry
    obtain ⟨entry, cancelled, task⟩ := call
    cases task with
    | awaiting uuid rxs generation => exact absurd trivial hnot
    | closing session next =>
      cases next with
      | park => trivial
      | rebuild uuid generation =>
        refine ⟨hfits.1.trans_eq hgeneration.symm, fun _ => .inr ?_⟩
        rcases hending with ⟨-, hrests, -⟩ | ⟨-, tx, rx, owner, -, -, -, hmedia⟩
        · exact .inr hrests.2
        · exact .inl fun hnone => nomatch hnone.symm.trans hmedia
    | sending uuid number =>
      rcases hending with ⟨hmedia, -, -⟩ | ⟨hnone, -⟩
      · show peer'.media.map _ = _
        rw [hmedia]
        exact hfits
      · replace hfits : peer.media.map (·.owner) = some uuid := hfits
        rw [hnone] at hfits
        exact nomatch hfits
  · exact fun uuid hsome => nomatch hpending.symm.trans hsome
  · exact fun j k a b hj _ ha _ hwait _ => absurd hwait (hwaits j a hj (ha.trans hentry))
  · intro hopening
    rcases hending with ⟨-, hrests, -⟩ | ⟨-, tx, rx, owner, -, -, hudp, -⟩
    · exact absurd hopening hrests.1
    · exact nomatch hopening.symm.trans hudp

end

/-! ## The invariant -/

/-- The handler awaits the same channels, and puts a frame on the wire if the other does. -/
structure Call.Continues (before after : Call) : Prop where
  entry : after.entry = before.entry
  channels : after.task.channels = before.task.channels
  sends : ∀ uuid number, after.task = .sending uuid number → before.task = .sending uuid number

theorem Call.Continues.refl (call : Call) : call.Continues call := ⟨rfl, rfl, fun _ _ h => h⟩

theorem Owned.handled (h : Owned s) (hpeer : s.peer = some peer) (hpeer' : t.peer = some peer') (hentry : peer'.entry = peer.entry)
    (hmade : t.channels = s.channels ∧ t.offeredTo = s.offeredTo ∧ t.entries = s.entries ∧ t.wire = s.wire)
    (hcount : s.spawned ≤ t.spawned) (hchannels : ∀ c ∈ peer'.channels, s.Given peer.entry c)
    (hnumber : ∀ session, peer'.media = some session → session.number < t.sessions)
    (hcalls : ∀ i call, t.calls i = some call → (∃ before, s.calls i = some before ∧ before.Continues call) ∨
      i < t.spawned ∧ call.entry = peer.entry ∧ ∀ c ∈ call.task.channels, s.Given peer.entry c)
    (hfitting : Fitting peer' t.calls) : Owned t := by
  obtain ⟨hchannel, hoffered, hentries, hwire⟩ := hmade
  have hgiven (entry c : Nat) : t.Given entry c ↔ s.Given entry c := by rw [State.Given, State.Given, hchannel, hoffered]
  constructor
  · constructor
    · intro i call hi
      rcases hcalls i call hi with ⟨before, hbefore, -⟩ | ⟨hlt, -⟩
      · exact (h.offered.bound i before hbefore).trans_le hcount
      · exact hlt
    · intro p hp
      obtain rfl := Option.mem_unique hpeer' hp
      rw [hentry, hentries]
      exact h.offered.entry peer hpeer
    · intro p hp c hc
      obtain rfl := Option.mem_unique hpeer' hp
      rw [hgiven, hentry]
      exact hchannels c hc
    · intro i call hi
      rw [hentries]
      rcases hcalls i call hi with ⟨before, hbefore, hcontinues⟩ | ⟨-, hnew, -⟩
      · rw [hcontinues.entry]
        exact h.offered.begun i before hbefore
      · rw [hnew]
        exact h.offered.entry peer hpeer
    · intro i call hi c hc
      rw [hgiven]
      rcases hcalls i call hi with ⟨before, hbefore, hcontinues⟩ | ⟨-, hnew, hnewc⟩
      · rw [hcontinues.entry]
        exact h.offered.calls i before hbefore c (by rwa [← hcontinues.channels])
      · rw [hnew]
        exact hnewc c hc
    · intro p session hp hsession
      obtain rfl := Option.mem_unique hpeer' hp
      exact hnumber session hsession
  · intro p hp
    obtain rfl := Option.mem_unique hpeer' hp
    exact hfitting
  · intro i call uuid number hi htask
    refine ⟨peer', hpeer', ?_⟩
    rw [hentry]
    rcases hcalls i call hi with ⟨before, hbefore, hcontinues⟩ | ⟨-, hnew, -⟩
    · obtain ⟨p, hp, hsame⟩ := h.sends i before uuid number hbefore (hcontinues.sends uuid number htask)
      obtain rfl := Option.mem_unique hpeer hp
      rw [hcontinues.entry, hsame]
    · exact hnew
  · rw [hwire]
    exact h.wire

theorem Owned.calls (h : Owned s) (calls' : Nat → Option Call)
    (hback : ∀ i call, calls' i = some call → ∃ before, s.calls i = some before ∧ before.Continues call)
    (hfitting' : ∀ peer, s.peer = some peer → Fitting peer calls') : Owned { s with calls := calls' } := by
  obtain ⟨⟨hbound, hentry, hpeer, hbegun, hcalls, hnumber⟩, -, hsends, hwire⟩ := h
  constructor
  · constructor
    · intro i call hi
      obtain ⟨before, hbefore, -⟩ := hback i call hi
      exact hbound i before hbefore
    · exact hentry
    · exact hpeer
    · intro i call hi
      obtain ⟨before, hbefore, hcontinues⟩ := hback i call hi
      rw [hcontinues.entry]
      exact hbegun i before hbefore
    · intro i call hi c hc
      obtain ⟨before, hbefore, hcontinues⟩ := hback i call hi
      rw [hcontinues.channels] at hc
      rw [hcontinues.entry]
      exact hcalls i before hbefore c hc
    · exact hnumber
  · exact hfitting'
  · intro i call uuid number hi htask
    obtain ⟨before, hbefore, hcontinues⟩ := hback i call hi
    rw [hcontinues.entry]
    exact hsends i before uuid number hbefore (hcontinues.sends uuid number htask)
  · exact hwire

theorem Owned.same (h : Owned s) : Owned { s with sessions := s.sessions + 1 } := by
  obtain ⟨⟨hbound, hentry, hpeer, hbegun, hcalls, hnumber⟩, hfitting, hsends, hwire⟩ := h
  exact ⟨⟨hbound, hentry, hpeer, hbegun, hcalls, fun p session hp hsession => Nat.lt_succ_of_lt (hnumber p session hp hsession)⟩,
    hfitting, hsends, hwire⟩

theorem mem_channels_udp (hc : c ∈ peer.udp.channels) : c ∈ peer.channels := List.mem_append_left _ hc

theorem mem_channels_media {session : PeerMediaSession} (hmedia : peer.media = some session) (hc : c ∈ session.channels) :
    c ∈ peer.channels := by
  refine List.mem_append_right _ ?_
  rw [hmedia]
  exact hc

theorem mem_channels (hc : c ∈ peer.channels) :
    c ∈ peer.udp.channels ∨ ∃ session, peer.media = some session ∧ c ∈ session.channels := by
  refine (List.mem_append.mp hc).imp_right fun hc => ?_
  cases hmedia : peer.media with
  | none =>
    rw [hmedia] at hc
    exact absurd hc List.not_mem_nil
  | some session =>
    rw [hmedia] at hc
    exact ⟨session, rfl, hc⟩

theorem Owned.commits (h : Owned s) (hpeer : s.peer = some peer) (hcommits : Commits peer peer' s.sessions channels)
    (hgiven : ∀ c ∈ channels, s.Given peer.entry c) {calls' : Nat → Option Call}
    (hsub : ∀ j call, calls' j = some call → s.calls j = some call)
    (hwaits : ∀ j call, calls' j = some call → call.entry = peer.entry → ¬ call.task.waits) :
    Owned { s with peer := some peer', calls := calls', sessions := s.sessions + 1 } := by
  have hfitting := (h.fitting peer hpeer).commits hcommits hsub hwaits
  obtain ⟨hentry, -, -, hending⟩ := hcommits
  refine h.handled hpeer rfl hentry ⟨rfl, rfl, rfl, rfl⟩ le_rfl (fun c hc => ?_) (fun session hsession => ?_)
    (fun i call hi => .inl ⟨call, hsub i call hi, .refl call⟩) hfitting
  · rcases hending with ⟨hmedia, -, hudp⟩ | ⟨-, tx, rx, owner, htx, hrx, hudp, hmedia⟩
    · rcases mem_channels hc with hc | ⟨session, hsession, hc⟩
      · exact hgiven c (hudp c hc)
      · exact h.offered.peer peer hpeer c (mem_channels_media (hmedia.symm.trans hsession) hc)
    · rcases mem_channels hc with hc | ⟨session, hsession, hc⟩
      · rw [hudp] at hc
        rw [List.mem_singleton.mp hc]
        exact hgiven tx htx
      · rw [← Option.mem_unique hmedia hsession] at hc
        rcases List.mem_cons.mp hc with rfl | hc
        · exact hgiven _ htx
        · rw [List.mem_singleton.mp hc]
          exact hgiven rx hrx
  · rcases hending with ⟨hmedia, -, -⟩ | ⟨-, tx, rx, owner, -, -, -, hmedia⟩
    · exact Nat.lt_succ_of_lt (h.offered.number peer session hpeer (hmedia.symm.trans hsession))
    · rw [← Option.mem_unique hmedia hsession]
      exact Nat.lt_succ_self _

/-! ## The handlers -/

theorem withPeer_some (hpeer : s.peer = some peer) (f : PeerConnection → PeerConnection) :
    s.withPeer f = { s with peer := some (f peer), sessions := s.sessions + 1 } := by
  simp only [State.withPeer, hpeer, Option.map_some]

theorem Owned.same_peer (h : Owned s) (hpeer : s.peer = some peer) :
    Owned { s with peer := some peer, sessions := s.sessions + 1 } := by
  rw [← hpeer]
  exact h.same

variable {call : Call} {calls : Nat → Option Call} {accepted : Bool} {i : Nat}

theorem Fitting.not_waits (h : Fitting peer calls) (hudp : peer.udp ≠ .opening) {j : Nat} (hj : calls j = some call)
    (hentry : call.entry = peer.entry) : ¬ call.task.waits := by
  intro hwait
  have hfits := h.fits j call hj hentry
  obtain ⟨entry, cancelled, task⟩ := call
  cases task with
  | awaiting uuid rxs generation => exact hudp hfits.1
  | closing session next => exact hwait
  | sending uuid number => exact hwait

theorem Fitting.sends (h : Fitting peer calls) {j : Nat} (hj : calls j = some call) (hentry : call.entry = peer.entry)
    {uuid number : Nat} (htask : call.task = .sending uuid number) :
    peer.media.map (·.owner) = some uuid := by
  have hfits := h.fits j call hj hentry
  rwa [Call.Fits, htask] at hfits

theorem Fitting.take {calls' : Nat → Option Call} (h : Fitting peer calls) (hnone : peer'.media = none)
    (hentry : peer'.entry = peer.entry) (hudp : peer'.udp = peer.udp)
    (hgeneration : peer'.mediaGeneration = peer.mediaGeneration + 1) (hpending : peer'.mediaPendingOwner = none)
    (hcalls : ∀ j call, calls' j = some call → (∃ before, calls j = some before ∧ call.entry = before.entry ∧ call.task = before.task) ∨ ∃ session next, call.task = .closing session next ∧ (∀ uuid generation, next = .rebuild uuid generation → generation = peer'.mediaGeneration ∧ call.cancelled = false))
    (hstill : ∀ j call uuid number, calls j = some call → call.task ≠ .sending uuid number) : Fitting peer' calls' := by
  constructor
  · intro j call hj hjentry
    rcases hcalls j call hj with ⟨before, hbefore, hsame, htask⟩ | ⟨session, next, htask, hnew⟩
    · rw [hentry, hsame] at hjentry
      have hfits := h.fits j before hbefore hjentry
      have hnot := hstill j before
      rw [Call.Fits] at hfits ⊢
      rw [htask]
      rcases before with ⟨entry, cancelled, task⟩
      cases task with
      | awaiting uuid rxs generation =>
        have hlt : generation < peer'.mediaGeneration := by
          rw [hgeneration]
          exact Nat.lt_succ_of_le hfits.2.1
        exact ⟨hudp.trans hfits.1, hlt.le, .inr hlt, fun _ => hlt⟩
      | closing session next =>
        cases next with
        | park => trivial
        | rebuild uuid generation =>
          have hlt : generation < peer'.mediaGeneration := by
            rw [hgeneration]
            exact Nat.lt_succ_of_le hfits.1
          exact ⟨hlt.le, fun _ => .inl hlt⟩
      | sending uuid number => exact absurd rfl (hnot uuid number hbefore)
    · rw [Call.Fits, htask]
      cases next with
      | park => trivial
      | rebuild uuid generation =>
        obtain ⟨hgen, hcancelled⟩ := hnew uuid generation rfl
        refine ⟨hgen.le, fun hc => ?_⟩
        rw [hcancelled] at hc
        exact nomatch hc
  · exact fun uuid hsome => nomatch hpending.symm.trans hsome
  · intro j k a b hj hk ha hb hwait hwait'
    have hold {j : Nat} {a : Call} (hj : calls' j = some a) (hwait : a.task.waits) :
        ∃ before, calls j = some before ∧ a.entry = before.entry ∧ a.task = before.task := by
      refine (hcalls j a hj).resolve_right fun ⟨session, next, htask, _⟩ => ?_
      rw [htask] at hwait
      exact hwait
    obtain ⟨a', ha', haentry, hatask⟩ := hold hj hwait
    obtain ⟨b', hb', hbentry, hbtask⟩ := hold hk hwait'
    refine h.one j k a' b' ha' hb' (haentry.symm.trans (ha.trans hentry)) (hbentry.symm.trans (hb.trans hentry)) ?_ ?_
    · rwa [← hatask]
    · rwa [← hbtask]
  · exact fun _ => hnone

theorem owned_mediaOpen (h : Owned s) (hmet : s.Orderly (.mediaOpen uuid accepted)) :
    Owned (s.step (.mediaOpen uuid accepted)) := by
  rcases none_or_peer s with hnone | ⟨peer, hpeer⟩
  · rwa [step_mediaOpen_none hnone]
  rw [step_mediaOpen hpeer, withPeer_some hpeer]
  have hfitting := h.fitting peer hpeer
  have hgiven := h.offered.peer peer hpeer
  -- a handler that begins is on the entry
  have hspawned (new : Call) (hentry : new.entry = peer.entry) (hchannels : ∀ c ∈ new.task.channels, c ∈ peer.channels) (i : Nat)
      (call : Call) (hi : update s.calls s.spawned (some new) i = some call) :
      (∃ before, s.calls i = some before ∧ before.Continues call) ∨
        i < s.spawned + 1 ∧ call.entry = peer.entry ∧ ∀ c ∈ call.task.channels, s.Given peer.entry c := by
    rcases of_update_some hi with ⟨rfl, rfl⟩ | ⟨-, hi⟩
    · exact .inr ⟨Nat.lt_succ_self _, hentry, fun c hc => hgiven c (hchannels c hc)⟩
    · exact .inl ⟨call, hi, .refl call⟩
  have hfinds := openPath_finds peer uuid accepted s.sessions
  generalize openPath peer uuid accepted s.sessions = result at hfinds ⊢
  cases hfinds with
  | same => exact h.same_peer hpeer
  | pending rxs hmedia hudp =>
    have hnotOpening : peer.udp ≠ .opening := by simp [hudp]
    refine h.handled hpeer rfl rfl ⟨rfl, rfl, rfl, rfl⟩ (Nat.le_succ _) (fun c hc => ?_) (fun session hsession => ?_)
      (hspawned _ rfl fun c hc => mem_channels_udp (by rwa [hudp])) ⟨?_, ?_, ?_, fun _ => hmedia⟩
    · rcases mem_channels hc with hc | ⟨session, hsession, -⟩
      · exact absurd hc List.not_mem_nil
      · exact nomatch hmedia.symm.trans hsession
    · exact nomatch hmedia.symm.trans hsession
    · intro j call hj hjentry
      rcases of_update_some hj with ⟨rfl, rfl⟩ | ⟨-, hj⟩
      · exact ⟨rfl, le_rfl, .inl rfl, nofun⟩
      · have hfits := hfitting.fits j call hj hjentry
        have hnot := hfitting.not_waits hnotOpening hj hjentry
        obtain ⟨entry, cancelled, task⟩ := call
        cases task with
        | awaiting uuid' rxs' generation => exact absurd trivial hnot
        | closing session next =>
          cases next with
          | park => trivial
          | rebuild uuid' generation => exact ⟨hfits.1, fun _ => .inr (.inr fun tx h => nomatch h)⟩
        | sending uuid' number =>
          replace hfits : peer.media.map (·.owner) = some uuid' := hfits
          rw [hmedia] at hfits
          exact nomatch hfits
    · intro owner hsome
      obtain rfl := Option.some.inj hsome
      exact ⟨s.spawned, _, rxs, peer.mediaGeneration, update_self .., rfl, rfl⟩
    · intro j k a b hj hk ha hb hwait hwait'
      have honly {j : Nat} {a : Call}
          (hj : update s.calls s.spawned (some ⟨peer.entry, false, .awaiting uuid rxs peer.mediaGeneration⟩) j = some a)
          (ha : a.entry = peer.entry) (hwait : a.task.waits) : j = s.spawned := by
        rcases of_update_some hj with ⟨hj, -⟩ | ⟨-, hj⟩
        · exact hj
        · exact absurd hwait (hfitting.not_waits hnotOpening hj ha)
      rw [honly hj ha hwait, honly hk hb hwait']
  | idle tx rx hmedia hudp =>
    have hnotOpening : peer.udp ≠ .opening := by simp [hudp]
    refine h.commits hpeer (startSession_commits hmedia (hfitting.unclaimed hnotOpening) tx rx uuid accepted s.sessions) (fun c hc => ?_)
      (fun j call hj => hj) fun j call hj hentry => hfitting.not_waits hnotOpening hj hentry
    exact hgiven c (mem_channels_udp (by rwa [hudp]))
  | stale session hmedia hnot =>
    have hstill : s.Still := (hmet peer session hpeer hmedia).resolve_left hnot
    have hnotOpening : peer.udp ≠ .opening := fun h => nomatch hmedia.symm.trans (hfitting.closed h)
    refine h.handled hpeer rfl rfl ⟨rfl, rfl, rfl, rfl⟩ (Nat.le_succ _) (fun c hc => ?_) (fun session hsession => nomatch hsession)
      (hspawned _ rfl fun c hc => mem_channels_media hmedia hc)
      (hfitting.take rfl rfl rfl rfl (hfitting.unclaimed hnotOpening) (fun j call hj => ?_) fun j call uuid number hj =>
        hstill j call uuid number hj)
    · rcases mem_channels hc with hc | ⟨session, hsession, -⟩
      · exact hgiven c (mem_channels_udp hc)
      · exact nomatch hsession
    · rcases of_update_some hj with ⟨-, rfl⟩ | ⟨-, hj⟩
      · exact .inr ⟨session, _, rfl, fun uuid generation hnext => ⟨(After.rebuild.inj hnext).2.symm, rfl⟩⟩
      · exact .inl ⟨call, hj, rfl, rfl⟩

theorem Fitting.finish (h : Fitting peer calls)
    (hnot : ∀ call, calls i = some call → call.entry = peer.entry → ¬ call.task.waits) : Fitting peer (update calls i none) := by
  constructor
  · exact fun j call hj => h.fits j call (of_update_none hj).2
  · intro uuid hpending
    obtain ⟨j, call, rxs, generation, hj, hentry, htask⟩ := h.waits uuid hpending
    have hji : j ≠ i := by
      rintro rfl
      refine hnot call hj hentry ?_
      rw [htask]
      trivial
    exact ⟨j, call, rxs, generation, by rwa [update_of_ne hji], hentry, htask⟩
  · exact fun j k a b hj hk => h.one j k a b (of_update_none hj).2 (of_update_none hk).2
  · exact h.closed

theorem Owned.finish (h : Owned s)
    (hnot : ∀ peer call, s.peer = some peer → s.calls i = some call → call.entry = peer.entry → ¬ call.task.waits) :
    Owned { s with calls := update s.calls i none, sessions := s.sessions + 1 } := by
  refine (h.calls _ (fun j call hj => ⟨call, (of_update_none hj).2, .refl call⟩) fun peer hpeer => ?_).same
  exact (h.fitting peer hpeer).finish fun call => hnot peer call hpeer

theorem Owned.finish_withPeer (h : Owned s) {f : PeerConnection → PeerConnection}
    (hsame : ∀ peer, s.peer = some peer → f peer = peer)
    (hnot : ∀ peer call, s.peer = some peer → s.calls i = some call → call.entry = peer.entry → ¬ call.task.waits) :
    Owned ((s.finish i).withPeer f) := by
  have hmap : s.peer.map f = s.peer := by
    rcases none_or_peer s with hnone | ⟨peer, hpeer⟩
    · rw [hnone]
      rfl
    · rw [hpeer, Option.map_some, hsame peer hpeer]
  have hstep : (s.finish i).withPeer f = { s with calls := update s.calls i none, sessions := s.sessions + 1 } := by
    simp only [State.withPeer, State.finish, hmap]
  rw [hstep]
  exact h.finish hnot

theorem finishFirstOpen_other (hudp : peer.udp ≠ .opening) (hpending : peer.mediaPendingOwner = none) (uuid : Uuid) (rxs : List Nat)
    (outcome : ChannelOutcome) (generation : Nat) (accepted : Bool) (number : Nat) :
    finishFirstOpen peer uuid rxs outcome generation accepted number = peer := by
  have hnot : peer.mediaPendingOwner ≠ some uuid := by
    rw [hpending]
    exact nofun
  simp only [finishFirstOpen, if_neg hnot]
  rw [if_pos (.inr hudp), if_neg hudp]

theorem Fitting.claimant (h : Fitting peer calls) (hi : calls i = some call) (hentry : call.entry = peer.entry) {rxs : List Nat}
    {generation : Nat} (htask : call.task = .awaiting uuid rxs generation) {owner : Uuid}
    (hsome : peer.mediaPendingOwner = some owner) : owner = uuid := by
  obtain ⟨j, call', rxs', generation', hj, hentry', htask'⟩ := h.waits owner hsome
  have hwait : call.task.waits := by
    rw [htask]
    trivial
  have hwait' : call'.task.waits := by
    rw [htask']
    trivial
  obtain rfl := h.one i j call call' hi hj hentry hentry' hwait hwait'
  rw [Option.mem_unique hi hj, htask'] at htask
  exact (Task.awaiting.inj htask).1

theorem owned_finishOpen (h : Owned s) {first : Option Nat} (hmet : s.Orderly (.finishOpen i first accepted)) :
    Owned (s.step (.finishOpen i first accepted)) := by
  rcases finishOpen_cases s i first accepted with hsame | ⟨call, uuid, rxs, generation, hi, htask, hresolves⟩
  · rwa [hsame]
  rw [step_finishOpen hi htask hresolves]
  have hwait : call.task.waits := by
    rw [htask]
    trivial
  by_cases hown : ∃ peer, s.peer = some peer ∧ call.entry = peer.entry
  · obtain ⟨peer, hpeer, hentry⟩ := hown
    have hfitting := h.fitting peer hpeer
    have hfits := hfitting.fits i call hi hentry
    rw [Call.Fits, htask] at hfits
    have hpending (owner : Uuid) (hsome : peer.mediaPendingOwner = some owner) : owner = uuid := hfitting.claimant hi hentry htask hsome
    rw [withPeer_some (s := s.finish i) hpeer]
    refine h.commits hpeer (finishFirstOpen_commits hfits.1 (hfitting.closed hfits.1) hpending (outcome_sub hresolves) generation accepted
      s.sessions) (fun c hc => ?_) (fun j call' hj => (of_update_none hj).2) fun j call' hj hentry' hwait' => ?_
    · rw [← hentry]
      exact h.offered.calls i call hi c (by rwa [htask])
    · obtain ⟨hji, hj⟩ := of_update_none hj
      exact hji (hfitting.one j i call' call hj hi hentry' hentry hwait' hwait)
  · have hother {peer : PeerConnection} (hpeer : s.peer = some peer) : call.entry ≠ peer.entry := fun h => hown ⟨peer, hpeer, h⟩
    refine h.finish_withPeer (fun peer hpeer => ?_) fun peer call' hpeer hi' hentry => ?_
    · have hudp := hmet peer call hpeer hi (hother hpeer) hwait
      exact finishFirstOpen_other hudp ((h.fitting peer hpeer).unclaimed hudp) _ _ _ _ _ _
    · obtain rfl := Option.mem_unique hi hi'
      exact absurd hentry (hother hpeer)

theorem owned_settle (h : Owned s) (hmet : s.Orderly (.settle i accepted)) :
    Owned (s.step (.settle i accepted)) := by
  rcases settle_cases s i accepted with hsame | ⟨call, session, next, hi, htask⟩
  · rwa [hsame]
  rw [step_settle hi htask]
  have hnot : ¬ call.task.waits := by
    rw [htask]
    exact id
  by_cases hown : ∃ peer tx, s.peer = some peer ∧ call.entry = peer.entry ∧ peer.udp = .lent tx
  · obtain ⟨peer, tx, hpeer, hentry, hudp⟩ := hown
    have hfitting := h.fitting peer hpeer
    have hnotOpening : peer.udp ≠ .opening := by
      rw [hudp]
      exact nofun
    rw [withPeer_some (s := s.finish i) hpeer]
    refine h.commits hpeer (settle_commits hudp (hfitting.unclaimed hnotOpening) session next accepted s.sessions) (fun c hc => ?_)
      (fun j call' hj => (of_update_none hj).2) fun j call' hj hentry' => hfitting.not_waits hnotOpening (of_update_none hj).2 hentry'
    rcases List.mem_cons.mp hc with rfl | hc
    · exact h.offered.peer peer hpeer _ (mem_channels_udp (by rw [hudp]; exact List.mem_singleton_self _))
    · rw [← hentry]
      refine h.offered.calls i call hi c ?_
      rw [htask, List.mem_singleton.mp hc]
      exact List.mem_cons_of_mem _ (List.mem_singleton_self _)
  · refine h.finish_withPeer (fun peer hpeer => settle_other (fun tx hudp => ?_) next _ accepted _) fun peer call' hpeer hi' hentry => ?_
    · by_cases hentry : call.entry = peer.entry
      · exact hown ⟨peer, tx, hpeer, hentry, hudp⟩
      · exact hmet peer call session next hpeer hi hentry htask tx hudp
    · rwa [← Option.mem_unique hi hi']

theorem cancelledBy_entry (uuid : Uuid) (call : Call) : (call.cancelledBy uuid).entry = call.entry := by
  rw [Call.cancelledBy]
  split
  · rfl
  · rfl

theorem cancelledBy_cancelled (uuid : Uuid) (call : Call) (h : (call.cancelledBy uuid).cancelled = true) :
    call.cancelled = true ∨ call.task.opener = some uuid := by
  rw [Call.cancelledBy] at h
  split at h
  case isTrue hopener => exact .inr hopener
  case isFalse => exact .inl h

/-- The handlers as the window's close leaves them. -/
def State.marked (s : State) (uuid : Uuid) (i : Nat) : Option Call := (s.calls i).map (Call.cancelledBy uuid)

theorem marked_of (h : s.marked uuid i = some call) :
    ∃ before, s.calls i = some before ∧ call = before.cancelledBy uuid ∧ call.entry = before.entry ∧ call.task = before.task := by
  obtain ⟨before, hbefore, rfl⟩ := Option.map_eq_some_iff.mp h
  exact ⟨before, hbefore, rfl, cancelledBy_entry uuid before, cancelledBy_task uuid before⟩

theorem step_mediaClose (s : State) (uuid : Uuid) :
    (∃ peer after session, s.peer = some peer ∧ handleClose peer uuid = some (after, session) ∧ s.step (.mediaClose uuid) =
      ({ s with calls := s.marked uuid, peer := some after } : State).spawn peer.entry (session.map (.closing · .park))) ∨
    (∀ peer, s.peer = some peer → handleClose peer uuid = none) ∧ s.step (.mediaClose uuid) = { s with calls := s.marked uuid } := by
  rcases none_or_peer s with hnone | ⟨peer, hpeer⟩
  · refine .inr ⟨fun peer hpeer => (nomatch hnone.symm.trans hpeer), ?_⟩
    simp only [State.step, hnone]
    rw [← hnone]
    rfl
  · rcases Option.eq_none_or_eq_some (handleClose peer uuid) with hclose | ⟨⟨after, session⟩, hclose⟩
    · refine .inr ⟨fun peer' hpeer' => ?_, ?_⟩
      · rwa [← Option.mem_unique hpeer hpeer']
      · simp only [State.step, hpeer, hclose]
        rw [← hpeer]
        rfl
    · refine .inl ⟨peer, after, session, hpeer, hclose, ?_⟩
      simp only [State.step, hpeer, hclose]
      rfl

theorem not_authorised (h : handleClose peer uuid = none) :
    peer.media ≠ none ∨ ∃ owner, peer.mediaPendingOwner = some owner ∧ owner ≠ uuid := by
  have hclose : closeAuthorised (peer.media.map (·.owner)) peer.mediaPendingOwner uuid = false := by
    rw [handleClose] at h
    split at h
    · cases h
    case isFalse hnot => exact Bool.eq_false_iff.mpr hnot
  rcases Option.eq_none_or_eq_some peer.media with hmedia | ⟨session, hmedia⟩
  · rw [hmedia] at hclose
    rcases Option.eq_none_or_eq_some peer.mediaPendingOwner with hpending | ⟨owner, hpending⟩
    · rw [hpending] at hclose
      cases hclose
    · rw [hpending] at hclose
      exact .inr ⟨owner, hpending, of_decide_eq_false hclose⟩
  · exact .inl fun hnone => by cases hnone.symm.trans hmedia

theorem authorised_owner {result : PeerConnection × Option PeerMediaSession} (h : handleClose peer uuid = some result)
    {session : PeerMediaSession} (hmedia : peer.media = some session) : session.owner = uuid := by
  rw [handleClose, hmedia] at h
  split at h
  case isTrue howner => exact of_decide_eq_true howner
  case isFalse => cases h

theorem Fitting.marked (h : Fitting peer s.calls) (hclose : handleClose peer uuid = none) :
    Fitting peer (s.marked uuid) := by
  constructor
  · intro i call hi hentry
    obtain ⟨before, hbefore, rfl, hsame, htask⟩ := marked_of hi
    have hbentry : before.entry = peer.entry := hsame.symm.trans hentry
    have hfits := h.fits i before hbefore hbentry
    have hcancel := cancelledBy_cancelled uuid before
    rw [Call.Fits] at hfits ⊢
    rw [htask]
    cases hkind : before.task with
    | awaiting owner rxs generation =>
      rw [hkind] at hfits hcancel
      obtain ⟨hudp, hle, hclaim, hearlier⟩ := hfits
      refine ⟨hudp, hle, hclaim, fun hc => ?_⟩
      rcases hcancel hc with hc | hopener
      · exact hearlier hc
      · refine hclaim.resolve_left fun hpending => ?_
        rcases not_authorised hclose with hsome | ⟨other, hother, hne⟩
        · exact hsome (h.closed hudp)
        · rw [Option.mem_unique hother hpending] at hne
          exact hne (Option.some.inj hopener)
    | closing session next =>
      rw [hkind] at hfits hcancel
      cases next with
      | park => trivial
      | rebuild owner generation =>
        refine ⟨hfits.1, fun hc => ?_⟩
        rcases hcancel hc with hc | -
        · exact hfits.2 hc
        · refine .inr ?_
          rcases not_authorised hclose with hsome | ⟨other, hother, -⟩
          · exact .inl hsome
          · obtain ⟨j, waiting, rxs, generation', hj, hjentry, hjtask⟩ := h.waits other hother
            have hwaiting := h.fits j waiting hj hjentry
            rw [Call.Fits, hjtask] at hwaiting
            refine .inr fun tx hlent => ?_
            exact nomatch hwaiting.1.symm.trans hlent
    | sending owner number =>
      rw [hkind] at hfits
      exact hfits
  · intro owner hpending
    obtain ⟨i, call, rxs, generation, hi, hentry, htask⟩ := h.waits owner hpending
    refine ⟨i, call.cancelledBy uuid, rxs, generation, ?_, (cancelledBy_entry uuid call).trans hentry, (cancelledBy_task uuid call).trans htask⟩
    rw [State.marked, hi]
    rfl
  · intro i j a b hi hj ha hb hwait hwait'
    obtain ⟨a', ha', -, haentry, hatask⟩ := marked_of hi
    obtain ⟨b', hb', -, hbentry, hbtask⟩ := marked_of hj
    exact h.one i j a' b' ha' hb' (haentry.symm.trans ha) (hbentry.symm.trans hb) (by rwa [← hatask]) (by rwa [← hbtask])
  · exact h.closed

theorem marked_continues (h : s.marked uuid i = some call) :
    ∃ before, s.calls i = some before ∧ before.Continues call := by
  obtain ⟨before, hbefore, -, hentry, htask⟩ := marked_of h
  exact ⟨before, hbefore, hentry, by rw [htask], fun _ _ hsending => htask.symm.trans hsending⟩

theorem owned_mediaClose (h : Owned s) (hmet : s.Orderly (.mediaClose uuid)) : Owned (s.step (.mediaClose uuid)) := by
  rcases step_mediaClose s uuid with ⟨peer, after, session, hpeer, hclose, hstep⟩ | ⟨hnot, hstep⟩
  · rw [hstep]
    have hfitting := h.fitting peer hpeer
    obtain ⟨rfl, hafter⟩ := handleClose_spec hclose
    have hnone : after.media = none := by rw [hafter]
    have hentry : after.entry = peer.entry := by rw [hafter]
    have hudp : after.udp = peer.udp := by rw [hafter]
    -- a frame on its way would be to this session
    have hstill : ∀ j call owner number, s.calls j = some call → call.task ≠ .sending owner number := by
      intro j call owner number hj htask
      obtain ⟨peer', hpeer', hjentry⟩ := h.sends j call owner number hj htask
      obtain rfl := Option.mem_unique hpeer hpeer'
      have howner := hfitting.sends hj hjentry htask
      obtain ⟨session, hmedia, rfl⟩ := Option.map_eq_some_iff.mp howner
      have hown : peer.media.map (·.owner) = some uuid := by
        rw [hmedia, Option.map_some, authorised_owner hclose hmedia]
      exact (hmet peer hpeer).1 hown j call _ number hj htask
    have hold {j : Nat} {call : Call} (hj : s.marked uuid j = some call) :
        ∃ before, s.calls j = some before ∧ call.entry = before.entry ∧ call.task = before.task := by
      obtain ⟨before, hbefore, -, hsame, htask⟩ := marked_of hj
      exact ⟨before, hbefore, hsame, htask⟩
    have hchannels (c : Nat) (hc : c ∈ after.channels) : s.Given peer.entry c := by
      rcases mem_channels hc with hc | ⟨session, hsession, -⟩
      · rw [hudp] at hc
        exact h.offered.peer peer hpeer c (mem_channels_udp hc)
      · exact nomatch hnone.symm.trans hsession
    rcases Option.eq_none_or_eq_some peer.media with hmedia | ⟨live, hmedia⟩
    · rw [hmedia]
      exact h.handled hpeer rfl hentry ⟨rfl, rfl, rfl, rfl⟩ le_rfl hchannels (fun session hsession => nomatch hnone.symm.trans hsession)
        (fun j call hj => .inl (marked_continues hj))
        (hfitting.take hnone hentry hudp (by rw [hafter]) (by rw [hafter]) (fun j call hj => .inl (hold hj)) hstill)
    · rw [hmedia]
      refine h.handled hpeer rfl hentry ⟨rfl, rfl, rfl, rfl⟩ (Nat.le_succ _) hchannels
        (fun session hsession => nomatch hnone.symm.trans hsession) (fun j call hj => ?_)
        (hfitting.take hnone hentry hudp (by rw [hafter]) (by rw [hafter]) (fun j call hj => ?_) hstill)
      · rcases of_update_some hj with ⟨rfl, rfl⟩ | ⟨-, hj⟩
        · exact .inr ⟨Nat.lt_succ_self _, rfl, fun c hc => h.offered.peer peer hpeer c (mem_channels_media hmedia hc)⟩
        · exact .inl (marked_continues hj)
      · rcases of_update_some hj with ⟨rfl, rfl⟩ | ⟨-, hj⟩
        · exact .inr ⟨live, .park, rfl, fun _ _ hnext => nomatch hnext⟩
        · exact .inl (hold hj)
  · rw [hstep]
    exact h.calls _ (fun i call hi => marked_continues hi) fun peer hpeer => (h.fitting peer hpeer).marked (hnot peer hpeer)

/-! ## Frames -/

theorem Fitting.send {n : Nat} (h : Fitting peer calls) (hn : calls n = none) (howner : peer.media.map (·.owner) = some uuid)
    (number : Nat) :
    Fitting peer (update calls n (some ⟨peer.entry, false, .sending uuid number⟩)) := by
  constructor
  · intro j call hj hentry
    rcases of_update_some hj with ⟨-, rfl⟩ | ⟨-, hj⟩
    · exact howner
    · exact h.fits j call hj hentry
  · intro owner hpending
    obtain ⟨j, call, rxs, generation, hj, hentry, htask⟩ := h.waits owner hpending
    refine ⟨j, call, rxs, generation, ?_, hentry, htask⟩
    rw [update_of_ne, hj]
    rintro rfl
    exact nomatch hn.symm.trans hj
  · intro j k a b hj hk ha hb hwait hwait'
    have hold {j : Nat} {a : Call} (hj : update calls n (some ⟨peer.entry, false, .sending uuid number⟩) j = some a)
        (hwait : a.task.waits) : calls j = some a := by
      rcases of_update_some hj with ⟨-, rfl⟩ | ⟨-, hj⟩
      · exact hwait.elim
      · exact hj
    exact h.one j k a b (hold hj hwait) (hold hk hwait') ha hb hwait hwait'
  · exact h.closed

theorem Offered.free (h : Offered s) : s.calls s.spawned = none := by
  cases hcall : s.calls s.spawned with
  | none => rfl
  | some call => exact absurd (h.bound _ call hcall) (Nat.lt_irrefl _)

theorem owned_mediaSend (h : Owned s) (uuid : Uuid) : Owned (s.step (.mediaSend uuid)) := by
  simp only [State.step]
  rcases none_or_peer s with hnone | ⟨peer, hpeer⟩
  · simp only [hnone]
    exact h
  simp only [hpeer]
  split
  case h_2 => exact h
  case h_1 session hmedia =>
    by_cases hsend : sendAuthorised (some session.owner) uuid
    · rw [if_pos hsend]
      have howner : peer.media.map (·.owner) = some uuid := by
        rw [hmedia]
        exact of_decide_eq_true hsend
      refine h.handled hpeer hpeer rfl ⟨rfl, rfl, rfl, rfl⟩ (Nat.le_succ _) (h.offered.peer peer hpeer)
        (fun session hsession => h.offered.number peer session hpeer hsession) (fun j call hj => ?_)
        ((h.fitting peer hpeer).send h.offered.free howner session.number)
      rcases of_update_some hj with ⟨rfl, rfl⟩ | ⟨-, hj⟩
      · exact .inr ⟨Nat.lt_succ_self _, rfl, fun c hc => absurd hc List.not_mem_nil⟩
      · exact .inl ⟨call, hj, .refl call⟩
    · rw [if_neg hsend]
      exact h

theorem owned_sendFrame (h : Owned s) (i : Nat) : Owned (s.step (.sendFrame i)) := by
  simp only [State.step]
  split
  case h_2 => exact h
  case h_1 entry cancelled uuid number hi =>
    obtain ⟨peer, hpeer, hentry⟩ := h.sends i _ uuid number hi rfl
    have howner : (s.peer.bind (·.media)).map (·.owner) = some uuid := by
      rw [hpeer]
      exact (h.fitting peer hpeer).sends hi hentry rfl
    have hfinish := h.calls (update s.calls i none) (fun j call hj => ⟨call, (of_update_none hj).2, .refl call⟩)
      fun p hp => (h.fitting p hp).finish fun call hi' _ => ?_
    · obtain ⟨⟨hbound, hentry, hpeer', hbegun, hcalls, hnumber⟩, hfitting, hsends, hwire⟩ := hfinish
      refine ⟨⟨hbound, hentry, hpeer', hbegun, hcalls, hnumber⟩, hfitting, hsends, fun frame hframe => ?_⟩
      rcases List.mem_cons.mp hframe with rfl | hframe
      · exact howner
      · exact hwire frame hframe
    · rw [← Option.mem_unique hi hi']
      exact id

/-! ## The SDK's part -/

theorem Owned.arrive (h : Owned s) (status : Status) (entry : Nat) : Owned (s.arrive status entry) := by
  have hgiven (entry' c : Nat) (hc : s.Given entry' c) : (s.arrive status entry).Given entry' c := by
    have hne : c ≠ s.channels := Nat.ne_of_lt hc.1
    exact ⟨Nat.lt_succ_of_lt hc.1, (update_of_ne hne ..).trans hc.2⟩
  obtain ⟨⟨hbound, hentry, hpeer, hbegun, hcalls, hnumber⟩, hfitting, hsends, hwire⟩ := h
  exact ⟨⟨hbound, hentry, fun p hp c hc => hgiven _ _ (hpeer p hp c hc), hbegun, fun i call hi c hc => hgiven _ _ (hcalls i call hi c hc),
    hnumber⟩, hfitting, hsends, hwire⟩

theorem given_arrived (s : State) (status : Status) (entry : Nat) : (s.arrive status entry).Given entry s.channels :=
  ⟨Nat.lt_succ_self _, update_self ..⟩

theorem Owned.world (h : Owned s) (status : Nat → Status) (superseded : List Nat) :
    Owned { s with status := status, superseded := superseded } := by
  obtain ⟨⟨hbound, hentry, hpeer, hbegun, hcalls, hnumber⟩, hfitting, hsends, hwire⟩ := h
  exact ⟨⟨hbound, hentry, hpeer, hbegun, hcalls, hnumber⟩, hfitting, hsends, hwire⟩

theorem offer_channels (udp : UdpState) (c : Nat) : (udp.offer c).rests ∧ ∀ o ∈ (udp.offer c).channels, o ∈ udp.channels ∨ o = c := by
  cases udp with
  | pending offers => exact ⟨rests_pending _, fun o ho => (List.mem_append.mp ho).imp_right List.mem_singleton.mp⟩
  | _ => exact ⟨rests_pending _, fun o ho => .inr (List.mem_singleton.mp ho)⟩

theorem Owned.offer (h : Owned s) (hpeer : s.peer = some peer) (hudp : peer.udp ≠ .opening) (status : Status) :
    Owned { s.arrive status peer.entry with peer := some { peer with udp := peer.udp.offer s.channels } } := by
  obtain ⟨hrests, hsub⟩ := offer_channels peer.udp s.channels
  have harrived := h.arrive status peer.entry
  have hfitting := h.fitting peer hpeer
  refine harrived.handled hpeer rfl rfl ⟨rfl, rfl, rfl, rfl⟩ le_rfl (fun c hc => ?_)
    (fun session hsession => harrived.offered.number peer session hpeer hsession) (fun i call hi => .inl ⟨call, hi, .refl call⟩)
    (hfitting.commits (commits_parked _ hrests (hfitting.unclaimed hudp) (fun c hc => hc) s.sessions) (fun j call hj => hj)
      fun j call hj hentry => hfitting.not_waits hudp hj hentry)
  rcases mem_channels hc with hc | ⟨session, hsession, hc⟩
  · rcases hsub c hc with hc | rfl
    · exact harrived.offered.peer peer hpeer c (mem_channels_udp hc)
    · exact given_arrived s status peer.entry
  · replace hsession : peer.media = some session := hsession
    exact harrived.offered.peer peer hpeer c (mem_channels_media hsession hc)

theorem Owned.with_peer (h : Owned s) (hpeer : s.peer = some peer) : Owned { s with peer := some peer } := by
  rw [← hpeer]
  exact h

theorem Owned.create (h : Owned s) (hnone : s.peer = none) (udp : UdpState) (hudp : udp ≠ .opening)
    (hgiven : ∀ c ∈ udp.channels, s.Given s.entries c) :
    Owned { s with peer := some ⟨s.entries, udp, none, 0, none⟩, entries := s.entries + 1 } := by
  obtain ⟨⟨hbound, hentry, hpeer, hbegun, hcalls, hnumber⟩, hfitting, hsends, hwire⟩ := h
  have hearlier {i : Nat} {call : Call} (hi : s.calls i = some call) : call.entry ≠ s.entries := Nat.ne_of_lt (hbegun i call hi)
  constructor
  · constructor
    · exact hbound
    · intro p hp
      obtain rfl := Option.some.inj hp
      exact Nat.lt_succ_self _
    · intro p hp c hc
      obtain rfl := Option.some.inj hp
      rcases mem_channels hc with hc | ⟨session, hsession, -⟩
      · exact hgiven c hc
      · exact nomatch hsession
    · exact fun i call hi => Nat.lt_succ_of_lt (hbegun i call hi)
    · exact hcalls
    · intro p session hp hsession
      obtain rfl := Option.some.inj hp
      exact nomatch hsession
  · intro p hp
    obtain rfl := Option.some.inj hp
    exact ⟨fun i call hi hsame => absurd hsame (hearlier hi), nofun,
      fun i j a b hi _ ha => absurd ha (hearlier hi), fun hopening => absurd hopening hudp⟩
  · intro i call uuid number hi htask
    obtain ⟨p, hp, -⟩ := hsends i call uuid number hi htask
    exact nomatch hnone.symm.trans hp
  · exact hwire

theorem owned_upsert (h : Owned s) (offer : Option Status) : Owned (s.step (.upsert offer)) := by
  rcases none_or_peer s with hnone | ⟨peer, hpeer⟩
  · cases offer with
    | none =>
      have hstep : s.step (.upsert none) =
          { s with peer := some ⟨s.entries, .unavailable, none, 0, none⟩, entries := s.entries + 1 } := by
        simp only [State.step, hnone, Option.map_none, UdpState.fromOptionalChannel]
      rw [hstep]
      exact h.create hnone _ (by rintro ⟨⟩) fun c hc => absurd hc List.not_mem_nil
    | some status =>
      have hstep : s.step (.upsert (some status)) = { s.arrive status s.entries with
          peer := some ⟨s.entries, .pending [s.channels], none, 0, none⟩, entries := s.entries + 1 } := by
        simp only [State.step, hnone, Option.map_some, UdpState.fromOptionalChannel]
      rw [hstep]
      refine (h.arrive status s.entries).create hnone _ (by rintro ⟨⟩) fun c hc => ?_
      rw [List.mem_singleton.mp hc]
      exact given_arrived s status s.entries
  · cases offer with
    | none =>
      rw [step_upsert_none hpeer]
      exact h.with_peer hpeer
    | some status =>
      by_cases hadopt : peer.media = none ∧ peer.udp ≠ .opening
      · rw [step_upsert_adopts hpeer hadopt]
        exact h.offer hpeer hadopt.2 status
      · rw [step_upsert_keeps hpeer hadopt]
        exact (h.arrive status peer.entry).with_peer hpeer

theorem Fitting.session (h : Fitting peer calls) (hentry : peer'.entry = peer.entry)
    (hgeneration : peer'.mediaGeneration = peer.mediaGeneration) (hpending : peer'.mediaPendingOwner = peer.mediaPendingOwner)
    (howner : peer'.media.map (·.owner) = peer.media.map (·.owner))
    (hudp : peer'.udp = peer.udp ∨ peer.udp ≠ .opening ∧ peer'.udp ≠ .opening ∧ peer'.media ≠ none) : Fitting peer' calls := by
  have hmedia : peer'.media = none ↔ peer.media = none := by
    rw [← Option.map_eq_none_iff (f := (·.owner)), howner, Option.map_eq_none_iff]
  constructor
  · intro i call hi hsame
    rw [hentry] at hsame
    have hfits := h.fits i call hi hsame
    rw [Call.Fits] at hfits ⊢
    cases htask : call.task with
    | awaiting uuid rxs generation =>
      rw [htask] at hfits
      obtain ⟨hopening, hrest⟩ := hfits
      refine ⟨?_, by rwa [hgeneration, hpending]⟩
      rcases hudp with hudp | ⟨hnot, -⟩
      · exact hudp.trans hopening
      · exact absurd hopening hnot
    | closing session next =>
      rw [htask] at hfits
      cases next with
      | park => trivial
      | rebuild uuid generation =>
        obtain ⟨hle, hcancelled⟩ := hfits
        refine ⟨hle.trans_eq hgeneration.symm, fun hc => ?_⟩
        rcases hudp with hudp | ⟨-, -, hsome⟩
        · rw [hgeneration, ne_eq, hmedia, hudp]
          exact hcancelled hc
        · exact .inr (.inl hsome)
    | sending uuid number =>
      rw [htask] at hfits
      exact howner.trans hfits
  · rw [hpending, hentry]
    exact h.waits
  · rw [hentry]
    exact h.one
  · intro hopening
    rcases hudp with hudp | ⟨-, hnot, -⟩
    · exact hmedia.mpr (h.closed (hudp.symm.trans hopening))
    · exact absurd hopening hnot

theorem owned_restore (h : Owned s) : Owned (s.step .restore) := by
  rcases none_or_peer s with hnone | ⟨peer, hpeer⟩
  · rwa [step_restore_none hnone]
  rw [step_restore hpeer]
  have harrived := h.arrive .delivered peer.entry
  have hfitting := h.fitting peer hpeer
  rcases Option.eq_none_or_eq_some peer.media with hmedia | ⟨live, hmedia⟩
  · by_cases hudp : peer.udp = .opening
    · have hstep : s.offerRestored peer = s.arrive .delivered peer.entry := by
        simp only [State.offerRestored, hmedia, if_pos hudp]
      rwa [hstep]
    · rw [offerRestored_offers hmedia hudp]
      exact (h.offer hpeer hudp .delivered).world _ _
  · rw [offerRestored_live hmedia]
    have hnotOpening : peer.udp ≠ .opening := fun h => by cases hmedia.symm.trans (hfitting.closed h)
    refine harrived.handled hpeer rfl rfl ⟨rfl, rfl, rfl, rfl⟩ le_rfl (fun c hc => ?_) (fun session hsession => ?_)
      (fun i call hi => .inl ⟨call, hi, .refl call⟩)
      (hfitting.session rfl rfl rfl (by rw [hmedia]; rfl) (.inr ⟨hnotOpening, by rintro ⟨⟩, by rintro ⟨⟩⟩))
    · -- each is the channel that was made
      have hcc : c = s.channels := by
        rcases mem_channels hc with hc | ⟨session, hsession, hc⟩
        · exact List.mem_singleton.mp hc
        · rw [← Option.some.inj hsession] at hc
          rcases List.mem_cons.mp hc with hc | hc
          · exact hc
          · exact List.mem_singleton.mp hc
      rw [hcc]
      exact given_arrived s .delivered peer.entry
    · rw [← Option.some.inj hsession]
      exact h.offered.number peer live hpeer hmedia

theorem Owned.pump (h : Owned s) (f : PeerMediaSession → PeerMediaSession) (hchannels : ∀ session, (f session).channels = session.channels)
    (howner : ∀ session, (f session).owner = session.owner) (hnumber : ∀ session, (f session).number = session.number) :
    Owned { s with peer := s.peer.map fun peer => { peer with media := peer.media.map f } } := by
  rcases none_or_peer s with hnone | ⟨peer, hpeer⟩
  · have hmap : s.peer.map (fun peer => { peer with media := peer.media.map f }) = s.peer := by
      rw [hnone]
      rfl
    rw [hmap]
    exact h
  have hmap : s.peer.map (fun peer => { peer with media := peer.media.map f }) = some { peer with media := peer.media.map f } := by
    rw [hpeer]
    rfl
  rw [hmap]
  have hsame : (peer.media.map f).map (·.owner) = peer.media.map (·.owner) := by
    rw [Option.map_map]
    congr 1
    funext session
    exact howner session
  refine h.handled hpeer rfl rfl ⟨rfl, rfl, rfl, rfl⟩ le_rfl (fun c hc => ?_) (fun session hsession => ?_)
    (fun i call hi => .inl ⟨call, hi, .refl call⟩) ((h.fitting peer hpeer).session rfl rfl rfl hsame (.inl rfl))
  · rcases mem_channels hc with hc | ⟨session, hsession, hc⟩
    · exact h.offered.peer peer hpeer c (mem_channels_udp hc)
    · obtain ⟨before, hbefore, rfl⟩ := Option.map_eq_some_iff.mp hsession
      rw [hchannels] at hc
      exact h.offered.peer peer hpeer c (mem_channels_media hbefore hc)
  · obtain ⟨before, hbefore, rfl⟩ := Option.map_eq_some_iff.mp hsession
    rw [hnumber]
    exact h.offered.number peer before hpeer hbefore

theorem pumpEnds_same (session : PeerMediaSession) (status : Nat → Status) :
    (session.pumpEnds status).channels = session.channels ∧ (session.pumpEnds status).owner = session.owner ∧
      (session.pumpEnds status).number = session.number := by
  rw [PeerMediaSession.pumpEnds]
  split
  · exact ⟨rfl, rfl, rfl⟩
  · exact ⟨rfl, rfl, rfl⟩

theorem owned_closingPumpEnds (h : Owned s) (i : Nat) : Owned (s.step (.closingPumpEnds i)) := by
  simp only [State.step]
  split
  case h_2 => exact h
  case h_1 entry cancelled session next hi =>
    have hback (j : Nat) (call : Call) (hj : update s.calls i (some ⟨entry, cancelled, .closing (session.pumpEnds s.status) next⟩) j =
        some call) : ∃ before, s.calls j = some before ∧ before.Continues call ∧ call.cancelled = before.cancelled ∧
          (call.task = before.task ∨ ∃ next, before.task = .closing session next ∧ call.task = .closing (session.pumpEnds s.status) next) := by
      rcases of_update_some hj with ⟨rfl, rfl⟩ | ⟨-, hj⟩
      · exact ⟨_, hi, ⟨rfl, (pumpEnds_same session s.status).1, by rintro _ _ ⟨⟩⟩, rfl, .inr ⟨next, rfl, rfl⟩⟩
      · exact ⟨call, hj, .refl call, rfl, .inl rfl⟩
    refine h.calls _ (fun j call hj => ?_) fun peer hpeer => ?_
    · obtain ⟨before, hbefore, hcontinues, -⟩ := hback j call hj
      exact ⟨before, hbefore, hcontinues⟩
    have hfitting := h.fitting peer hpeer
    have hwaits (j : Nat) (call : Call) (hj : update s.calls i (some ⟨entry, cancelled, .closing (session.pumpEnds s.status) next⟩) j =
        some call) (hwait : call.task.waits) : s.calls j = some call := by
      rcases of_update_some hj with ⟨-, rfl⟩ | ⟨-, hj⟩
      · exact hwait.elim
      · exact hj
    constructor
    · intro j call hj hentry
      obtain ⟨before, hbefore, hcontinues, hcancelled, htask⟩ := hback j call hj
      have hfits := hfitting.fits j before hbefore (hcontinues.entry.symm.trans hentry)
      rw [Call.Fits] at hfits ⊢
      rw [hcancelled]
      rcases htask with htask | ⟨next', hbtask, htask⟩
      · rwa [htask]
      · rw [htask]
        rw [hbtask] at hfits
        cases next' with
        | park => trivial
        | rebuild uuid generation => exact hfits
    · intro owner hpending
      obtain ⟨j, call, rxs, generation, hj, hentry, htask⟩ := hfitting.waits owner hpending
      refine ⟨j, call, rxs, generation, ?_, hentry, htask⟩
      rw [update_of_ne, hj]
      rintro rfl
      rw [← Option.mem_unique hi hj] at htask
      cases htask
    · exact fun j k a b hj hk ha hb hwait hwait' => hfitting.one j k a b (hwaits j a hj hwait) (hwaits k b hk hwait') ha hb hwait hwait'
    · exact hfitting.closed

theorem owned_step (h : Owned s) {act : Act} (hmet : s.Orderly act) : Owned (s.step act) := by
  cases act with
  | mediaOpen uuid accepted => exact owned_mediaOpen h hmet
  | finishOpen i first accepted => exact owned_finishOpen h hmet
  | settle i accepted => exact owned_settle h hmet
  | mediaClose uuid => exact owned_mediaClose h hmet
  | mediaSend uuid => exact owned_mediaSend h uuid
  | sendFrame i => exact owned_sendFrame h i
  | upsert offer => exact owned_upsert h offer
  | restore => exact owned_restore h
  | remove =>
    obtain ⟨⟨hbound, -, -, hbegun, hcalls, -⟩, -, hsends, hwire⟩ := h
    exact ⟨⟨hbound, nofun, nofun, hbegun, hcalls, fun _ _ hp => (nomatch hp)⟩,
      nofun, fun i call uuid number hi htask => absurd htask (hmet i call uuid number hi), hwire⟩
  | deliver c =>
    simp only [State.step]
    split
    · exact h.world _ _
    · exact h
  | withdraw c =>
    simp only [State.step]
    split
    · exact h.world _ _
    · exact h
  | streamEnds c =>
    simp only [State.step]
    split
    · exact h.world _ _
    · exact h
  | clientGone =>
    refine h.pump (fun session => if session.pump = .running then { session with pump := .stopped } else session) (fun session => ?_)
      (fun session => ?_) fun session => ?_
    · split
      · rfl
      · rfl
    · split
      · rfl
      · rfl
    · split
      · rfl
      · rfl
  | pumpEnds =>
    exact h.pump (·.pumpEnds s.status) (fun session => (pumpEnds_same session s.status).1)
      (fun session => (pumpEnds_same session s.status).2.1) fun session => (pumpEnds_same session s.status).2.2
  | closingPumpEnds i => exact owned_closingPumpEnds h i

theorem owned_new : Owned .new where
  offered := ⟨fun _ _ hi => (nomatch hi), nofun, nofun, fun _ _ hi => (nomatch hi),
    fun _ _ hi => (nomatch hi), fun _ _ hp => (nomatch hp)⟩
  fitting _ hp := nomatch hp
  sends _ _ _ _ hi := nomatch hi
  wire _ hframe := absurd hframe List.not_mem_nil

theorem owned_reached (h : Reaches State.step State.Orderly (· = State.new) s) : Owned s := by
  refine h.invariant ?_ fun s act howned hmet => owned_step howned hmet
  rintro s rfl
  exact owned_new

end CitadelAgent.Media
