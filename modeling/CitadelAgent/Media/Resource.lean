import CitadelAgent.Lib.Updates
import CitadelAgent.Media.Call

/-!
# Where a channel's receive half is

* `Held` : with the entry or with a handler, delivered or not;
* `Phase` : a call, an open that waits, a session that is being closed, or none of these;
* `Keeps` : the steps that lose no receive half;
* `Sound`, `Kept` : the invariant, and what one such step does.
-/

namespace CitadelAgent.Media
open Function Machine

def UdpState.halves : UdpState → List Nat
  | .pending offers => offers
  | .idle _ rx => [rx]
  | _ => []

def PeerConnection.halves (peer : PeerConnection) : List Nat := peer.udp.halves ++ (peer.media.map (·.rx)).toList

def Task.halves : Task → List Nat
  | .awaiting _ rxs _ => rxs
  | .closing session _ => [session.rx]
  | .sending _ _ => []

def Task.busy : Task → Prop
  | .sending _ _ => False
  | _ => True

/-- The channel's receive half, or the offer of it, is in the entry or with a handler. -/
def Held (peer : Option PeerConnection) (calls : Nat → Option Call) (c : Nat) : Prop :=
  (∃ p, peer = some p ∧ c ∈ p.halves) ∨ ∃ i call, calls i = some call ∧ c ∈ call.task.halves

def InUse (peer : Option PeerConnection) (calls : Nat → Option Call) (session : PeerMediaSession) : Prop :=
  (∃ p, peer = some p ∧ p.media = some session) ∨ ∃ i call next, calls i = some call ∧ call.task = .closing session next

/-- It closes a session whose receive half is nobody's loss. -/
def Task.stray (gone : Nat → Prop) (task : Task) : Prop := ∃ session next, task = .closing session next ∧ gone session.rx

/-- No other handler waits or closes. -/
def Quiet (gone : Nat → Prop) (calls : Nat → Option Call) : Prop :=
  ∀ i call, calls i = some call → call.task.busy → call.task.stray gone

/-- The handler `i` alone does, and it is the last that began. -/
structure Only (gone : Nat → Prop) (calls : Nat → Option Call) (i : Nat) (task : Task) : Prop where
  at_ : ∃ call, calls i = some call ∧ call.task = task
  only : ∀ j call, calls j = some call → call.task.busy → j = i ∨ j < i ∧ call.task.stray gone

/-- What the entry and the handlers are at. -/
inductive Phase (gone : Nat → Prop) (calls : Nat → Option Call) (peer : PeerConnection) : Prop
  | call (session : PeerMediaSession) (tx : Nat) (media : peer.media = some session) (udp : peer.udp = .lent tx)
      (quiet : Quiet gone calls)
  | opening (i : Nat) (uuid : Uuid) (rxs : List Nat) (generation : Nat) (media : peer.media = none) (udp : peer.udp = .opening)
      (only : Only gone calls i (.awaiting uuid rxs generation))
  | closing (i : Nat) (session : PeerMediaSession) (next : After) (tx : Nat) (media : peer.media = none) (udp : peer.udp = .lent tx)
      (only : Only gone calls i (.closing session next))
  | rest (media : peer.media = none)
      (udp : peer.udp = .unavailable ∨ (∃ tx rx, peer.udp = .idle tx rx) ∨ ∃ rxs, peer.udp = .pending rxs) (quiet : Quiet gone calls)

namespace State

/-- The SDK restored one in its place, or its stream ended. -/
def gone (s : State) (c : Nat) : Prop := c ∈ s.superseded ∨ s.status c = .ended

def Arrives (s : State) (act : Act) (c : Nat) : Prop :=
  c = s.channels ∧ (act = .upsert (some .delivered) ∨ act = .restore ∧ s.peer ≠ none)

/-- An offer takes the place of no channel that lives, and none that is delivered is turned away. A wait ends in a withdrawal only
when all of the offers are withdrawn, and in a channel only when no other is delivered. A pump returns while the path is lent only
when that is to its session: none is open, and no other is being closed since. The entry stays. -/
def Keeps (s : State) : Act → Prop
  | .upsert offer => ∀ peer, s.peer = some peer →
      if peer.media = none ∧ peer.udp ≠ .opening then
        offer.isSome → match peer.udp with
          | .idle _ rx => s.status rx = .ended
          | .lent _ => ∀ i call session next, s.calls i = some call → call.task = .closing session next → s.status session.rx = .ended
          | _ => True
      else offer ≠ some .delivered
  | .restore => ∀ peer, s.peer = some peer → peer.udp ≠ .opening
  | .finishOpen i first _ => ∀ call uuid rxs generation c, s.calls i = some call → call.task = .awaiting uuid rxs generation →
      first = some c → c ∈ rxs → match s.status c with
        | .offered => True
        | .withdrawn => ∀ o ∈ rxs, s.status o = .withdrawn
        | _ => ∀ o ∈ rxs, o ≠ c → s.status o ≠ .delivered
  | .settle i _ => ∀ peer tx call session next, s.peer = some peer → peer.udp = .lent tx → s.calls i = some call →
      call.task = .closing session next →
        peer.media = none ∧ ∀ j call' session' next', s.calls j = some call' → call'.task = .closing session' next' → j ≤ i
  | .remove => False
  | _ => True

end State

/-! ## Handlers come and go -/

variable {peer : PeerConnection} {call : Call}

section
variable {gone gone' : Nat → Prop} {calls : Nat → Option Call} {i n : Nat} {task : Task}

theorem Task.stray.mono (h : task.stray gone) (hgone : ∀ c, gone c → gone' c) : task.stray gone' := by
  obtain ⟨session, next, htask, hrx⟩ := h
  exact ⟨session, next, htask, hgone _ hrx⟩

theorem Quiet.mono (h : Quiet gone calls) (hgone : ∀ c, gone c → gone' c) : Quiet gone' calls :=
  fun i call hi hbusy => (h i call hi hbusy).mono hgone

theorem Only.mono (h : Only gone calls i task) (hgone : ∀ c, gone c → gone' c) : Only gone' calls i task :=
  ⟨h.at_, fun j call hj hbusy => (h.only j call hj hbusy).imp_right fun ⟨hlt, hstray⟩ => ⟨hlt, hstray.mono hgone⟩⟩

theorem Phase.mono (h : Phase gone calls peer) (hgone : ∀ c, gone c → gone' c) : Phase gone' calls peer := by
  cases h with
  | call session tx hmedia hudp hquiet => exact .call session tx hmedia hudp (hquiet.mono hgone)
  | opening i uuid rxs generation hmedia hudp honly => exact .opening i uuid rxs generation hmedia hudp (honly.mono hgone)
  | closing i session next tx hmedia hudp honly => exact .closing i session next tx hmedia hudp (honly.mono hgone)
  | rest hmedia hudp hquiet => exact .rest hmedia hudp (hquiet.mono hgone)

theorem Phase.entry {peer' : PeerConnection} (h : Phase gone calls peer) (hudp' : peer'.udp = peer.udp)
    (hmedia' : peer'.media = peer.media) : Phase gone calls peer' := by
  cases h with
  | call session tx hmedia hudp hquiet => exact .call session tx (hmedia'.trans hmedia) (hudp'.trans hudp) hquiet
  | opening i uuid rxs generation hmedia hudp honly =>
    exact .opening i uuid rxs generation (hmedia'.trans hmedia) (hudp'.trans hudp) honly
  | closing i session next tx hmedia hudp honly => exact .closing i session next tx (hmedia'.trans hmedia) (hudp'.trans hudp) honly
  | rest hmedia hudp hquiet => exact .rest (hmedia'.trans hmedia) (by rwa [hudp']) hquiet

theorem Quiet.spawn (h : Quiet gone calls) (hn : ∀ j, n ≤ j → calls j = none) (entry : Nat) (cancelled : Bool) (task : Task) :
    Only gone (update calls n (some ⟨entry, cancelled, task⟩)) n task := by
  refine ⟨⟨_, update_self .., rfl⟩, fun j call hj hbusy => ?_⟩
  by_cases hne : j = n
  · exact .inl hne
  · rw [update_of_ne hne] at hj
    have hlt : j < n := by
      by_contra hle
      exact nomatch (hn j (by omega)).symm.trans hj
    exact .inr ⟨hlt, h j call hj hbusy⟩

theorem Quiet.sending (h : Quiet gone calls) (entry : Nat) (cancelled : Bool) (uuid number : Nat) :
    Quiet gone (update calls n (some ⟨entry, cancelled, .sending uuid number⟩)) := by
  intro j call hj hbusy
  rcases of_update_some hj with ⟨-, rfl⟩ | ⟨-, hj⟩
  · exact hbusy.elim
  · exact h j call hj hbusy

theorem Only.sending (h : Only gone calls i task) (hn : calls n = none) (entry : Nat) (cancelled : Bool) (uuid number : Nat) :
    Only gone (update calls n (some ⟨entry, cancelled, .sending uuid number⟩)) i task := by
  obtain ⟨⟨call, hi, htask⟩, honly⟩ := h
  have hin : i ≠ n := by
    rintro rfl
    exact nomatch hn.symm.trans hi
  refine ⟨⟨call, by rw [update_of_ne hin, hi], htask⟩, fun j call hj hbusy => ?_⟩
  rcases of_update_some hj with ⟨-, rfl⟩ | ⟨-, hj⟩
  · exact hbusy.elim
  · exact honly j call hj hbusy

theorem Phase.sending (h : Phase gone calls peer) (hn : calls n = none) (entry : Nat) (cancelled : Bool)
    (uuid number : Nat) : Phase gone (update calls n (some ⟨entry, cancelled, .sending uuid number⟩)) peer := by
  cases h with
  | call session tx hmedia hudp hquiet => exact .call session tx hmedia hudp (hquiet.sending entry cancelled uuid number)
  | opening i opener rxs generation hmedia hudp honly =>
    exact .opening i opener rxs generation hmedia hudp (honly.sending hn entry cancelled uuid number)
  | closing i session next tx hmedia hudp honly => exact .closing i session next tx hmedia hudp (honly.sending hn entry cancelled uuid number)
  | rest hmedia hudp hquiet => exact .rest hmedia hudp (hquiet.sending entry cancelled uuid number)

theorem Quiet.finish (h : Quiet gone calls) (n : Nat) : Quiet gone (update calls n none) := by
  intro j call hj
  obtain ⟨-, hj⟩ := of_update_none hj
  exact h j call hj

theorem Only.finish (h : Only gone calls i task) : Quiet gone (update calls i none) := by
  intro j call hj hbusy
  obtain ⟨hne, hj⟩ := of_update_none hj
  exact ((h.only j call hj hbusy).resolve_left hne).2

theorem Only.finish_other (h : Only gone calls i task) (hne : n ≠ i) : Only gone (update calls n none) i task := by
  obtain ⟨⟨call, hi, htask⟩, honly⟩ := h
  refine ⟨⟨call, by rw [update_of_ne hne.symm, hi], htask⟩, fun j call hj hbusy => ?_⟩
  obtain ⟨-, hj⟩ := of_update_none hj
  exact honly j call hj hbusy

theorem Phase.finish (h : Phase gone calls peer)
    (hn : ∀ call, calls n = some call → ¬ call.task.busy ∨ call.task.stray gone ∧ ∀ tx, peer.udp ≠ .lent tx) :
    Phase gone (update calls n none) peer := by
  -- the handler of the phase is another
  have hother {i : Nat} {task : Task} (honly : Only gone calls i task) (hbusy : task.busy)
      (hkind : task.stray gone → ∃ tx, peer.udp = .lent tx) : n ≠ i := by
    rintro rfl
    obtain ⟨call, hi, rfl⟩ := honly.at_
    rcases hn call hi with hidle | ⟨hstray, hudp⟩
    · exact hidle hbusy
    · obtain ⟨tx, hlent⟩ := hkind hstray
      exact hudp tx hlent
  cases h with
  | call session tx hmedia hudp hquiet => exact .call session tx hmedia hudp (hquiet.finish n)
  | opening i uuid rxs generation hmedia hudp honly =>
    refine .opening i uuid rxs generation hmedia hudp (honly.finish_other (hother honly trivial ?_))
    rintro ⟨session, next, htask, -⟩
    exact nomatch htask
  | closing i session next tx hmedia hudp honly =>
    exact .closing i session next tx hmedia hudp (honly.finish_other (hother honly trivial fun _ => ⟨tx, hudp⟩))
  | rest hmedia hudp hquiet => exact .rest hmedia hudp (hquiet.finish n)

end

/-! ## What is held after a handler came or went -/

section
variable {peer peer' : PeerConnection} {calls : Nat → Option Call} {i n c : Nat} {session : PeerMediaSession}

theorem halves_eq (peer : PeerConnection) {udp : UdpState} {media : Option PeerMediaSession} (hudp : peer.udp = udp)
    (hmedia : peer.media = media) : peer.halves = udp.halves ++ (media.map (·.rx)).toList := by
  rw [PeerConnection.halves, hudp, hmedia]

theorem held_spawn (hn : calls n = none) :
    Held (some peer) (update calls n (some call)) c ↔ Held (some peer) calls c ∨ c ∈ call.task.halves := by
  constructor
  · rintro (h | ⟨j, call', hj, hc⟩)
    · exact .inl (.inl h)
    · rcases of_update_some hj with ⟨-, rfl⟩ | ⟨-, hj⟩
      · exact .inr hc
      · exact .inl (.inr ⟨j, call', hj, hc⟩)
  · rintro ((h | ⟨j, call', hj, hc⟩) | hc)
    · exact .inl h
    · refine .inr ⟨j, call', ?_, hc⟩
      rw [update_of_ne, hj]
      rintro rfl
      exact nomatch hn.symm.trans hj
    · exact .inr ⟨n, call, update_self .., hc⟩

theorem held_finish (hi : calls i = some call) :
    Held (some peer) calls c ↔ Held (some peer) (update calls i none) c ∨ c ∈ call.task.halves := by
  have hback : update (update calls i none) i (some call) = calls := by
    rw [update_idem, ← hi, update_eq_self]
  have h : Held (some peer) (update (update calls i none) i (some call)) c ↔ Held (some peer) (update calls i none) c ∨
      c ∈ call.task.halves := held_spawn (update_self i none calls)
  rwa [hback] at h

theorem held_peer (h : ∀ c, c ∈ peer'.halves → c ∈ peer.halves) (hheld : Held (some peer') calls c) : Held (some peer) calls c := by
  rcases hheld with ⟨p, hp, hc⟩ | hheld
  · obtain rfl := Option.some.inj hp
    exact .inl ⟨peer, rfl, h c hc⟩
  · exact .inr hheld

theorem inUse_spawn (h : InUse (some peer) (update calls n (some call)) session) :
    InUse (some peer) calls session ∨ ∃ next, call.task = .closing session next := by
  rcases h with h | ⟨j, call', next, hj, htask⟩
  · exact .inl (.inl h)
  · rcases of_update_some hj with ⟨-, rfl⟩ | ⟨-, hj⟩
    · exact .inr ⟨next, htask⟩
    · exact .inl (.inr ⟨j, call', next, hj, htask⟩)

theorem inUse_finish (h : InUse (some peer) (update calls i none) session) : InUse (some peer) calls session := by
  rcases h with h | ⟨j, call', next, hj, htask⟩
  · exact .inl h
  · obtain ⟨-, hj⟩ := of_update_none hj
    exact .inr ⟨j, call', next, hj, htask⟩

end

/-! ## The invariant -/

structure Sound (s : State) : Prop where
  bound : ∀ i, s.spawned ≤ i → s.calls i = none
  below : ∀ c, Held s.peer s.calls c → c < s.channels
  fresh : ∀ c, s.channels ≤ c → s.status c = .offered
  pumps : ∀ session, InUse s.peer s.calls session → session.pump = .ended → s.status session.rx = .ended
  phase : ∀ peer, s.peer = some peer → Phase s.gone s.calls peer
  idle : s.peer = none → ∀ i, s.calls i = none

variable {s t : State}

theorem Sound.handled (h : Sound s) (hstatus : t.status = s.status) (hchannels : t.channels = s.channels)
    (hbound : ∀ i, t.spawned ≤ i → t.calls i = none) (hback : ∀ c, Held t.peer t.calls c → Held s.peer s.calls c)
    (hpumps : ∀ session, InUse t.peer t.calls session → InUse s.peer s.calls session ∨ session.pump = .running)
    (hphase : ∀ peer, t.peer = some peer → Phase t.gone t.calls peer) (hidle : t.peer = none → ∀ i, t.calls i = none) : Sound t where
  bound := hbound
  below c hc := by
    rw [hchannels]
    exact h.below c (hback c hc)
  fresh c hc := by
    rw [hstatus]
    exact h.fresh c (by rwa [← hchannels])
  pumps session huse hended := by
    rcases hpumps session huse with huse | hrunning
    · rw [hstatus]
      exact h.pumps session huse hended
    · exact nomatch hrunning.symm.trans hended
  phase := hphase
  idle := hidle

/-- The invariant is kept, and each delivered channel that is held stays, or the SDK restored one in its place. -/
structure Kept (s t : State) : Prop where
  sound : Sound t
  held : ∀ c, Held s.peer s.calls c → s.status c = .delivered → Held t.peer t.calls c ∨ c ∈ t.superseded

theorem Sound.kept (h : Sound s) : Kept s s := ⟨h, fun _ hc _ => .inl hc⟩

/-! ## Changes of the entry -/

theorem bound_spawn {calls : Nat → Option Call} {n : Nat} (h : ∀ i, n ≤ i → calls i = none) :
    ∀ i, n + 1 ≤ i → update calls n (some call) i = none := by
  intro i hi
  rw [update_of_ne (by omega), h i (by omega)]

theorem bound_finish {calls : Nat → Option Call} {n i : Nat} (h : ∀ i, n ≤ i → calls i = none) :
    ∀ j, n ≤ j → update calls i none j = none := by
  intro j hj
  by_cases hne : j = i
  · rw [hne, update_self]
  · rw [update_of_ne hne, h j hj]

section
variable {peer peer' : PeerConnection}

theorem Sound.kept_peer (h : Sound s) (hpeer : s.peer = some peer) (hback : ∀ c ∈ peer'.halves, c ∈ peer.halves)
    (hkeep : ∀ c ∈ peer.halves, s.status c = .delivered → c ∈ peer'.halves)
    (hmedia : ∀ session, peer'.media = some session → peer.media = some session ∨ session.pump = .running)
    (hphase : Phase s.gone s.calls peer') : Kept s (s.withPeer fun _ => peer') := by
  have hpeer' : (s.withPeer fun _ => peer').peer = some peer' := by rw [State.withPeer, hpeer]; rfl
  constructor
  · refine h.handled rfl rfl h.bound (fun c hc => ?_) (fun session huse => ?_) (fun p hp => ?_) fun hnone => ?_
    · rw [hpeer'] at hc
      rw [hpeer]
      exact held_peer hback hc
    · rcases huse with ⟨p, hp, hsession⟩ | hcall
      · obtain rfl := Option.mem_unique hpeer' hp
        exact (hmedia session hsession).imp_left fun hsession => .inl ⟨peer, hpeer, hsession⟩
      · exact .inl (.inr hcall)
    · obtain rfl := Option.mem_unique hpeer' hp
      exact hphase
    · exact nomatch hpeer'.symm.trans hnone
  · intro c hc hlive
    rw [hpeer']
    rcases hc with ⟨p, hp, hc⟩ | hcall
    · obtain rfl := Option.mem_unique hpeer hp
      exact .inl (.inl ⟨peer', rfl, hkeep c hc hlive⟩)
    · exact .inl (.inr hcall)

theorem Sound.kept_spawn (h : Sound s) (hpeer : s.peer = some peer) {task : Task}
    (hback : ∀ c, c ∈ peer'.halves ∨ c ∈ task.halves → c ∈ peer.halves)
    (hkeep : ∀ c ∈ peer.halves, s.status c = .delivered → c ∈ peer'.halves ∨ c ∈ task.halves)
    (hmedia : ∀ session, peer'.media = some session ∨ (∃ next, task = .closing session next) → peer.media = some session)
    (entry : Nat) (hphase : Phase s.gone (update s.calls s.spawned (some ⟨entry, false, task⟩)) peer') :
    Kept s ((s.withPeer fun _ => peer').spawn entry (some task)) := by
  have hpeer' : ((s.withPeer fun _ => peer').spawn entry (some task)).peer = some peer' := by
    show s.peer.map _ = _
    rw [hpeer]
    rfl
  have hn : s.calls s.spawned = none := h.bound _ le_rfl
  constructor
  · refine h.handled rfl rfl (bound_spawn h.bound) (fun c hc => ?_) (fun session huse => ?_) (fun p hp => ?_) fun hnone => ?_
    · rw [hpeer'] at hc
      rw [hpeer]
      rcases (held_spawn hn).mp hc with (⟨p, hp, hc⟩ | hcall) | hc
      · obtain rfl := Option.some.inj hp
        exact .inl ⟨peer, rfl, hback c (.inl hc)⟩
      · exact .inr hcall
      · exact .inl ⟨peer, rfl, hback c (.inr hc)⟩
    · rw [hpeer'] at huse
      rw [hpeer]
      rcases inUse_spawn huse with (⟨p, hp, hsession⟩ | hcall) | htask
      · obtain rfl := Option.some.inj hp
        exact .inl (.inl ⟨peer, rfl, hmedia session (.inl hsession)⟩)
      · exact .inl (.inr hcall)
      · exact .inl (.inl ⟨peer, rfl, hmedia session (.inr htask)⟩)
    · obtain rfl := Option.mem_unique hpeer' hp
      exact hphase
    · exact nomatch hpeer'.symm.trans hnone
  · intro c hc hlive
    rw [hpeer']
    refine .inl ((held_spawn hn).mpr ?_)
    rcases hc with ⟨p, hp, hc⟩ | hcall
    · obtain rfl := Option.mem_unique hpeer hp
      exact (hkeep c hc hlive).imp_left fun hc => .inl ⟨peer', rfl, hc⟩
    · exact .inl (.inr hcall)

theorem Sound.kept_finish (h : Sound s) (hpeer : s.peer = some peer) {i : Nat} (hi : s.calls i = some call)
    {f : PeerConnection → PeerConnection} (hback : ∀ c ∈ (f peer).halves, c ∈ peer.halves ∨ c ∈ call.task.halves)
    (hkeep : ∀ c, c ∈ peer.halves ∨ c ∈ call.task.halves → s.status c = .delivered → c ∈ (f peer).halves ∨ c ∈ s.superseded)
    (hmedia : ∀ session, (f peer).media = some session → peer.media = some session ∨ session.pump = .running)
    (hphase : Phase s.gone (update s.calls i none) (f peer)) : Kept s ((s.finish i).withPeer f) := by
  have hpeer' : ((s.finish i).withPeer f).peer = some (f peer) := by
    show s.peer.map f = _
    rw [hpeer]
    rfl
  constructor
  · refine h.handled rfl rfl (bound_finish h.bound) (fun c hc => ?_) (fun session huse => ?_) (fun p hp => ?_) fun hnone => ?_
    · rw [hpeer'] at hc
      rw [hpeer, held_finish hi]
      rcases hc with ⟨p, hp, hc⟩ | hcall
      · obtain rfl := Option.some.inj hp
        exact (hback c hc).imp_left fun hc => .inl ⟨peer, rfl, hc⟩
      · exact .inl (.inr hcall)
    · rw [hpeer'] at huse
      rw [hpeer]
      rcases inUse_finish huse with ⟨p, hp, hsession⟩ | hcall
      · obtain rfl := Option.some.inj hp
        exact (hmedia session hsession).imp_left fun hsession => .inl ⟨peer, rfl, hsession⟩
      · exact .inl (.inr hcall)
    · obtain rfl := Option.mem_unique hpeer' hp
      exact hphase
    · exact nomatch hpeer'.symm.trans hnone
  · intro c hc hlive
    rw [hpeer']
    rw [hpeer, held_finish hi] at hc
    rcases hc with (⟨p, hp, hc⟩ | hcall) | hc
    · obtain rfl := Option.some.inj hp
      exact (hkeep c (.inl hc) hlive).imp_left fun hc => .inl ⟨f peer, rfl, hc⟩
    · exact .inl (.inr hcall)
    · exact (hkeep c (.inr hc) hlive).imp_left fun hc => .inl ⟨f peer, rfl, hc⟩

end

end CitadelAgent.Media
