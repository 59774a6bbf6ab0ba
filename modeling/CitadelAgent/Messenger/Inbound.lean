import Mathlib

/-!
# The frames that arrive for a CID

`citadel-internal-service-connector/src/messenger/mod.rs`, for one CID: the inbound task looks for the CID's handle and
sends it the frame, or else queues the frame; `multiplex` registers a handle, then drains the queue into it, and only
then learns whether there will be an ILM; a handle that is dropped removes what is registered under the CID.

* `Inbox`, `Inbox.step` : the handle that is registered, the queue, what each handle's ILM is sent;
* `Inbox.Orderly` : the steps that neither overtake, lose nor strand a frame, and unregister no other handle;
* `Inbox.Inv` : frames that wait for a handle are in the queue, or with the `multiplex` that has drained it;
* `frames_in_order` : what an ILM is sent is in order and has all that waited for it.
-/

namespace CitadelAgent.Messenger
open Function

/-- Where a handle is in its `multiplex`, and after. -/
inductive Multiplexed
  | inserted
  /-- It has taken the queue, of which these frames are still to be sent; with none left, the ILM is being built. -/
  | draining (rest : List Nat)
  /-- There will be no ILM, and its channel has no receiver; the handle is about to be dropped. -/
  | failing
  | live
  | gone
  deriving DecidableEq

/-- The call of `multiplex` has not returned. -/
def Multiplexed.InProgress : Multiplexed → Prop
  | .inserted => True
  | .draining _ => True
  | .failing => True
  | .live => False
  | .gone => False

structure Inbox where
  /-- How many handles there have been, which are numbered in the order of their registration. -/
  handles : Nat
  multiplexed : Nat → Multiplexed
  txToInbound : Option Nat
  channel : Nat → List Nat
  arrived : Nat
  inHand : Option Nat
  pendingInboundMessages : List Nat
  /-- The frames that found no handle, since the last `multiplex` that succeeded. -/
  missed : List Nat
  /-- Those there were when a handle's `multiplex` succeeded. -/
  owed : Nat → List Nat

inductive InboxAct
  | arrive
  | queue
  | insert
  | take (handle : Nat)
  | sendNext (handle : Nat)
  | build (handle : Nat) (ok : Bool)
  | dropFailed (handle : Nat)
  | drop (handle : Nat)

variable {handle' : Nat} {phase : Multiplexed}

namespace Inbox

def new : Inbox := ⟨0, fun _ => .gone, none, fun _ => [], 0, none, [], [], fun _ => []⟩

def setMultiplexed (handle : Nat) (phase : Multiplexed) (s : Inbox) : Inbox :=
  { s with multiplexed := update s.multiplexed handle phase }

def send (handle frame : Nat) (s : Inbox) : Inbox :=
  { s with channel := update s.channel handle (s.channel handle ++ [frame]) }

/-- `MessengerTx::drop` -/
def unregister (handle : Nat) (s : Inbox) : Inbox := { s with txToInbound := none }.setMultiplexed handle .gone

theorem channel_send_self (handle frame : Nat) (s : Inbox) :
    (s.send handle frame).channel handle = s.channel handle ++ [frame] :=
  update_self ..

theorem channel_send_of_ne {handle : Nat} (h : handle' ≠ handle) (frame : Nat) (s : Inbox) :
    (s.send handle frame).channel handle' = s.channel handle' :=
  update_of_ne h ..

theorem multiplexed_set_self (handle : Nat) (phase : Multiplexed) (s : Inbox) :
    (s.setMultiplexed handle phase).multiplexed handle = phase :=
  update_self ..

theorem multiplexed_set_of_ne {handle : Nat} (h : handle' ≠ handle) (phase : Multiplexed) (s : Inbox) :
    (s.setMultiplexed handle phase).multiplexed handle' = s.multiplexed handle' :=
  update_of_ne h ..

def step (s : Inbox) : InboxAct → Inbox
  | .arrive =>
      if s.inHand = none then
        let frame := s.arrived
        let s := { s with arrived := frame + 1 }
        match s.txToInbound with
        | some handle => if s.multiplexed handle = .failing then s else s.send handle frame
        | none => { s with inHand := some frame, missed := s.missed ++ [frame] }
      else s
  | .queue =>
      match s.inHand with
      | some frame => { s with inHand := none, pendingInboundMessages := s.pendingInboundMessages ++ [frame] }
      | none => s
  | .insert =>
      { s with
        handles := s.handles + 1
        txToInbound := some s.handles
        multiplexed := update s.multiplexed s.handles .inserted }
  | .take handle =>
      match s.multiplexed handle with
      | .inserted => { s with pendingInboundMessages := [] }.setMultiplexed handle (.draining s.pendingInboundMessages)
      | _ => s
  | .sendNext handle =>
      match s.multiplexed handle with
      | .draining (frame :: rest) => (s.send handle frame).setMultiplexed handle (.draining rest)
      | _ => s
  | .build handle ok =>
      match s.multiplexed handle with
      | .draining [] =>
          if ok = true then
            { s with owed := update s.owed handle s.missed, missed := [] }.setMultiplexed handle .live
          else s.setMultiplexed handle .failing
      | _ => s
  | .dropFailed handle =>
      match s.multiplexed handle with
      | .failing => s.unregister handle
      | _ => s
  | .drop handle =>
      match s.multiplexed handle with
      | .live => s.unregister handle
      | _ => s

end Inbox

inductive InboxRun (condition : Inbox → InboxAct → Prop) : Inbox → Prop
  | new : InboxRun condition .new
  | step {s : Inbox} (act : InboxAct) : InboxRun condition s → condition s act → InboxRun condition (s.step act)

theorem InboxRun.foldl {acts : List InboxAct} {s : Inbox} (h : InboxRun (fun _ _ => True) s) :
    InboxRun (fun _ _ => True) (acts.foldl Inbox.step s) := by
  induction acts generalizing s with
  | nil => exact h
  | cons act rest ih => exact ih (.step act h trivial)

namespace Inbox

/-- No frame arrives at a handle that still has queued frames to be sent, no queue is taken while the inbound task has a
frame for it in hand, calls of `multiplex` do not overlap, none fails that frames have waited for, and no handle is
dropped while a newer one is registered. -/
def Orderly (s : Inbox) : InboxAct → Prop
  | .arrive => ∀ handle, s.txToInbound = some handle →
      (s.multiplexed handle = .inserted → s.pendingInboundMessages = []) ∧
      ∀ rest, s.multiplexed handle = .draining rest → rest = []
  | .take _ => s.inHand = none
  | .insert => ∀ handle, ¬(s.multiplexed handle).InProgress
  | .build _ ok => ok = false → s.missed = []
  | .drop handle => ∀ newer, s.txToInbound = some newer → newer = handle
  | _ => True

/-- Which handle is registered: the newest, as long as it is there, and only the newest is in its `multiplex`. -/
structure Places (handles : Nat) (txToInbound : Option Nat) (multiplexed : Nat → Multiplexed) : Prop where
  fresh : ∀ {handle}, handles ≤ handle → multiplexed handle = .gone
  registered : ∀ {handle}, txToInbound = some handle → handle + 1 = handles
  newest : ∀ {handle}, handle + 1 = handles → multiplexed handle ≠ .gone → txToInbound = some handle
  single : ∀ {handle}, (multiplexed handle).InProgress → handle + 1 = handles

structure Inv (s : Inbox) : Prop where
  places : Places s.handles s.txToInbound s.multiplexed
  fresh : ∀ {handle}, s.handles ≤ handle → s.channel handle = []
  queued : (s.pendingInboundMessages ++ s.inHand.toList).Pairwise (· < ·)
  queuedArrived : ∀ frame ∈ s.pendingInboundMessages ++ s.inHand.toList, frame < s.arrived
  sent : ∀ {handle}, (s.channel handle).Pairwise (· < ·)
  sentArrived : ∀ {handle}, ∀ frame ∈ s.channel handle, frame < s.arrived
  /-- What a handle has been sent before it takes the queue came before what is in the queue. -/
  inserted : ∀ {handle}, s.multiplexed handle = .inserted →
    ∀ frame ∈ s.channel handle, ∀ frame' ∈ s.pendingInboundMessages ++ s.inHand.toList, frame < frame'
  draining : ∀ {handle rest}, s.multiplexed handle = .draining rest →
    (s.channel handle ++ rest).Pairwise (· < ·) ∧ (∀ frame ∈ rest, frame < s.arrived) ∧
    s.pendingInboundMessages = [] ∧ s.inHand = none
  missed : ∀ frame ∈ s.missed, frame ∈ s.pendingInboundMessages ++ s.inHand.toList ∨
    ∃ handle rest, s.multiplexed handle = .draining rest ∧ frame ∈ s.channel handle ++ rest
  owed : ∀ {handle}, ∀ frame ∈ s.owed handle, frame ∈ s.channel handle

theorem inv_new : Inv .new where
  places := ⟨fun _ => rfl, nofun, fun h => absurd h (Nat.succ_ne_zero _), fun h => h.elim⟩
  fresh _ := rfl
  queued := List.Pairwise.nil
  queuedArrived _ h := nomatch h
  sent := List.Pairwise.nil
  sentArrived _ h := nomatch h
  inserted h := nomatch h
  draining h := nomatch h
  missed _ h := nomatch h
  owed _ h := nomatch h

namespace Places

variable {handles handle : Nat} {txToInbound : Option Nat} {multiplexed : Nat → Multiplexed}

theorem of_inProgress (h : Places handles txToInbound multiplexed)
    (hphase : multiplexed handle = phase) (hp : phase.InProgress) : txToInbound = some handle := by
  subst hphase
  refine h.newest (h.single hp) fun hgone => ?_
  rw [hgone] at hp
  exact hp

theorem unique (h : Places handles txToInbound multiplexed) {phase' : Multiplexed} (hphase : multiplexed handle = phase)
    (hp : phase.InProgress) (hphase' : multiplexed handle' = phase') (hp' : phase'.InProgress) : handle' = handle := by
  have htx := h.of_inProgress hphase hp
  rw [h.of_inProgress hphase' hp'] at htx
  exact Option.some.inj htx

theorem set (h : Places handles txToInbound multiplexed) (hhere : multiplexed handle ≠ .gone)
    (hp : phase.InProgress → (multiplexed handle).InProgress) :
    Places handles txToInbound (update multiplexed handle phase) := by
  refine ⟨fun {handle'} hle => ?_, h.registered, fun {handle'} hlast hhere' => ?_, fun {handle'} hp' => ?_⟩
  · have hh : handle' ≠ handle := by
      rintro rfl
      exact hhere (h.fresh hle)
    rw [update_of_ne hh]
    exact h.fresh hle
  · by_cases hh : handle' = handle
    · subst hh
      exact h.newest hlast hhere
    · rw [update_of_ne hh] at hhere'
      exact h.newest hlast hhere'
  · by_cases hh : handle' = handle
    · subst hh
      rw [update_self] at hp'
      exact h.single (hp hp')
    · rw [update_of_ne hh] at hp'
      exact h.single hp'

end Places

namespace Inv

variable {s : Inbox} {handle : Nat}

theorem tick (h : s.Inv) : Inv { s with arrived := s.arrived + 1 } :=
  { h with
    queuedArrived := fun frame hf => Nat.lt_succ_of_lt (h.queuedArrived frame hf)
    sentArrived := fun frame hf => Nat.lt_succ_of_lt (h.sentArrived frame hf)
    draining := fun hd =>
      have hold := h.draining hd
      ⟨hold.1, fun frame hf => Nat.lt_succ_of_lt (hold.2.1 frame hf), hold.2.2⟩ }

theorem pairwise_concat {l : List Nat} {n : Nat} (h : l.Pairwise (· < ·)) (hn : ∀ m ∈ l, m < n) :
    (l ++ [n]).Pairwise (· < ·) := by
  refine List.pairwise_append.mpr ⟨h, List.pairwise_singleton _ _, fun m hm k hk => ?_⟩
  rw [List.mem_singleton.mp hk]
  exact hn m hm

theorem mem_channel_send {frame frame' : Nat} (hmem : frame' ∈ s.channel handle') :
    frame' ∈ (s.send handle frame).channel handle' := by
  by_cases hh : handle' = handle
  · subst hh
    rw [channel_send_self]
    exact List.mem_append_left _ hmem
  · rwa [channel_send_of_ne hh]

theorem arrive_send (h : s.Inv) (htx : s.txToInbound = some handle) (hhand : s.inHand = none)
    (hcond : s.Orderly .arrive) : Inv ({ s with arrived := s.arrived + 1 }.send handle s.arrived) := by
  obtain ⟨hinserted, hdraining⟩ := hcond handle htx
  have hlast := h.places.registered htx
  have hself : ({ s with arrived := s.arrived + 1 }.send handle s.arrived).channel handle =
      s.channel handle ++ [s.arrived] := channel_send_self ..
  have hother : ∀ {handle'}, handle' ≠ handle →
      ({ s with arrived := s.arrived + 1 }.send handle s.arrived).channel handle' = s.channel handle' :=
    fun hh => channel_send_of_ne hh ..
  refine ⟨h.places, fun hfresh => ?_, h.queued, h.tick.queuedArrived, ?_, ?_, ?_, ?_, ?_, ?_⟩
  · rename_i handle'
    have hh : handle' ≠ handle := by
      have hle : s.handles ≤ handle' := hfresh
      omega
    exact (hother hh).trans (h.fresh hfresh)
  · intro handle'
    by_cases hh : handle' = handle
    · subst hh
      rw [hself]
      exact pairwise_concat h.sent h.sentArrived
    · rw [hother hh]
      exact h.sent
  · intro handle' frame hf
    by_cases hh : handle' = handle
    · subst hh
      rw [hself] at hf
      obtain hf | hf := List.mem_append.mp hf
      · exact h.tick.sentArrived frame hf
      · rw [List.mem_singleton.mp hf]
        exact Nat.lt_succ_self _
    · rw [hother hh] at hf
      exact h.tick.sentArrived frame hf
  · intro handle' hins frame hf frame' hf'
    by_cases hh : handle' = handle
    · subst hh
      have hmem : frame' ∈ s.pendingInboundMessages ++ s.inHand.toList := hf'
      rw [hinserted hins, hhand] at hmem
      cases hmem
    · rw [hother hh] at hf
      exact h.inserted hins frame hf frame' hf'
  · intro handle' rest hd
    obtain ⟨hsorted, hrest, hq, hh'⟩ := h.draining hd
    by_cases hh : handle' = handle
    · subst hh
      obtain rfl := hdraining rest hd
      rw [hself, List.append_nil]
      exact ⟨pairwise_concat h.sent h.sentArrived, by simp, hq, hh'⟩
    · rw [hother hh]
      exact ⟨hsorted, fun frame hf => Nat.lt_succ_of_lt (hrest frame hf), hq, hh'⟩
  · intro frame hf
    refine (h.missed frame hf).imp_right fun ⟨handle', rest, hd, hmem⟩ => ⟨handle', rest, hd, ?_⟩
    exact (List.mem_append.mp hmem).elim
      (fun hmem => List.mem_append_left _ (mem_channel_send (s := { s with arrived := s.arrived + 1 }) hmem))
      (List.mem_append_right _)
  · intro handle' frame hf
    exact mem_channel_send (s := { s with arrived := s.arrived + 1 }) (h.owed frame hf)

theorem arrive_miss (h : s.Inv) (htx : s.txToInbound = none) (hhand : s.inHand = none) :
    Inv { s with arrived := s.arrived + 1, inHand := some s.arrived, missed := s.missed ++ [s.arrived] } := by
  have hqueue : s.pendingInboundMessages ++ s.inHand.toList = s.pendingInboundMessages := by
    rw [hhand]
    exact List.append_nil _
  have hnot : ∀ {handle phase} {P : Prop}, s.multiplexed handle = phase → phase.InProgress → P := by
    intro handle phase P hphase hp
    cases htx.symm.trans (h.places.of_inProgress hphase hp)
  refine { h.tick with
    queued := ?_
    queuedArrived := fun frame hf => ?_
    inserted := fun hins => hnot hins trivial
    draining := fun hd => hnot hd trivial
    missed := fun frame hf => ?_ }
  · refine pairwise_concat (hqueue ▸ h.queued) fun frame hf => h.queuedArrived frame ?_
    exact List.mem_append_left _ hf
  · obtain hf | hf := List.mem_append.mp hf
    · exact h.tick.queuedArrived frame (List.mem_append_left _ hf)
    · rw [List.mem_singleton.mp hf]
      exact Nat.lt_succ_self _
  · obtain hf | hf := List.mem_append.mp hf
    · refine (h.missed frame hf).imp_left fun hmem => ?_
      rw [hqueue] at hmem
      exact List.mem_append_left _ hmem
    · exact .inl (List.mem_append_right _ hf)

theorem arrive (h : s.Inv) (hcond : s.Orderly .arrive) : (s.step .arrive).Inv := by
  simp only [Inbox.step]
  split
  · rename_i hhand
    split
    · rename_i handle htx
      split
      · exact h.tick
      · exact h.arrive_send htx hhand hcond
    · rename_i htx
      exact h.arrive_miss htx hhand
  · exact h

theorem queue (h : s.Inv) : (s.step .queue).Inv := by
  simp only [Inbox.step]
  split
  · rename_i frame hhand
    have hqueue : s.pendingInboundMessages ++ s.inHand.toList = s.pendingInboundMessages ++ [frame] ++ [] := by
      rw [hhand]
      exact (List.append_nil _).symm
    refine { h with
      queued := hqueue ▸ h.queued
      queuedArrived := hqueue ▸ h.queuedArrived
      inserted := fun hins => hqueue ▸ h.inserted hins
      draining := fun hd => ?_
      missed := fun frame' hf => hqueue ▸ h.missed frame' hf }
    have hnone := (h.draining hd).2.2.2
    rw [hhand] at hnone
    cases hnone
  · exact h

theorem insert (h : s.Inv) (hcond : s.Orderly .insert) : (s.step .insert).Inv := by
  have hself : (s.step .insert).multiplexed s.handles = .inserted := update_self ..
  have hother : ∀ {handle}, handle ≠ s.handles → (s.step .insert).multiplexed handle = s.multiplexed handle :=
    fun hh => update_of_ne hh ..
  have hempty : s.channel s.handles = [] := h.fresh (Nat.le_refl _)
  have hplaces : Places (s.handles + 1) (some s.handles) (s.step .insert).multiplexed := by
    refine ⟨fun hle => ?_, fun htx => ?_, fun hlast _ => ?_, fun {handle} hp => ?_⟩
    · rw [hother (by omega)]
      exact h.places.fresh (by omega)
    · rw [Option.some.inj htx]
    · rw [Nat.succ.inj hlast]
    · by_cases hh : handle = s.handles
      · rw [hh]
      · rw [hother hh] at hp
        exact absurd hp (hcond handle)
  refine { h with
    places := hplaces
    fresh := fun hle => h.fresh (Nat.le_of_succ_le hle)
    inserted := fun {handle} hins frame hf => ?_
    draining := fun {handle rest} hd => ?_
    missed := fun frame hf => (h.missed frame hf).imp_right fun ⟨handle, rest, hd, _⟩ => ?_ }
  · by_cases hh : handle = s.handles
    · subst hh
      have hmem : frame ∈ s.channel s.handles := hf
      rw [hempty] at hmem
      cases hmem
    · rw [hother hh] at hins
      exact h.inserted hins frame hf
  · by_cases hh : handle = s.handles
    · subst hh
      cases hself.symm.trans hd
    · rw [hother hh] at hd
      exact h.draining hd
  · refine absurd ?_ (hcond handle)
    rw [hd]
    trivial

theorem setMultiplexed (h : s.Inv) {tx : Option Nat} (hplaces : Places s.handles tx (update s.multiplexed handle phase))
    (hins : phase ≠ .inserted) (hd : ∀ rest, phase ≠ .draining rest)
    (hmissed : s.missed = [] ∨ ∀ rest, s.multiplexed handle ≠ .draining rest) :
    ({ s with txToInbound := tx }.setMultiplexed handle phase).Inv := by
  have hself := multiplexed_set_self handle phase { s with txToInbound := tx }
  have hother : ∀ {handle'}, handle' ≠ handle →
      ({ s with txToInbound := tx }.setMultiplexed handle phase).multiplexed handle' = s.multiplexed handle' :=
    fun hh => multiplexed_set_of_ne hh ..
  refine { h with
    places := hplaces
    inserted := fun {handle'} hins' => ?_
    draining := fun {handle' rest} hd' => ?_
    missed := fun frame hf => (h.missed frame hf).imp_right fun ⟨handle', rest, hd', hmem⟩ => ?_ }
  · by_cases hh : handle' = handle
    · subst hh
      rw [hself] at hins'
      exact absurd hins' hins
    · rw [hother hh] at hins'
      exact h.inserted hins'
  · by_cases hh : handle' = handle
    · subst hh
      rw [hself] at hd'
      exact absurd hd' (hd rest)
    · rw [hother hh] at hd'
      exact h.draining hd'
  · by_cases hh : handle' = handle
    · subst hh
      obtain hnone | hnot := hmissed
      · have hf : frame ∈ s.missed := hf
        rw [hnone] at hf
        cases hf
      · exact absurd hd' (hnot rest)
    · exact ⟨handle', rest, (hother hh).trans hd', hmem⟩

theorem take (h : s.Inv) (hcond : s.Orderly (.take handle)) : (s.step (.take handle)).Inv := by
  simp only [Inbox.step]
  split
  · rename_i hins
    have hhand : s.inHand = none := hcond
    have hqueue : s.pendingInboundMessages ++ s.inHand.toList = s.pendingInboundMessages := by
      rw [hhand]
      exact List.append_nil _
    have hself := multiplexed_set_self handle (.draining s.pendingInboundMessages) { s with pendingInboundMessages := [] }
    have hother : ∀ {handle'}, handle' ≠ handle → ({ s with pendingInboundMessages := [] }.setMultiplexed handle
        (.draining s.pendingInboundMessages)).multiplexed handle' = s.multiplexed handle' :=
      fun hh => multiplexed_set_of_ne hh ..
    have honly : ∀ {handle' phase}, s.multiplexed handle' = phase → phase.InProgress → handle' = handle :=
      fun hphase hp => h.places.unique hins trivial hphase hp
    refine { h with
      places := h.places.set (by simp [hins]) (fun _ => by rw [hins]; trivial)
      queued := by rw [show _ = none from hhand]; exact List.Pairwise.nil
      queuedArrived := by rw [show _ = none from hhand]; exact nofun
      inserted := fun {handle'} hins' => ?_
      draining := fun {handle' rest} hd => ?_
      missed := fun frame hf => .inr ?_ }
    · by_cases hh : handle' = handle
      · subst hh
        cases hself.symm.trans hins'
      · rw [hother hh] at hins'
        exact absurd (honly hins' trivial) hh
    · by_cases hh : handle' = handle
      · subst hh
        obtain rfl := Multiplexed.draining.inj (hself.symm.trans hd)
        refine ⟨List.pairwise_append.mpr ⟨h.sent, hqueue ▸ h.queued, fun frame hf frame' hf' => ?_⟩, fun frame hf => ?_,
          rfl, hhand⟩
        · exact h.inserted hins frame hf frame' (List.mem_append_left _ hf')
        · exact h.queuedArrived frame (List.mem_append_left _ hf)
      · rw [hother hh] at hd
        exact absurd (honly hd trivial) hh
    · refine ⟨handle, s.pendingInboundMessages, hself, ?_⟩
      obtain hmem | ⟨handle', rest, hd, -⟩ := h.missed frame hf
      · rw [hqueue] at hmem
        exact List.mem_append_right _ hmem
      · obtain rfl := honly hd trivial
        cases hins.symm.trans hd
  · exact h

theorem sendNext (h : s.Inv) : (s.step (.sendNext handle)).Inv := by
  simp only [Inbox.step]
  split
  · rename_i frame rest hdr
    obtain ⟨hsorted, hrest, hq, hhand⟩ := h.draining hdr
    have hmoved : s.channel handle ++ frame :: rest = s.channel handle ++ [frame] ++ rest := by simp
    have hself := multiplexed_set_self handle (.draining rest) (s.send handle frame)
    have hother : ∀ {handle'}, handle' ≠ handle →
        ((s.send handle frame).setMultiplexed handle (.draining rest)).multiplexed handle' = s.multiplexed handle' :=
      fun hh => multiplexed_set_of_ne hh ..
    have hchannel : ((s.send handle frame).setMultiplexed handle (.draining rest)).channel handle =
        s.channel handle ++ [frame] := channel_send_self ..
    have hchannel' : ∀ {handle'}, handle' ≠ handle →
        ((s.send handle frame).setMultiplexed handle (.draining rest)).channel handle' = s.channel handle' :=
      fun hh => channel_send_of_ne hh ..
    rw [hmoved] at hsorted
    refine ⟨h.places.set (by simp [hdr]) (fun _ => by rw [hdr]; trivial), fun {handle'} hle => ?_, h.queued,
      h.queuedArrived, fun {handle'} => ?_, fun {handle'} => ?_,
      fun {handle'} hins => ?_, fun {handle' rest'} hd => ?_, fun frame' hf => (h.missed frame' hf).imp_right ?_,
      fun frame' hf => mem_channel_send (h.owed frame' hf)⟩
    · have hh : handle' ≠ handle := by
        rintro rfl
        rw [h.places.fresh hle] at hdr
        cases hdr
      rw [hchannel' hh]
      exact h.fresh hle
    · by_cases hh : handle' = handle
      · subst hh
        rw [hchannel]
        exact (List.pairwise_append.mp hsorted).1
      · rw [hchannel' hh]
        exact h.sent
    · by_cases hh : handle' = handle
      · subst hh
        rw [hchannel]
        intro frame' hf
        obtain hf | hf := List.mem_append.mp hf
        · exact h.sentArrived frame' hf
        · rw [List.mem_singleton.mp hf]
          exact hrest frame List.mem_cons_self
      · rw [hchannel' hh]
        exact h.sentArrived
    · by_cases hh : handle' = handle
      · subst hh
        cases hself.symm.trans hins
      · rw [hother hh] at hins
        rw [hchannel' hh]
        exact h.inserted hins
    · by_cases hh : handle' = handle
      · subst hh
        obtain rfl := Multiplexed.draining.inj (hself.symm.trans hd)
        rw [hchannel]
        exact ⟨hsorted, fun frame' hf => hrest frame' (List.mem_cons_of_mem _ hf), hq, hhand⟩
      · rw [hother hh] at hd
        rw [hchannel' hh]
        exact h.draining hd
    · rintro ⟨handle', rest', hd, hmem⟩
      by_cases hh : handle' = handle
      · subst hh
        obtain rfl := Multiplexed.draining.inj (hdr.symm.trans hd)
        refine ⟨handle', rest, hself, ?_⟩
        rwa [hchannel, ← hmoved]
      · exact ⟨handle', rest', (hother hh).trans hd, by rwa [hchannel' hh]⟩
  · exact h

theorem build (h : s.Inv) {ok : Bool} (hcond : s.Orderly (.build handle ok)) : (s.step (.build handle ok)).Inv := by
  simp only [Inbox.step]
  split
  · rename_i hd
    have hhere : s.multiplexed handle ≠ .gone := by simp [hd]
    split
    · have howed : Inv { s with owed := update s.owed handle s.missed, missed := [] } := by
        refine { h with missed := nofun, owed := fun {handle'} frame hf => ?_ }
        by_cases hh : handle' = handle
        · subst hh
          have hf : frame ∈ s.missed := by simpa using hf
          obtain ⟨-, -, hq, hhand⟩ := h.draining hd
          obtain hmem | ⟨handle'', rest, hd', hmem⟩ := h.missed frame hf
          · rw [hq, hhand] at hmem
            cases hmem
          · obtain rfl := h.places.unique hd trivial hd' trivial
            obtain rfl := Multiplexed.draining.inj (hd.symm.trans hd')
            rwa [List.append_nil] at hmem
        · have hf : frame ∈ s.owed handle' := by simpa [hh] using hf
          exact h.owed frame hf
      exact howed.setMultiplexed (h.places.set hhere fun hp => hp.elim) (by simp) (by simp) (.inl rfl)
    · rename_i hok
      refine h.setMultiplexed (h.places.set hhere fun _ => ?_) (by simp) (by simp) (.inl (hcond (by simpa using hok)))
      rw [hd]
      trivial
  · exact h

theorem unregister (h : s.Inv) (hother : ∀ newer, s.txToInbound = some newer → newer = handle)
    (hd : ∀ rest, s.multiplexed handle ≠ .draining rest) : (s.unregister handle).Inv := by
  have hplaces : Places s.handles none (update s.multiplexed handle .gone) := by
    refine ⟨fun {handle'} hle => ?_, nofun, fun {handle'} hlast hhere => ?_, fun {handle'} hp => ?_⟩
    · by_cases hh : handle' = handle
      · subst hh
        exact update_self ..
      · rw [update_of_ne hh]
        exact h.places.fresh hle
    · by_cases hh : handle' = handle
      · subst hh
        rw [update_self] at hhere
        exact absurd rfl hhere
      · rw [update_of_ne hh] at hhere
        exact absurd (hother handle' (h.places.newest hlast hhere)) hh
    · by_cases hh : handle' = handle
      · subst hh
        rw [update_self] at hp
        exact hp.elim
      · rw [update_of_ne hh] at hp
        exact h.places.single hp
  exact h.setMultiplexed hplaces (by simp) (by simp) (.inr hd)

theorem step (h : s.Inv) (act : InboxAct) (hcond : s.Orderly act) : (s.step act).Inv := by
  cases act with
  | arrive => exact h.arrive hcond
  | queue => exact h.queue
  | insert => exact h.insert hcond
  | take handle => exact h.take hcond
  | sendNext handle => exact h.sendNext
  | build handle ok => exact h.build hcond
  | dropFailed handle =>
    simp only [Inbox.step]
    split
    · rename_i hfailing
      refine h.unregister (fun newer hnewer => ?_) (by simp [hfailing])
      exact Option.mem_unique hnewer (h.places.of_inProgress hfailing trivial)
    · exact h
  | drop handle =>
    simp only [Inbox.step]
    split
    · rename_i hlive
      exact h.unregister hcond (by simp [hlive])
    · exact h

end Inv

theorem inv_of_run {s : Inbox} (h : InboxRun Orderly s) : s.Inv := by
  induction h with
  | new => exact inv_new
  | step act _ hcond ih => exact ih.step act hcond

end Inbox

/-- In every orderly run a handle's ILM is sent frames in the order of arrival and without repetition, with every one
that had found no handle before, and the newest handle stays registered until it is dropped. -/
theorem frames_in_order {s : Inbox} (h : InboxRun Inbox.Orderly s) :
    (∀ handle, (s.channel handle).Sublist (List.range s.arrived) ∧ (s.channel handle).Nodup) ∧
    (∀ handle, ∀ frame ∈ s.owed handle, frame ∈ s.channel handle) ∧
    ∀ handle, handle + 1 = s.handles → s.multiplexed handle ≠ .gone → s.txToInbound = some handle := by
  have hinv := Inbox.inv_of_run h
  have hnodup : ∀ handle, (s.channel handle).Nodup := fun handle => hinv.sent.imp Nat.ne_of_lt
  refine ⟨fun handle => ⟨?_, hnodup handle⟩, fun handle => hinv.owed, fun handle => hinv.places.newest⟩
  have hsub : s.channel handle ⊆ List.range s.arrived :=
    fun frame hf => List.mem_range.mpr (hinv.sentArrived frame hf)
  exact List.sublist_of_subperm_of_pairwise (List.subperm_of_subset (hnodup handle) hsub) hinv.sent
    List.pairwise_lt_range

def twoHandles : Inbox :=
  [.arrive, .queue, .insert, .take 0, .sendNext 0, .arrive, .build 0 true, .arrive, .drop 0, .arrive, .queue, .insert,
    .take 1, .sendNext 1, .build 1 true].foldl Inbox.step .new

theorem frames_in_order_two_handles : InboxRun Inbox.Orderly twoHandles ∧
    twoHandles.channel 0 = [0, 1, 2] ∧ twoHandles.owed 1 = [3] ∧ 3 ∈ twoHandles.channel 1 := by
  have hrun : InboxRun Inbox.Orderly twoHandles := by
    simp only [twoHandles, List.foldl_cons, List.foldl_nil]
    refine .step _ (.step _ (.step _ (.step _ (.step _ (.step _ (.step _ (.step _ (.step _ (.step _ (.step _ (.step _
      (.step _ (.step _ (.step _ .new ?_) trivial) ?_) rfl) trivial) ?_) ?_) ?_) ?_) ?_) trivial) ?_) rfl) trivial) ?_
    · intro handle htx
      cases htx
    · exact fun handle => id
    · intro handle htx
      obtain rfl := Option.some.inj htx
      exact ⟨nofun, fun rest hd => (Multiplexed.draining.inj hd).symm⟩
    · intro hok
      cases hok
    · intro handle htx
      obtain rfl := Option.some.inj htx
      exact ⟨nofun, fun rest hd => (nomatch hd)⟩
    · intro newer hnewer
      exact (Option.some.inj hnewer).symm
    · intro handle htx
      cases htx
    · intro handle
      match handle with
      | 0 => exact id
      | n + 1 => exact id
    · intro hok
      cases hok
  exact ⟨hrun, by decide, by decide, (frames_in_order hrun).2.1 1 3 (by decide)⟩

def olderDropped : Inbox :=
  [.insert, .take 0, .build 0 true, .insert, .take 1, .build 1 true, .drop 0].foldl Inbox.step .new

/-- The queue is drained while the inbound task has a frame for it in hand. -/
def stranded : Inbox := [.arrive, .insert, .take 0, .queue, .build 0 true].foldl Inbox.step .new

/-- A frame arrives between the registration of the handle and the end of its queue. -/
def overtaken : Inbox := [.arrive, .queue, .insert, .arrive, .take 0, .sendNext 0].foldl Inbox.step .new

/-- The `multiplex` that has drained the queue fails. -/
def drained : Inbox :=
  [.arrive, .queue, .insert, .take 0, .sendNext 0, .build 0 false, .dropFailed 0, .insert, .take 1,
    .build 1 true].foldl Inbox.step .new

/-- The newer handle is unregistered; a frame is owed to a handle and not sent to it; a frame is sent after a later one;
and a frame that a failed call took is not sent to the next handle. -/
theorem frames_out_of_order :
    (InboxRun (fun _ _ => True) olderDropped ∧ olderDropped.multiplexed 1 = .live ∧ olderDropped.txToInbound = none) ∧
    (InboxRun (fun _ _ => True) stranded ∧ stranded.owed 0 = [0] ∧ stranded.channel 0 = []) ∧
    (InboxRun (fun _ _ => True) overtaken ∧ overtaken.channel 0 = [1, 0]) ∧
    InboxRun (fun _ _ => True) drained ∧ drained.owed 1 = [0] ∧ drained.channel 1 = [] :=
  ⟨⟨.foldl .new, by decide, by decide⟩, ⟨.foldl .new, by decide, by decide⟩, ⟨.foldl .new, by decide⟩, .foldl .new,
    by decide, by decide⟩

end CitadelAgent.Messenger
