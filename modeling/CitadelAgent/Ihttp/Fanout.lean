import CitadelAgent.Ihttp.FanoutPlan

/-!
# Internal HTTP: fan-outs

`citadel-app-sdk/src/ihttp/fanout.rs`: one request to many servers. The fan-outs of an instance are a table; a client
event, a tick, a queued task or the app changes it, and the app starts and cancels further fan-outs inside its own
callbacks.

* `Fanouts` and its operations, as the source has them; `Fanouts.told` keeps what each fan-out did, in order;
* `Kept` : what a fan-out promises of everything it did;
* `Core` : the invariant of a fan-out that is in the table;
* `fanout_settles` : every fan-out of every run keeps its promises.
-/

namespace CitadelAgent.Ihttp
open Function

inductive FanEvent
  | asked (targets : List Address) (limits : FanoutLimits)
  | start (i : Nat) (key : ClientKey)
  | cancel (key : ClientKey)
  | settled (i : Nat) (outcome : Outcome)
  | each (i : Nat) (outcome : Outcome)
  | done (all : List (Address × Outcome × Via))

structure FanRun where
  plan : Plan
  targets : List Address
  vias : List Via
  keys : Nat → Option ClientKey
  partials : Nat → Option (Option ResponseHead × List UInt8)
  /-- The callbacks are there: `each` is out of its place while it runs. -/
  each : Bool
  done : Bool

/-- What `pending::spawn` queues for a fan-out. -/
inductive FanTask
  | finishIfDone (id : Nat)
  | stopAll (id : Nat)

structure Fanouts where
  last : Nat
  runs : Nat → Option FanRun
  ready : List FanTask
  lastStream : Nat
  told : Nat → List FanEvent

inductive FanAct
  | start (targets : List Address) (transport : Transport) (limits : FanoutLimits)
  | cancel (id : Nat)

abbrev FanApp := Nat → FanEvent → List FanAct

/-- The plane a transport tries first, until a frame says which one answered. -/
def firstVia : Transport → Via
  | .relay => .relay
  | .p2p => .p2p
  | .preferP2pThenRelay => .p2p

def noHead : Refused := .unavailable "response without a head"

def wrote (before after : List (Option Outcome)) : List (Nat × Outcome) :=
  (List.range after.length).filterMap fun i =>
    match after[i]? with
    | some (some o) => if before[i]? = some (some o) then none else some (i, o)
    | _ => none

def recorded (outcomes : List (Nat × Outcome)) : List FanEvent := outcomes.map fun e => .settled e.1 e.2

def FanRun.new (targets : List Address) (transport : Transport) (limits : FanoutLimits) : FanRun :=
  { plan := Plan.new targets.length limits
    targets
    vias := List.replicate targets.length (firstVia transport)
    keys := fun _ => none
    partials := fun _ => none
    each := true
    done := true }

def FanRun.take (i : Nat) (event : ClientEvent) (r : FanRun) : FanRun × Option Outcome :=
  match event with
  | .head head via =>
      ({ r with
          vias := r.vias.set i via
          partials := update r.partials i (some (some head, ((r.partials i).getD (none, [])).2)) }, none)
  | .body bytes =>
      let counted := r.plan.addBytes i bytes.length
      let part := (r.partials i).getD (none, [])
      ({ r with plan := counted.1, partials := update r.partials i (some (part.1, part.2 ++ bytes)) },
        counted.2.map .failed)
  | .end_ =>
      let part := (r.partials i).getD (none, [])
      ({ r with partials := update r.partials i none },
        some (match part.1 with
          | none => .failed noHead
          | some head => .ok ⟨head, (r.vias[i]?).getD .relay, part.2⟩))
  | .failed e => (r, some (.failed e))

/-- What `done` is called with. -/
def FanRun.all (r : FanRun) : List (Address × Outcome × Via) :=
  ((r.targets.zip r.plan.outcomes).zip r.vias).map fun e => (e.1.1, e.1.2, e.2)

def Outcome.isOk : Outcome → Bool
  | .ok _ => true
  | _ => false

namespace Fanouts

def tell (id : Nat) (events : List FanEvent) (s : Fanouts) : Fanouts :=
  { s with told := update s.told id (s.told id ++ events) }

def setRun (id : Nat) (run : Option FanRun) (s : Fanouts) : Fanouts := { s with runs := update s.runs id run }

def withRun (id : Nat) (f : FanRun → FanRun) (s : Fanouts) : Fanouts := s.setRun id ((s.runs id).map f)

def spawn (task : FanTask) (s : Fanouts) : Fanouts := { s with ready := s.ready ++ [task] }

/-- `start(id, i)`, whose key is kept. -/
def startOne (id : Nat) (targets : List Address) (s : Fanouts) (i : Nat) : Fanouts :=
  match targets[i]? with
  | none => s
  | some to_ =>
      let key : ClientKey := ((target to_).1, s.lastStream + 1)
      ({ s with lastStream := s.lastStream + 1 }.tell id [.start i key]).withRun id fun r =>
        { r with keys := update r.keys i (some key) }

def admit_ (id : Nat) (s : Fanouts) : Fanouts :=
  match s.runs id with
  | none => s
  | some r =>
      let admitted := r.plan.admit_
      admitted.2.foldl (startOne id r.targets) (s.setRun id (some { r with plan := admitted.1 }))

/-- `fanout::start`. -/
def start (targets : List Address) (transport : Transport) (limits : FanoutLimits) (s : Fanouts) : Fanouts :=
  let id := s.last + 1
  let run := FanRun.new targets transport limits
  let s := ({ s with last := id }.setRun id (some run)).tell id
    (.asked targets limits :: recorded (wrote (List.replicate targets.length none) run.plan.settled))
  (s.admit_ id).spawn (.finishIfDone id)

/-- `fanout::cancel`. -/
def cancel (id : Nat) (s : Fanouts) : Fanouts := s.spawn (.stopAll id)

def perform (s : Fanouts) : FanAct → Fanouts
  | .start targets transport limits => s.start targets transport limits
  | .cancel id => s.cancel id

def performAll (acts : List FanAct) (s : Fanouts) : Fanouts := acts.foldl perform s

def finishIfDone (app : FanApp) (id : Nat) (s : Fanouts) : Fanouts :=
  match s.runs id with
  | none => s
  | some r =>
      if r.plan.isDone = true then
        let s := s.setRun id none
        if r.done = true then (s.tell id [.done r.all]).performAll (app id (.done r.all)) else s
      else s

/-- Record `i`'s outcome, tell the app, stop its stream if it is still open, start the next. -/
def settle (app : FanApp) (id i : Nat) (outcome : Outcome) (stop : Bool) (s : Fanouts) : Fanouts :=
  match s.runs id with
  | none => s
  | some r =>
      let settled := r.plan.settle i outcome
      if settled.2 = true then
        let s := (s.setRun id (some { r with
          plan := settled.1
          partials := update r.partials i none
          keys := update r.keys i none
          each := false })).tell id [.settled i outcome]
        let s := match stop, r.keys i with
          | true, some key => s.tell id [.cancel key]
          | _, _ => s
        let s := if r.each = true then
            ((s.tell id [.each i outcome]).performAll (app id (.each i outcome))).withRun id fun r =>
              { r with each := true }
          else s
        (s.admit_ id).finishIfDone app id
      else s

def onEvent (app : FanApp) (id i : Nat) (event : ClientEvent) (s : Fanouts) : Fanouts :=
  match s.runs id with
  | none => s
  | some r =>
      let taken := r.take i event
      let s := s.setRun id (some taken.1)
      match taken.2 with
      | none => s
      | some outcome => s.settle app id i outcome (!outcome.isOk)

def stop (app : FanApp) (stops : Plan → Plan × List (Nat × Outcome)) (id : Nat) (s : Fanouts) : Fanouts :=
  match s.runs id with
  | none => s
  | some r =>
      let stopped := stops r.plan
      let s := (s.setRun id (some { r with plan := stopped.1 })).tell id
        (recorded (wrote r.plan.settled stopped.1.settled))
      (stopped.2.foldl (fun s e => s.settle app id e.1 e.2 true) s).finishIfDone app id

def tick (app : FanApp) (ms : UInt32) (s : Fanouts) : Fanouts :=
  ((List.range (s.last + 1)).filter fun id => (s.runs id).isSome).foldl
    (fun s id => s.stop app (Plan.elapse ms) id) s

def runTask (app : FanApp) (s : Fanouts) : Fanouts :=
  match s.ready with
  | [] => s
  | .finishIfDone id :: ready => { s with ready }.finishIfDone app id
  | .stopAll id :: ready => { s with ready }.stop app Plan.stopAll id

end Fanouts

/-! ## What a fan-out promises -/

namespace FanEvent

def isStart (i : Nat) : FanEvent → Bool
  | .start j _ => j = i
  | _ => false

def isSettled (i : Nat) : FanEvent → Bool
  | .settled j _ => j = i
  | _ => false

def isEach (i : Nat) : FanEvent → Bool
  | .each j _ => j = i
  | _ => false

def isDone : FanEvent → Bool
  | .done _ => true
  | _ => false

end FanEvent

def startsOf (i : Nat) (told : List FanEvent) : Nat := told.countP (FanEvent.isStart i)
def settlesOf (i : Nat) (told : List FanEvent) : Nat := told.countP (FanEvent.isSettled i)
def eachesOf (i : Nat) (told : List FanEvent) : Nat := told.countP (FanEvent.isEach i)
def donesIn (told : List FanEvent) : Nat := told.countP FanEvent.isDone

def inFlight (targets : Nat) (told : List FanEvent) : Nat :=
  ((List.range targets).filter fun i => 0 < startsOf i told ∧ settlesOf i told = 0).length

/-- The bytes of an outcome that is `Ok`. -/
def Outcome.okBytes : Outcome → Nat
  | .ok response => response.body.length
  | _ => 0

/-- The promises to the app that asked for `targets` within `limits`. -/
structure Kept (targets : List Address) (limits : FanoutLimits) (told : List FanEvent) : Prop where
  starts : ∀ i, startsOf i told ≤ 1
  settles : ∀ i, settlesOf i told ≤ 1
  eaches : ∀ i, eachesOf i told ≤ 1
  reports : ∀ i o, .each i o ∈ told → .settled i o ∈ told
  concurrency : ∀ before, before <+: told → inFlight targets.length before ≤ limits.maxConcurrency.toNat
  dones : donesIn told ≤ 1
  outcomes : ∀ all, .done all ∈ told →
    all.map (·.1) = targets ∧ ∀ (i : Nat) o, (all.map (·.2.1))[i]? = some o ↔ .settled i o ∈ told
  bytes : ∀ all, .done all ∈ told → (all.map fun e => e.2.1.okBytes).sum ≤ limits.maxTotalBytes.toNat

namespace FanRun

def partBytes (part : Option (Option ResponseHead × List UInt8)) : Nat := part.elim 0 fun part => part.2.length

def settledBytes (r : FanRun) : Nat := (r.plan.settled.map fun o => o.elim 0 Outcome.okBytes).sum

def comingBytes (r : FanRun) : Nat := r.plan.running.total fun i _ => partBytes (r.partials i)

end FanRun

namespace Fanouts

def hasSink (id i : Nat) (s : Fanouts) : Bool := (s.told id).any (FanEvent.isStart i)

/-- The bodies that one process holds are in one address space; it aborts on a chunk there is no room for. -/
def fits (id : Nat) (event : ClientEvent) (s : Fanouts) : Bool :=
  match event, s.runs id with
  | .body bytes, some r => r.settledBytes + r.comingBytes + bytes.length < 2 ^ 64
  | _, _ => true

end Fanouts

inductive FanStep
  | app (act : FanAct)
  | event (id i : Nat) (event : ClientEvent)
  | tick (ms : UInt32)
  | task

def Fanouts.step (app : FanApp) (s : Fanouts) : FanStep → Fanouts
  | .app act => s.perform act
  | .event id i event => if s.hasSink id i = true ∧ s.fits id event = true then s.onEvent app id i event else s
  | .tick ms => s.tick app ms
  | .task => s.runTask app

/-- The states the fan-outs of an instance reach; the app does something else in each step. -/
inductive FanoutsRun : Fanouts → Prop
  | start (lastStream : Nat) : FanoutsRun ⟨0, fun _ => none, [], lastStream, fun _ => []⟩
  | step {s : Fanouts} (app : FanApp) (act : FanStep) : FanoutsRun s → FanoutsRun (s.step app act)

/-! ## A fan-out in the table -/

/-- The invariant of a fan-out in the table; `ready` are the targets that run and are still to be started. -/
structure Base (ready : List Nat) (r : FanRun) (told : List FanEvent) : Prop where
  plan : r.plan.Ok
  asked : told.head? = some (.asked r.targets r.plan.limits)
  slots : r.plan.settled.length = r.targets.length
  vias : r.vias.length = r.targets.length
  done : r.done = true
  dones : donesIn told = 0
  settles : ∀ i, settlesOf i told = if (r.plan.settled[i]?).join.isSome then 1 else 0
  outcome : ∀ i o, .settled i o ∈ told → r.plan.settled[i]? = some (some o)
  eaches : ∀ i, eachesOf i told ≤ settlesOf i told
  reports : ∀ i o, .each i o ∈ told → .settled i o ∈ told
  starts : ∀ i, startsOf i told ≤ 1
  within : ∀ i, 0 < startsOf i told → i < r.targets.length
  unstarted : ∀ i, i ∈ r.plan.waiting ∨ i ∈ ready → startsOf i told = 0
  readyNodup : ready.Nodup
  readyRuns : ∀ i ∈ ready, i ∈ r.plan.running.keys
  parts : ∀ i, r.partials i ≠ none → 0 < startsOf i told
  bytesLe : r.settledBytes + r.comingBytes ≤ r.plan.limits.maxTotalBytes.toNat
  counted : min (r.settledBytes + r.comingBytes) (2 ^ 64 - 1) ≤ r.plan.bytes

def Peak (targets : Nat) (limits : FanoutLimits) (told : List FanEvent) : Prop :=
  ∀ before, before <+: told → inFlight targets before ≤ limits.maxConcurrency.toNat

variable {r : FanRun} {told : List FanEvent} {ready : List Nat} {i id : Nat} {outcome : Outcome}

@[simp] theorem startsOf_append (i : Nat) (l l' : List FanEvent) : startsOf i (l ++ l') = startsOf i l + startsOf i l' :=
  List.countP_append

@[simp] theorem settlesOf_append (i : Nat) (l l' : List FanEvent) : settlesOf i (l ++ l') = settlesOf i l + settlesOf i l' :=
  List.countP_append

@[simp] theorem eachesOf_append (i : Nat) (l l' : List FanEvent) : eachesOf i (l ++ l') = eachesOf i l + eachesOf i l' :=
  List.countP_append

@[simp] theorem donesIn_append (l l' : List FanEvent) : donesIn (l ++ l') = donesIn l + donesIn l' := List.countP_append

@[simp] theorem startsOf_one (i : Nat) (e : FanEvent) : startsOf i [e] = if e.isStart i = true then 1 else 0 := by
  simp [startsOf, List.countP_cons]

@[simp] theorem settlesOf_one (i : Nat) (e : FanEvent) : settlesOf i [e] = if e.isSettled i = true then 1 else 0 := by
  simp [settlesOf, List.countP_cons]

@[simp] theorem eachesOf_one (i : Nat) (e : FanEvent) : eachesOf i [e] = if e.isEach i = true then 1 else 0 := by
  simp [eachesOf, List.countP_cons]

@[simp] theorem donesIn_one (e : FanEvent) : donesIn [e] = if e.isDone = true then 1 else 0 := by
  simp [donesIn, List.countP_cons]

attribute [simp] FanEvent.isStart FanEvent.isSettled FanEvent.isEach FanEvent.isDone

theorem Base.runs (h : Base ready r told) (hstarts : 0 < startsOf i told) (hsettles : settlesOf i told = 0) :
    i ∈ r.plan.running.keys := by
  have hlt : i < r.plan.settled.length := h.slots ▸ h.within i hstarts
  have hnone : r.plan.settled[i]? = some none := by
    have hslot := h.settles i
    rw [hsettles, List.getElem?_eq_getElem hlt] at hslot
    rw [List.getElem?_eq_getElem hlt]
    cases ho : r.plan.settled[i] with
    | none => rfl
    | some o => simp [ho] at hslot
  rcases (h.plan.placed i).mp hnone with hwaiting | hrunning
  · have := h.unstarted i (.inl hwaiting)
    omega
  · exact hrunning

theorem Base.inFlight_le (h : Base ready r told) :
    inFlight r.targets.length told ≤ r.plan.limits.maxConcurrency.toNat := by
  refine le_trans (List.Subperm.length_le ?_) h.plan.cap
  refine (List.nodup_range.filter _).subperm fun i hi => ?_
  have hi' := (List.mem_filter.mp hi).2
  simp only [decide_eq_true_eq] at hi'
  exact h.runs hi'.1 hi'.2

theorem Peak.append_one {targets : Nat} {limits : FanoutLimits} {e : FanEvent} (h : Peak targets limits told)
    (hlast : inFlight targets (told ++ [e]) ≤ limits.maxConcurrency.toNat) : Peak targets limits (told ++ [e]) := by
  intro before hbefore
  rcases List.prefix_concat_iff.mp hbefore with rfl | hbefore
  · exact hlast
  · exact h before hbefore

theorem Peak.append_quiet {targets : Nat} {limits : FanoutLimits} {events : List FanEvent} (h : Peak targets limits told)
    (hquiet : ∀ i, startsOf i events = 0) : Peak targets limits (told ++ events) := by
  induction events generalizing told with
  | nil => simpa using h
  | cons e events ih =>
      have hcons : ∀ i, startsOf i [e] = 0 ∧ startsOf i events = 0 := by
        intro i
        have := hquiet i
        rw [← List.singleton_append, startsOf_append] at this
        omega
      rw [← List.singleton_append, ← List.append_assoc]
      refine ih (h.append_one (le_trans ?_ (h told (List.prefix_refl _)))) fun i => (hcons i).2
      refine (List.monotone_filter_right _ fun i hi => ?_).length_le
      simp only [decide_eq_true_eq, startsOf_append, settlesOf_append, (hcons i).1] at hi ⊢
      omega

/-! ### Starting targets -/

theorem Base.admit_ (h : Base [] r told) : Base r.plan.admit_.2 { r with plan := r.plan.admit_.1 } told := by
  obtain ⟨hok, hadmits⟩ := h.plan.admit_
  have hready : ∀ i ∈ r.plan.admit_.2, i ∈ r.plan.waiting := fun i hi => by simp [hadmits.waiting, hi]
  have hnone : ∀ i ∈ r.plan.admit_.2, FanRun.partBytes (r.partials i) = 0 := by
    intro i hi
    have hpart : r.partials i = none := by
      by_contra hsome
      have := h.unstarted i (.inl (hready i hi))
      have := h.parts i hsome
      omega
    simp [hpart, FanRun.partBytes]
  have hsettled : FanRun.settledBytes { r with plan := r.plan.admit_.1 } = r.settledBytes := by
    simp [FanRun.settledBytes, hadmits.settled]
  have hcoming : FanRun.comingBytes { r with plan := r.plan.admit_.1 } = r.comingBytes :=
    hadmits.total (fun i => FanRun.partBytes (r.partials i)) hnone
  have hnodup := h.plan.nodup
  rw [hadmits.waiting, List.nodup_append] at hnodup
  refine ⟨hok, ?_, ?_, h.vias, h.done, h.dones, ?_, ?_, h.eaches, h.reports, h.starts, h.within, fun i hi => ?_,
    hnodup.1, fun i hi => ?_, h.parts, ?_, ?_⟩
  · simpa [hadmits.limits] using h.asked
  · simpa [hadmits.settled] using h.slots
  · simpa [hadmits.settled] using h.settles
  · simpa [hadmits.settled] using h.outcome
  · refine h.unstarted i (.inl ?_)
    rw [hadmits.waiting]
    exact List.mem_append.mpr hi.symm
  · exact (hadmits.running i).mpr (.inl hi)
  · rw [hsettled, hcoming, hadmits.limits]
    exact h.bytesLe
  · rw [hsettled, hcoming, hadmits.bytes]
    exact h.counted

theorem Base.startOne (h : Base (i :: ready) r told) (key : ClientKey) (keys : Nat → Option ClientKey) :
    Base ready { r with keys } (told ++ [.start i key]) := by
  have hstarts : ∀ j, startsOf j (told ++ [.start i key]) = startsOf j told + if i = j then 1 else 0 := by simp
  have hzero : startsOf i told = 0 := h.unstarted i (.inr (by simp))
  have hruns := h.readyRuns i (by simp)
  have hnodup := List.nodup_cons.mp h.readyNodup
  refine ⟨h.plan, ?_, h.slots, h.vias, h.done, ?_, fun j => ?_, fun j o ho => ?_, fun j => ?_, fun j o ho => ?_,
    fun j => ?_, fun j hj => ?_, fun j hj => ?_, hnodup.2, fun j hj => h.readyRuns j (by simp [hj]), fun j hj => ?_,
    h.bytesLe, h.counted⟩
  · simp [List.head?_append, h.asked]
  · simp [h.dones]
  · simpa using h.settles j
  · exact h.outcome j o (by simpa using ho)
  · simpa using h.eaches j
  · simpa using h.reports j o (by simpa using ho)
  · rw [hstarts]
    have := h.starts j
    by_cases hj : i = j
    · subst hj
      simp [hzero]
    · simpa [hj] using this
  · rw [hstarts] at hj
    by_cases hij : i = j
    · subst hij
      have hnone := (h.plan.placed i).mpr (.inr hruns)
      have hlt := (List.getElem?_eq_some_iff.mp hnone).1
      rw [h.slots] at hlt
      exact hlt
    · exact h.within j (by simpa [hij] using hj)
  · have hne : i ≠ j := by
      rintro rfl
      rcases hj with hj | hj
      · exact h.plan.apart i hj hruns
      · exact hnodup.1 hj
    rw [hstarts, if_neg hne]
    exact h.unstarted j (hj.imp id (List.mem_cons_of_mem _))
  · rw [hstarts]
    have := h.parts j hj
    omega

/-! ### Events -/

theorem Base.same (h : Base ready r told) (keys : Nat → Option ClientKey) (each : Bool) :
    Base ready { r with keys, each } told :=
  ⟨h.plan, h.asked, h.slots, h.vias, h.done, h.dones, h.settles, h.outcome, h.eaches, h.reports, h.starts, h.within,
    h.unstarted, h.readyNodup, h.readyRuns, h.parts, h.bytesLe, h.counted⟩

theorem Base.cancelled (h : Base [] r told) (key : ClientKey) : Base [] r (told ++ [.cancel key]) := by
  refine ⟨h.plan, ?_, h.slots, h.vias, h.done, ?_, fun j => ?_, fun j o ho => ?_, fun j => ?_, fun j o ho => ?_,
    fun j => ?_, fun j hj => ?_, fun j hj => ?_, List.nodup_nil, by simp, fun j hj => ?_, h.bytesLe, h.counted⟩
  · simp [List.head?_append, h.asked]
  · simp [h.dones]
  · simpa using h.settles j
  · exact h.outcome j o (by simpa using ho)
  · simpa using h.eaches j
  · simpa using h.reports j o (by simpa using ho)
  · simpa using h.starts j
  · exact h.within j (by simpa using hj)
  · simpa using h.unstarted j hj
  · simpa using h.parts j hj

theorem Base.reported (h : Base [] r told) (hsettled : .settled i outcome ∈ told) (heach : eachesOf i told = 0) :
    Base [] r (told ++ [.each i outcome]) := by
  have hcount : 0 < settlesOf i told := List.countP_pos_iff.mpr ⟨_, hsettled, by simp⟩
  refine ⟨h.plan, ?_, h.slots, h.vias, h.done, ?_, fun j => ?_, fun j o ho => ?_, fun j => ?_, fun j o ho => ?_,
    fun j => ?_, fun j hj => ?_, fun j hj => ?_, List.nodup_nil, by simp, fun j hj => ?_, h.bytesLe, h.counted⟩
  · simp [List.head?_append, h.asked]
  · simp [h.dones]
  · simpa using h.settles j
  · exact h.outcome j o (by simpa using ho)
  · have := h.eaches j
    by_cases hj : i = j
    · subst hj
      simp [heach]
      omega
    · simpa [hj] using this
  · simp only [List.mem_append, List.mem_singleton, FanEvent.each.injEq, reduceCtorEq, or_false] at ho ⊢
    rcases ho with ho | ⟨rfl, rfl⟩
    · exact h.reports j o ho
    · exact hsettled
  · simpa using h.starts j
  · exact h.within j (by simpa using hj)
  · simpa using h.unstarted j hj
  · simpa using h.parts j hj

theorem total_erase_key (m : SortedMap Nat Nat) (f : Nat → Nat) (i : Nat) :
    (m.erase i).total (fun j _ => f j) + (if i ∈ m.keys then f i else 0) = m.total fun j _ => f j := by
  rw [← m.total_erase (fun j _ => f j) i]
  simp only [SortedMap.mem_keys]
  cases m.get i <;> rfl

theorem total_erase_update (m : SortedMap Nat Nat) (parts : Nat → Option (Option ResponseHead × List UInt8)) (i : Nat)
    (part : Option (Option ResponseHead × List UInt8)) :
    (m.erase i).total (fun j _ => FanRun.partBytes (update parts i part j)) =
      (m.erase i).total fun j _ => FanRun.partBytes (parts j) := by
  unfold SortedMap.total
  congr 1
  refine List.map_congr_left fun e he => ?_
  simp only [update_of_ne (SortedMap.mem_erase.mp he).2]

theorem total_update (m : SortedMap Nat Nat) (parts : Nat → Option (Option ResponseHead × List UInt8)) (i : Nat)
    (part : Option (Option ResponseHead × List UInt8)) :
    m.total (fun j _ => FanRun.partBytes (update parts i part j)) + (if i ∈ m.keys then FanRun.partBytes (parts i) else 0) =
      m.total (fun j _ => FanRun.partBytes (parts j)) + if i ∈ m.keys then FanRun.partBytes part else 0 := by
  have hnew := total_erase_key m (fun j => FanRun.partBytes (update parts i part j)) i
  have hold := total_erase_key m (fun j => FanRun.partBytes (parts j)) i
  have hrest := total_erase_update m parts i part
  simp only [update_self] at hnew
  omega

variable {bytes : Nat} {vias : List Via} {o : Outcome}

theorem Base.part (h : Base [] r told) (hstarted : 0 < startsOf i told)
    (hvias : vias.length = r.vias.length) (part : Option (Option ResponseHead × List UInt8))
    (hbytes : min (r.settledBytes + r.plan.running.total fun j _ => FanRun.partBytes (update r.partials i part j))
      (2 ^ 64 - 1) ≤ bytes)
    (hle : r.settledBytes + (r.plan.running.total fun j _ => FanRun.partBytes (update r.partials i part j)) ≤
      r.plan.limits.maxTotalBytes.toNat) :
    Base [] { r with vias, plan := { r.plan with bytes }, partials := update r.partials i part } told := by
  refine ⟨⟨h.plan.nodup, h.plan.apart, h.plan.placed, h.plan.cap⟩, h.asked, h.slots, hvias.trans h.vias, h.done, h.dones,
    h.settles, h.outcome, h.eaches, h.reports, h.starts, h.within, h.unstarted, List.nodup_nil, by simp, fun j hj => ?_,
    hle, hbytes⟩
  by_cases hji : j = i
  · exact hji ▸ hstarted
  · exact h.parts j (by simpa [hji] using hj)

theorem sum_set_none (slots : List (Option Outcome)) (h : slots[i]? = some none) (outcome : Outcome) :
    ((slots.set i (some outcome)).map fun o => o.elim 0 Outcome.okBytes).sum =
      (slots.map fun o => o.elim 0 Outcome.okBytes).sum + outcome.okBytes := by
  induction slots generalizing i with
  | nil => simp at h
  | cons slot slots ih =>
      cases i with
      | zero =>
          obtain rfl : slot = none := by simpa using h
          simp
          omega
      | succ i =>
          have := ih (by simpa using h)
          simp only [List.set_cons_succ, List.map_cons, List.sum_cons, this]
          omega

theorem Base.settle (h : Base [] r told) (hnone : r.plan.settled[i]? = some none)
    (hok : outcome.okBytes ≤ if i ∈ r.plan.running.keys then FanRun.partBytes (r.partials i) else 0)
    (hvias : vias.length = r.vias.length) (hbytes : min (r.settledBytes + r.comingBytes) (2 ^ 64 - 1) ≤ bytes)
    (keys : Nat → Option ClientKey) (each : Bool) :
    Base []
      { r with
        plan := (Plan.settle i outcome { r.plan with bytes }).1
        vias, keys, each
        partials := update r.partials i none } (told ++ [.settled i outcome]) := by
  have hcount : Plan.Ok { r.plan with bytes } := ⟨h.plan.nodup, h.plan.apart, h.plan.placed, h.plan.cap⟩
  have hplan := hcount.settle i outcome
  obtain ⟨_, rfl, hnot, -⟩ | ⟨-, heq⟩ := Plan.settle_spec i outcome { r.plan with bytes }
  · exact absurd hnone hnot
  rw [heq] at hplan ⊢
  have hlt : i < r.plan.settled.length := (List.getElem?_eq_some_iff.mp hnone).1
  have hslot : ∀ j, (r.plan.settled.set i (some outcome))[j]? =
      if i = j then some (some outcome) else r.plan.settled[j]? := by
    intro j
    rw [List.getElem?_set]
    by_cases hj : i = j
    · simp [hj, hj ▸ hlt]
    · simp [hj]
  have hzero : settlesOf i told = 0 := by
    rw [h.settles, hnone]
    rfl
  have hsum := sum_set_none r.plan.settled hnone outcome
  have hcoming : ((r.plan.running.erase i).total fun j _ => FanRun.partBytes (update r.partials i none j)) +
      (if i ∈ r.plan.running.keys then FanRun.partBytes (r.partials i) else 0) = r.comingBytes := by
    rw [total_erase_update]
    exact total_erase_key r.plan.running (fun j => FanRun.partBytes (r.partials j)) i
  have hheld : ((r.plan.settled.set i (some outcome)).map fun o => o.elim 0 Outcome.okBytes).sum +
      ((r.plan.running.erase i).total fun j _ => FanRun.partBytes (update r.partials i none j)) ≤
        r.settledBytes + r.comingBytes := by
    rw [hsum, FanRun.settledBytes]
    omega
  have hle := h.bytesLe
  refine ⟨hplan, ?_, ?_, hvias.trans h.vias, h.done, ?_, fun j => ?_, fun j o ho => ?_, fun j => ?_, fun j o ho => ?_,
    fun j => ?_, fun j hj => ?_, fun j hj => ?_, List.nodup_nil, by simp, fun j hj => ?_, ?_, ?_⟩
  · simp [List.head?_append, h.asked]
  · simpa using h.slots
  · simp [h.dones]
  · rw [hslot]
    by_cases hj : i = j
    · subst hj
      simp [hzero]
    · simpa [hj] using h.settles j
  · rw [hslot]
    simp only [List.mem_append, List.mem_singleton, FanEvent.settled.injEq] at ho
    rcases ho with ho | ⟨rfl, rfl⟩
    · have hne : i ≠ j := by
        rintro rfl
        simpa [hnone] using h.outcome i o ho
      rw [if_neg hne]
      exact h.outcome j o ho
    · simp
  · have := h.eaches j
    simp only [eachesOf_append, settlesOf_append, eachesOf_one, settlesOf_one]
    simp
    omega
  · simp only [List.mem_append, List.mem_singleton, reduceCtorEq, or_false] at ho ⊢
    exact .inl (h.reports j o ho)
  · simpa using h.starts j
  · exact h.within j (by simpa using hj)
  · simpa using h.unstarted j (hj.imp List.mem_of_mem_filter id)
  · have hji : j ≠ i := by
      rintro rfl
      simp at hj
    simpa using h.parts j (by simpa [hji] using hj)
  · exact hheld.trans hle
  · exact le_trans (min_le_min_right _ hheld) hbytes

/-! ### Outcomes that are written at once -/

variable {before after : List (Option Outcome)}

theorem mem_wrote : (i, o) ∈ wrote before after ↔ after[i]? = some (some o) ∧ before[i]? ≠ some (some o) := by
  simp only [wrote, List.mem_filterMap, List.mem_range]
  constructor
  · rintro ⟨j, -, hj⟩
    split at hj
    · rename_i o' hafter
      split at hj
      · cases hj
      · rename_i hne
        obtain ⟨rfl, rfl⟩ := Prod.mk.inj (Option.some.inj hj)
        exact ⟨hafter, hne⟩
    · cases hj
  · rintro ⟨hafter, hne⟩
    refine ⟨i, (List.getElem?_eq_some_iff.mp hafter).1, ?_⟩
    rw [hafter]
    simp [hne]

theorem settlesOf_recorded (outcomes : List (Nat × Outcome)) (i : Nat) :
    settlesOf i (recorded outcomes) = (outcomes.map Prod.fst).count i := by
  induction outcomes with
  | nil => rfl
  | cons e outcomes ih =>
      have hcons : recorded (e :: outcomes) = [.settled e.1 e.2] ++ recorded outcomes := rfl
      rw [hcons, settlesOf_append, ih, List.map_cons, List.count_cons, settlesOf_one]
      simp [Nat.add_comm]

theorem wrote_nodup (before after : List (Option Outcome)) : ((wrote before after).map Prod.fst).Nodup := by
  have hsub : ∀ (f : Nat → Option (Nat × Outcome)), (∀ i e, f i = some e → e.1 = i) →
      ∀ l : List Nat, ((l.filterMap f).map Prod.fst).Sublist l := by
    intro f hf l
    induction l with
    | nil => simp
    | cons i l ih =>
        rw [List.filterMap_cons]
        split
        · exact ih.cons i
        · rename_i e he
          rw [List.map_cons, hf i e he]
          exact ih.cons_cons i
  refine List.nodup_range.sublist (hsub _ (fun i e he => ?_) _)
  split at he
  · split at he
    · cases he
    · rw [← Option.some.inj he]
  · cases he

theorem recorded_counts (outcomes : List (Nat × Outcome)) (i : Nat) :
    startsOf i (recorded outcomes) = 0 ∧ eachesOf i (recorded outcomes) = 0 ∧ donesIn (recorded outcomes) = 0 := by
  induction outcomes with
  | nil => exact ⟨rfl, rfl, rfl⟩
  | cons e outcomes ih =>
      have hcons : recorded (e :: outcomes) = [.settled e.1 e.2] ++ recorded outcomes := rfl
      rw [hcons, startsOf_append, eachesOf_append, donesIn_append]
      simpa using ih

theorem mem_recorded {outcomes : List (Nat × Outcome)} :
    .settled i o ∈ recorded outcomes ↔ (i, o) ∈ outcomes := by
  simp only [recorded, List.mem_map, FanEvent.settled.injEq, Prod.exists]
  constructor
  · rintro ⟨j, o', hmem, rfl, rfl⟩
    exact hmem
  · exact fun h => ⟨i, o, h, rfl, rfl⟩

theorem each_notin_recorded {outcomes : List (Nat × Outcome)} : .each i o ∉ recorded outcomes := by
  simp [recorded]

theorem settlesOf_wrote (i : Nat) (hkept : ∀ (i : Nat) o, before[i]? = some (some o) → after[i]? = some (some o)) :
    (if (before[i]?).join.isSome then 1 else 0) + settlesOf i (recorded (wrote before after)) =
      if (after[i]?).join.isSome then 1 else 0 := by
  rw [settlesOf_recorded, (wrote_nodup before after).count]
  have hmem : i ∈ (wrote before after).map Prod.fst ↔ ∃ o, after[i]? = some (some o) ∧ before[i]? ≠ some (some o) := by
    simp only [List.mem_map, Prod.exists, exists_and_right, exists_eq_right, mem_wrote]
  have hnothing (hnone : ∀ o, after[i]? ≠ some (some o)) :
      (if (before[i]?).join.isSome then 1 else 0) + (if i ∈ (wrote before after).map Prod.fst then 1 else 0) = 0 := by
    rw [if_neg fun hin => (hmem.mp hin).elim fun o ho => hnone o ho.1]
    rcases h : before[i]? with _ | _ | o
    · rfl
    · rfl
    · exact absurd (hkept i o h) (hnone o)
  rcases hafter : after[i]? with _ | _ | o
  · exact hnothing (by simp [hafter])
  · exact hnothing (by simp [hafter])
  · rcases h : before[i]? with _ | _ | o'
    · rw [if_pos (hmem.mpr ⟨o, hafter, by simp [h]⟩)]
      rfl
    · rw [if_pos (hmem.mpr ⟨o, hafter, by simp [h]⟩)]
      rfl
    · have heq : o' = o := by simpa [hafter] using (hkept i o' h).symm
      have hnot : i ∉ (wrote before after).map Prod.fst := fun hin => by
        obtain ⟨o'', ho, hne⟩ := hmem.mp hin
        rw [hafter] at ho
        exact hne (by rw [h, heq, Option.some.inj ho])
      rw [if_neg hnot]
      rfl

theorem Base.stopAll (h : Base [] r told) (elapsedMs : Nat) :
    let plan := (Plan.stopAll { r.plan with elapsedMs }).1
    Base [] { r with plan } (told ++ recorded (wrote r.plan.settled plan.settled)) := by
  intro plan
  have htimed : Plan.Ok { r.plan with elapsedMs } := ⟨h.plan.nodup, h.plan.apart, h.plan.placed, h.plan.cap⟩
  obtain ⟨hok, hslots⟩ := htimed.stopAll
  change plan.Ok at hok
  replace hslots : ∀ i, plan.settled[i]? = if i ∈ r.plan.waiting then some (some .skipped) else r.plan.settled[i]? := hslots
  have hwaiting : ∀ i ∈ r.plan.waiting, r.plan.settled[i]? = some none := fun i hi => (h.plan.placed i).mpr (.inl hi)
  have hkept : ∀ (i : Nat) o, r.plan.settled[i]? = some (some o) → plan.settled[i]? = some (some o) := by
    intro i o ho
    rw [hslots, if_neg fun hi => by simp [hwaiting i hi] at ho]
    exact ho
  have hlength : plan.settled.length = r.plan.settled.length := Plan.length_skipAll _ _
  -- the targets that waited are skipped: no bytes
  have hbytes : FanRun.settledBytes { r with plan } = r.settledBytes := by
    have hmap : (plan.settled.map fun o => o.elim 0 Outcome.okBytes) =
        r.plan.settled.map fun o => o.elim 0 Outcome.okBytes := by
      apply List.ext_getElem?
      intro i
      rw [List.getElem?_map, List.getElem?_map, hslots]
      by_cases hi : i ∈ r.plan.waiting
      · simp [hi, hwaiting i hi, Outcome.okBytes]
      · simp [hi]
    exact congrArg List.sum hmap
  have hcounts := recorded_counts (wrote r.plan.settled plan.settled)
  refine ⟨hok, ?_, hlength.trans h.slots, h.vias, h.done, ?_, fun j => ?_, fun j o ho => ?_, fun j => ?_,
    fun j o ho => ?_, fun j => ?_, fun j hj => ?_, fun j hj => ?_, List.nodup_nil, by simp, fun j hj => ?_, ?_, ?_⟩
  · rw [List.head?_append, h.asked]
    rfl
  · rw [donesIn_append, h.dones, (hcounts 0).2.2]
  · rw [settlesOf_append, h.settles, settlesOf_wrote j hkept]
  · rcases List.mem_append.mp ho with ho | ho
    · exact hkept j o (h.outcome j o ho)
    · exact (mem_wrote.mp (mem_recorded.mp ho)).1
  · rw [eachesOf_append, (hcounts j).2.1, settlesOf_append]
    have := h.eaches j
    omega
  · rcases List.mem_append.mp ho with ho | ho
    · exact List.mem_append_left _ (h.reports j o ho)
    · exact absurd ho each_notin_recorded
  · rw [startsOf_append, (hcounts j).1]
    exact h.starts j
  · rw [startsOf_append, (hcounts j).1] at hj
    exact h.within j hj
  · simp [plan, Plan.stopAll] at hj
  · rw [startsOf_append, (hcounts j).1]
    exact h.parts j hj
  · rw [hbytes]
    exact h.bytesLe
  · rw [hbytes]
    exact h.counted

theorem Base.timed (h : Base [] r told) {running : SortedMap Nat Nat} (elapsedMs : Nat)
    (hkeys : running.keys = r.plan.running.keys) :
    Base [] { r with plan := { r.plan with elapsedMs, running } } told := by
  have hcoming : FanRun.comingBytes { r with plan := { r.plan with elapsedMs, running } } = r.comingBytes := by
    have hmap := congrArg (fun l : List Nat => (l.map fun i => FanRun.partBytes (r.partials i)).sum) hkeys
    simpa [SortedMap.keys, FanRun.comingBytes, SortedMap.total, comp_def] using hmap
  refine ⟨h.plan.timed elapsedMs hkeys, h.asked, h.slots, h.vias, h.done, h.dones, h.settles, h.outcome, h.eaches,
    h.reports, h.starts, h.within, h.unstarted, h.readyNodup, by simp, h.parts, ?_, ?_⟩
  · rw [hcoming]
    exact h.bytesLe
  · rw [hcoming]
    exact h.counted

/-! ### The first and the last of it -/

theorem Base.new (targets : List Address) (transport : Transport) (limits : FanoutLimits) :
    Base [] (FanRun.new targets transport limits) (.asked targets limits ::
      recorded (wrote (List.replicate targets.length none) (Plan.new targets.length limits).settled)) := by
  let plan := Plan.new targets.length limits
  have hslot : ∃ slot : Option Outcome, plan.settled = List.replicate targets.length slot ∧
      slot.elim 0 Outcome.okBytes = 0 := by
    refine ⟨_, rfl, ?_⟩
    split <;> rfl
  obtain ⟨slot, hsettled, hzero⟩ := hslot
  have hempty : ∀ (i : Nat) o, (List.replicate targets.length (none : Option Outcome))[i]? ≠ some (some o) := by
    intro i o
    simp [List.getElem?_replicate]
  have hcounts := recorded_counts (wrote (List.replicate targets.length none) plan.settled)
  have hcons : ∀ events : List FanEvent, .asked targets limits :: events = [.asked targets limits] ++ events :=
    fun _ => rfl
  have hsum : FanRun.settledBytes (FanRun.new targets transport limits) = 0 := by
    show (plan.settled.map fun o => o.elim 0 Outcome.okBytes).sum = 0
    simp [hsettled, hzero]
  have hcoming : FanRun.comingBytes (FanRun.new targets transport limits) = 0 := rfl
  refine ⟨Plan.Ok.new _ _, rfl, Plan.length_new _ _, by simp [FanRun.new], rfl, ?_, fun j => ?_, fun j o ho => ?_,
    fun j => ?_, fun j o ho => ?_, fun j => ?_, fun j hj => ?_, fun j _ => ?_, List.nodup_nil, by simp,
    fun j hj => absurd rfl hj, by simp [hsum, hcoming], by simp [hsum, hcoming]⟩
  · rw [hcons, donesIn_append, (hcounts 0).2.2]
    rfl
  · have hkept := settlesOf_wrote j fun i o ho => absurd (b := plan.settled[i]? = some (some o)) ho (hempty i o)
    have hnone : ((List.replicate targets.length (none : Option Outcome))[j]?).join.isSome = false := by
      rw [List.getElem?_replicate]
      split <;> rfl
    rw [hnone] at hkept
    rw [hcons, settlesOf_append]
    exact hkept
  · rcases List.mem_cons.mp ho with ho | ho
    · cases ho
    · exact (mem_wrote.mp (mem_recorded.mp ho)).1
  · rw [hcons, eachesOf_append, (hcounts j).2.1]
    simp
  · rcases List.mem_cons.mp ho with ho | ho
    · cases ho
    · exact absurd ho each_notin_recorded
  · rw [hcons, startsOf_append, (hcounts j).1]
    simp
  · rw [hcons, startsOf_append, (hcounts j).1] at hj
    simp at hj
  · rw [hcons, startsOf_append, (hcounts j).1]
    simp

/-- The invariant, with what was started so far. -/
structure Core (r : FanRun) (told : List FanEvent) : Prop where
  base : Base [] r told
  peak : Peak r.targets.length r.plan.limits told

theorem Core.new (targets : List Address) (transport : Transport) (limits : FanoutLimits) :
    Core (FanRun.new targets transport limits) (.asked targets limits ::
      recorded (wrote (List.replicate targets.length none) (Plan.new targets.length limits).settled)) := by
  refine ⟨Base.new _ _ _, ?_⟩
  rw [← List.nil_append (_ :: _)]
  refine Peak.append_quiet (fun before hbefore => ?_) fun i => ?_
  · rw [List.prefix_nil.mp hbefore]
    simp [inFlight, startsOf]
  · rw [← List.singleton_append, startsOf_append, (recorded_counts _ i).1]
    rfl

theorem Core.kept (h : Core r told) : Kept r.targets r.plan.limits told := by
  have hsettles : ∀ i, settlesOf i told ≤ 1 := by
    intro i
    rw [h.base.settles]
    split <;> omega
  have hdone : ∀ all, .done all ∉ told := by
    intro all hall
    have : 0 < donesIn told := List.countP_pos_iff.mpr ⟨_, hall, rfl⟩
    have := h.base.dones
    omega
  exact ⟨h.base.starts, hsettles, fun i => (h.base.eaches i).trans (hsettles i), h.base.reports, h.peak,
    h.base.dones ▸ Nat.zero_le 1, fun all hall => absurd hall (hdone all), fun all hall => absurd hall (hdone all)⟩

def Finished (told : List FanEvent) : Prop :=
  ∃ targets limits, told.head? = some (.asked targets limits) ∧ Kept targets limits told ∧ donesIn told = 1

theorem FanRun.all_targets (hslots : r.plan.settled.length = r.targets.length) (hvias : r.vias.length = r.targets.length) :
    r.all.map (·.1) = r.targets ∧ r.all.map (·.2.1) = r.plan.outcomes := by
  have hlength : r.plan.outcomes.length = r.targets.length := by simpa [Plan.outcomes] using hslots
  have hzip : (r.targets.zip r.plan.outcomes).length = r.vias.length := by simp [hlength, hvias]
  have hfirst : ((r.targets.zip r.plan.outcomes).zip r.vias).map Prod.fst = r.targets.zip r.plan.outcomes :=
    List.map_fst_zip hzip.le
  constructor
  · rw [FanRun.all, List.map_map]
    show ((r.targets.zip r.plan.outcomes).zip r.vias).map (Prod.fst ∘ Prod.fst) = r.targets
    rw [← List.map_map, hfirst, List.map_fst_zip hlength.ge]
  · rw [FanRun.all, List.map_map]
    show ((r.targets.zip r.plan.outcomes).zip r.vias).map (Prod.snd ∘ Prod.fst) = r.plan.outcomes
    rw [← List.map_map, hfirst, List.map_snd_zip hlength.le]

theorem Base.recorded_iff (h : Base ready r told) (i : Nat) (o : Outcome) :
    r.plan.settled[i]? = some (some o) ↔ .settled i o ∈ told := by
  refine ⟨fun hs => ?_, h.outcome i o⟩
  have hone : 0 < settlesOf i told := by
    rw [h.settles, hs]
    exact Nat.one_pos
  obtain ⟨e, he, hi⟩ := List.countP_pos_iff.mp hone
  cases e with
  | settled j o' =>
      obtain rfl : j = i := by simpa using hi
      have hslot := h.outcome j o' he
      rw [hs] at hslot
      rwa [Option.some.inj (Option.some.inj hslot)]
  | _ => simp at hi

theorem Plan.outcomes_iff {p : Plan} (hdone : p.isDone = true) (i : Nat) (o : Outcome) :
    p.outcomes[i]? = some o ↔ p.settled[i]? = some (some o) := by
  rw [Plan.outcomes, List.getElem?_map]
  rcases hs : p.settled[i]? with _ | _ | o'
  · simp
  · have hall := List.all_eq_true.mp hdone none (List.mem_of_getElem? hs)
    simp at hall
  · simp

theorem Plan.outcomes_bytes (p : Plan) :
    p.outcomes.map Outcome.okBytes = p.settled.map fun o => o.elim 0 Outcome.okBytes := by
  rw [Plan.outcomes, List.map_map]
  refine List.map_congr_left fun o _ => ?_
  cases o <;> rfl

theorem Core.finish (h : Core r told) (hdone : r.plan.isDone = true) : Finished (told ++ [.done r.all]) := by
  have hkept := h.kept
  have hbase := h.base
  obtain ⟨htargets, houtcomes⟩ := FanRun.all_targets hbase.slots hbase.vias
  have hbytes : (r.all.map fun e => e.2.1.okBytes).sum ≤ r.plan.limits.maxTotalBytes.toNat := by
    have hmap : (r.all.map fun e => e.2.1.okBytes) = (r.all.map (·.2.1)).map Outcome.okBytes := by
      rw [List.map_map]
      rfl
    rw [hmap, houtcomes, Plan.outcomes_bytes]
    exact (Nat.le_add_right _ _).trans hbase.bytesLe
  have hall : ∀ all, FanEvent.done all ∈ told ++ [.done r.all] → all = r.all := by
    intro all hmem
    rcases List.mem_append.mp hmem with hmem | hmem
    · have : 0 < donesIn told := List.countP_pos_iff.mpr ⟨_, hmem, rfl⟩
      have := hbase.dones
      omega
    · simpa using hmem
  refine ⟨r.targets, r.plan.limits, ?_, ⟨fun i => ?_, fun i => ?_, fun i => ?_, fun i o ho => ?_, ?_, ?_,
    fun all hmem => ?_, fun all hmem => ?_⟩, ?_⟩
  · rw [List.head?_append, hbase.asked]
    rfl
  · simpa using hkept.starts i
  · simpa using hkept.settles i
  · simpa using hkept.eaches i
  · simpa using hkept.reports i o (by simpa using ho)
  · exact h.peak.append_quiet fun i => by simp
  · simp [hbase.dones]
  · rw [hall all hmem]
    refine ⟨htargets, fun i o => ?_⟩
    rw [houtcomes, Plan.outcomes_iff hdone, hbase.recorded_iff]
    simp
  · rw [hall all hmem]
    exact hbytes
  · simp [hbase.dones]

/-! ## The table -/

namespace Fanouts

variable {s s' : Fanouts} {app : FanApp} {busy : Option Nat}

/-- Only the fan-out `id` is changed, and nothing is queued. -/
structure Only (id : Nat) (s s' : Fanouts) : Prop where
  last : s'.last = s.last
  ready : s'.ready = s.ready
  other : ∀ id' ≠ id, s'.runs id' = s.runs id' ∧ s'.told id' = s.told id'

theorem Only.trans {s'' : Fanouts} (h : Only id s s') (h' : Only id s' s'') : Only id s s'' :=
  ⟨h'.last.trans h.last, h'.ready.trans h.ready,
    fun id' hid => ⟨(h'.other id' hid).1.trans (h.other id' hid).1, (h'.other id' hid).2.trans (h.other id' hid).2⟩⟩

theorem only_tell (id : Nat) (events : List FanEvent) (s : Fanouts) : Only id s (s.tell id events) :=
  ⟨rfl, rfl, fun _ hid => ⟨rfl, update_of_ne hid _ _⟩⟩

theorem only_setRun (id : Nat) (run : Option FanRun) (s : Fanouts) : Only id s (s.setRun id run) :=
  ⟨rfl, rfl, fun _ hid => ⟨update_of_ne hid _ _, rfl⟩⟩

theorem only_withRun (id : Nat) (f : FanRun → FanRun) (s : Fanouts) : Only id s (s.withRun id f) := only_setRun id _ s

@[simp] theorem runs_tell (id : Nat) (events : List FanEvent) (s : Fanouts) : (s.tell id events).runs = s.runs := rfl

@[simp] theorem told_tell (id : Nat) (events : List FanEvent) (s : Fanouts) :
    (s.tell id events).told id = s.told id ++ events := update_self ..

@[simp] theorem runs_setRun (id : Nat) (run : Option FanRun) (s : Fanouts) : (s.setRun id run).runs id = run :=
  update_self ..

@[simp] theorem told_setRun (id : Nat) (run : Option FanRun) (s : Fanouts) : (s.setRun id run).told = s.told := rfl

@[simp] theorem runs_withRun (id : Nat) (f : FanRun → FanRun) (s : Fanouts) :
    (s.withRun id f).runs id = (s.runs id).map f := update_self ..

@[simp] theorem told_withRun (id : Nat) (f : FanRun → FanRun) (s : Fanouts) : (s.withRun id f).told = s.told := rfl

theorem startAll_spec (ready : List Nat) : ∀ {s : Fanouts} {r : FanRun}, s.runs id = some r →
    Base ready r (s.told id) → Peak r.targets.length r.plan.limits (s.told id) →
    Only id s (ready.foldl (startOne id r.targets) s) ∧
      ∃ r', (ready.foldl (startOne id r.targets) s).runs id = some r' ∧
        Core r' ((ready.foldl (startOne id r.targets) s).told id) := by
  induction ready with
  | nil =>
      intro s r hrun hbase hpeak
      exact ⟨⟨rfl, rfl, fun _ _ => ⟨rfl, rfl⟩⟩, r, hrun, hbase, hpeak⟩
  | cons i ready ih =>
      intro s r hrun hbase hpeak
      have hnone := (hbase.plan.placed i).mpr (.inr (hbase.readyRuns i (by simp)))
      have hlt : i < r.targets.length := hbase.slots ▸ (List.getElem?_eq_some_iff.mp hnone).1
      let key : ClientKey := ((target r.targets[i]).1, s.lastStream + 1)
      let next : FanRun := { r with keys := update r.keys i (some key) }
      have hstep : startOne id r.targets s i =
          ({ s with lastStream := s.lastStream + 1 }.tell id [.start i key]).withRun id fun r =>
            { r with keys := update r.keys i (some key) } := by
        simp [startOne, List.getElem?_eq_getElem hlt, key]
      have honly : Only id s (startOne id r.targets s i) := by
        rw [hstep]
        have htell := only_tell id [.start i key] { s with lastStream := s.lastStream + 1 }
        exact Only.trans ⟨htell.last, htell.ready, htell.other⟩ (only_withRun id _ _)
      have hrun' : (startOne id r.targets s i).runs id = some next := by
        rw [hstep, runs_withRun]
        simp [hrun, next]
      have htold : (startOne id r.targets s i).told id = s.told id ++ [.start i key] := by
        rw [hstep, told_withRun, told_tell]
      have hbase' : Base ready next (s.told id ++ [.start i key]) := hbase.startOne key _
      have hpeak' : Peak next.targets.length next.plan.limits (s.told id ++ [.start i key]) :=
        hpeak.append_one hbase'.inFlight_le
      rw [← htold] at hbase' hpeak'
      obtain ⟨honly', r', hrun'', hcore⟩ := ih hrun' hbase' hpeak'
      exact ⟨honly.trans honly', r', hrun'', hcore⟩

theorem admit_spec (hrun : s.runs id = some r) (hcore : Core r (s.told id)) :
    Only id s (s.admit_ id) ∧ ∃ r', (s.admit_ id).runs id = some r' ∧ Core r' ((s.admit_ id).told id) := by
  have hlimits : r.plan.admit_.1.limits = r.plan.limits := hcore.base.plan.admit_.2.limits
  have hadmits : s.admit_ id =
      r.plan.admit_.2.foldl (startOne id r.targets) (s.setRun id (some { r with plan := r.plan.admit_.1 })) := by
    simp [admit_, hrun]
  rw [hadmits]
  have hpeak := hcore.peak
  rw [← hlimits] at hpeak
  obtain ⟨honly, r', hrun', hcore'⟩ :=
    startAll_spec r.plan.admit_.2 (runs_setRun id (some { r with plan := r.plan.admit_.1 }) s) hcore.base.admit_ hpeak
  exact ⟨(only_setRun id _ s).trans honly, r', hrun', hcore'⟩

/-- The fan-outs but `busy`, which is being worked on. -/
structure Inv (busy : Option Nat) (s : Fanouts) : Prop where
  fresh : ∀ id, id = 0 ∨ s.last < id → s.runs id = none ∧ s.told id = []
  running : ∀ id r, busy ≠ some id → s.runs id = some r →
    Core r (s.told id) ∧ (r.plan.isDone = true → .finishIfDone id ∈ s.ready)
  finished : ∀ id, busy ≠ some id → 0 < id → id ≤ s.last → s.runs id = none → Finished (s.told id)

theorem Inv.open_ (h : Inv none s) (id : Nat) : Inv (some id) s :=
  ⟨h.fresh, fun id' r _ => h.running id' r (by simp), fun id' _ => h.finished id' (by simp)⟩

theorem Inv.known (h : Inv busy s) (hrun : s.runs id = some r) : 0 < id ∧ id ≤ s.last := by
  by_contra hnot
  have := (h.fresh id (by omega)).1
  simp [hrun] at this

theorem Inv.only (h : Inv (some id) s) (hid : 0 < id ∧ id ≤ s.last) (honly : Only id s s') : Inv (some id) s' := by
  refine ⟨fun id' hid' => ?_, fun id' r hne hrun => ?_, fun id' hne hpos hle hrun => ?_⟩
  · rw [honly.last] at hid'
    have hne : id' ≠ id := by omega
    rw [(honly.other id' hne).1, (honly.other id' hne).2]
    exact h.fresh id' hid'
  · have hne' : id' ≠ id := fun heq => hne (by rw [heq])
    rw [(honly.other id' hne').1] at hrun
    rw [(honly.other id' hne').2, honly.ready]
    exact h.running id' r hne hrun
  · have hne' : id' ≠ id := fun heq => hne (by rw [heq])
    rw [(honly.other id' hne').1] at hrun
    rw [(honly.other id' hne').2]
    exact h.finished id' hne hpos (honly.last ▸ hle) hrun

theorem Inv.close (h : Inv (some id) s)
    (hrunning : ∀ r, s.runs id = some r → Core r (s.told id) ∧ (r.plan.isDone = true → .finishIfDone id ∈ s.ready))
    (hfinished : 0 < id → id ≤ s.last → s.runs id = none → Finished (s.told id)) : Inv none s := by
  refine ⟨h.fresh, fun id' r _ hrun => ?_, fun id' _ hpos hle hrun => ?_⟩
  · by_cases hid : id' = id
    · subst hid
      exact hrunning r hrun
    · exact h.running id' r (fun heq => hid (Option.some.inj heq).symm) hrun
  · by_cases hid : id' = id
    · subst hid
      exact hfinished hpos hle hrun
    · exact h.finished id' (fun heq => hid (Option.some.inj heq).symm) hpos hle hrun

/-! ### What the app does -/

structure Later (s s' : Fanouts) : Prop where
  last : s.last ≤ s'.last
  old : ∀ id ≤ s.last, s'.runs id = s.runs id ∧ s'.told id = s.told id
  ready : ∀ task ∈ s.ready, task ∈ s'.ready

theorem Later.refl (s : Fanouts) : Later s s := ⟨le_rfl, fun _ _ => ⟨rfl, rfl⟩, fun _ => id⟩

theorem Later.trans {s'' : Fanouts} (h : Later s s') (h' : Later s' s'') : Later s s'' := by
  refine ⟨h.last.trans h'.last, fun id hid => ?_, fun task htask => h'.ready task (h.ready task htask)⟩
  have hold := h.old id hid
  have hold' := h'.old id (hid.trans h.last)
  exact ⟨hold'.1.trans hold.1, hold'.2.trans hold.2⟩

theorem Inv.start (h : Inv busy s) (targets : List Address) (transport : Transport) (limits : FanoutLimits) :
    Inv busy (s.start targets transport limits) ∧ Later s (s.start targets transport limits) := by
  let id := s.last + 1
  let asked : Fanouts := ({ s with last := id }.setRun id (some (.new targets transport limits))).tell id
    (.asked targets limits :: recorded (wrote (List.replicate targets.length none) (Plan.new targets.length limits).settled))
  have hstart : s.start targets transport limits = (asked.admit_ id).spawn (.finishIfDone id) := rfl
  have hnew := h.fresh id (.inr (Nat.lt_succ_self _))
  have hrun : asked.runs id = some (.new targets transport limits) := runs_setRun id _ _
  have hcore : Core (.new targets transport limits) (asked.told id) := by
    have htold : asked.told id = s.told id ++ (.asked targets limits ::
        recorded (wrote (List.replicate targets.length none) (Plan.new targets.length limits).settled)) := told_tell id _ _
    rw [htold, hnew.2]
    exact Core.new targets transport limits
  obtain ⟨honly, r', hrun', hcore'⟩ := admit_spec hrun hcore
  have hother : ∀ id' ≠ id, (asked.admit_ id).runs id' = s.runs id' ∧ (asked.admit_ id).told id' = s.told id' := by
    intro id' hid
    obtain ⟨hruns, htold⟩ := honly.other id' hid
    exact ⟨hruns.trans (update_of_ne hid _ _), htold.trans (update_of_ne hid _ _)⟩
  have hlast : (asked.admit_ id).last = s.last + 1 := honly.last
  have hready : (asked.admit_ id).ready = s.ready := honly.ready
  rw [hstart]
  refine ⟨⟨fun id' hid' => ?_, fun id' r hne hr => ?_, fun id' hne hpos hle hr => ?_⟩, ?_, fun id' hid' => ?_, ?_⟩
  · simp only [spawn, hlast] at hid' ⊢
    have hne : id' ≠ id := by omega
    rw [(hother id' hne).1, (hother id' hne).2]
    exact h.fresh id' (by omega)
  · simp only [spawn, hready] at hr ⊢
    by_cases hid : id' = id
    · subst hid
      obtain rfl := Option.mem_unique hrun' hr
      exact ⟨hcore', fun _ => by simp⟩
    · rw [(hother id' hid).1] at hr
      rw [(hother id' hid).2]
      obtain ⟨hc, hq⟩ := h.running id' r hne hr
      exact ⟨hc, fun hd => List.mem_append_left _ (hq hd)⟩
  · simp only [spawn, hlast] at hr hle ⊢
    by_cases hid : id' = id
    · subst hid
      simp [hrun'] at hr
    · rw [(hother id' hid).1] at hr
      rw [(hother id' hid).2]
      exact h.finished id' hne hpos (by omega) hr
  · simp [spawn, hlast]
  · exact hother id' (by omega)
  · intro task htask
    simp [spawn, hready, htask]

theorem Inv.spawn (h : Inv busy s) (task : FanTask) : Inv busy (s.spawn task) ∧ Later s (s.spawn task) :=
  ⟨⟨h.fresh, fun id r hne hr => ⟨(h.running id r hne hr).1, fun hd => List.mem_append_left _ ((h.running id r hne hr).2 hd)⟩,
    h.finished⟩, le_rfl, fun _ _ => ⟨rfl, rfl⟩, fun _ => List.mem_append_left _⟩

theorem Inv.perform (h : Inv busy s) (act : FanAct) : Inv busy (s.perform act) ∧ Later s (s.perform act) := by
  cases act with
  | start targets transport limits => exact h.start targets transport limits
  | cancel id => exact h.spawn _

theorem Inv.performAll (acts : List FanAct) : ∀ {s : Fanouts}, Inv busy s →
    Inv busy (s.performAll acts) ∧ Later s (s.performAll acts) := by
  induction acts with
  | nil => exact fun h => ⟨h, Later.refl _⟩
  | cons act acts ih =>
      intro s h
      obtain ⟨hact, hlater⟩ := h.perform act
      obtain ⟨h', hlater'⟩ := ih hact
      exact ⟨h', hlater.trans hlater'⟩

/-! ### What a fan-out does -/

theorem Inv.finishIfDone (h : Inv (some id) s) (hrun : s.runs id = some r) (hcore : Core r (s.told id)) (app : FanApp) :
    Inv none (s.finishIfDone app id) := by
  simp only [Fanouts.finishIfDone, hrun, hcore.base.done, if_true]
  split
  · rename_i hdone
    have honly := (only_setRun id none s).trans (only_tell id [.done r.all] _)
    have hclosed := (h.only (h.known hrun) honly).close (fun r' hr' => by simp at hr') fun _ _ _ => by
      rw [told_tell, told_setRun]
      exact hcore.finish hdone
    exact (hclosed.performAll _).1
  · rename_i hnot
    exact h.close (fun r' hr' => by
      obtain rfl := Option.mem_unique hrun hr'
      exact ⟨hcore, fun hdone => absurd hdone hnot⟩) fun _ _ hnone => by simp [hrun] at hnone

theorem core_quiet {events : List FanEvent} (h : Core r told) (hbase : Base [] r (told ++ events))
    (hquiet : ∀ i, startsOf i events = 0) : Core r (told ++ events) := ⟨hbase, h.peak.append_quiet hquiet⟩

theorem Inv.settle (h : Inv (some id) s) (hrun : s.runs id = some r) (app : FanApp) (stop : Bool)
    (hnew : r.plan.settled[i]? = some none →
      eachesOf i (s.told id) = 0 ∧
        Core { r with
          plan := (r.plan.settle i outcome).1
          partials := update r.partials i none
          keys := update r.keys i none
          each := false } (s.told id ++ [.settled i outcome])) :
    s.settle app id i outcome stop = s ∧ r.plan.settled[i]? ≠ some none ∨
      Inv none (s.settle app id i outcome stop) := by
  rcases Plan.settle_spec i outcome r.plan with ⟨_, rfl, hne, heq⟩ | ⟨hnone, heq⟩
  · left
    simp [Fanouts.settle, hrun, heq, hne]
  right
  obtain ⟨heach, hcore⟩ := hnew hnone
  have hid := h.known hrun
  let settled : FanRun :=
    { r with
      plan := (r.plan.settle i outcome).1
      partials := update r.partials i none
      keys := update r.keys i none
      each := false }
  let recorded := (s.setRun id (some settled)).tell id [.settled i outcome]
  let stopped := match stop, r.keys i with
    | true, some key => recorded.tell id [.cancel key]
    | _, _ => recorded
  let reported := if r.each = true then
      ((stopped.tell id [.each i outcome]).performAll (app id (.each i outcome))).withRun id fun r => { r with each := true }
    else stopped
  have hsettle : s.settle app id i outcome stop = (reported.admit_ id).finishIfDone app id := by
    have htrue : (r.plan.settle i outcome).2 = true := by rw [heq]
    simp only [Fanouts.settle, hrun, htrue, if_true]
    rfl
  have hstopped : Inv (some id) stopped ∧ stopped.last = s.last ∧ stopped.runs id = some settled ∧
      Core settled (stopped.told id) ∧ .settled i outcome ∈ stopped.told id ∧ eachesOf i (stopped.told id) = 0 := by
    have honly := (only_setRun id (some settled) s).trans (only_tell id [.settled i outcome] _)
    have hrecorded : Inv (some id) recorded := h.only hid honly
    have htold : recorded.told id = s.told id ++ [.settled i outcome] := by simp [recorded]
    have hruns : recorded.runs id = some settled := by simp [recorded]
    have hcount : eachesOf i (recorded.told id) = 0 := by
      rw [htold]
      simp [heach]
    rw [← htold] at hcore
    by_cases hcancel : ∃ key, stop = true ∧ r.keys i = some key
    · obtain ⟨key, hstop, hkey⟩ := hcancel
      have heqs : stopped = recorded.tell id [.cancel key] := by simp [stopped, hstop, hkey]
      rw [heqs]
      refine ⟨hrecorded.only hid (only_tell id _ _), rfl, hruns, ?_, ?_, ?_⟩
      · rw [told_tell]
        exact core_quiet hcore (hcore.base.cancelled key) fun i => by simp
      · simp [htold]
      · simp [hcount]
    · have heqs : stopped = recorded := by
        simp only [stopped]
        split
        · rename_i key hkey
          exact absurd ⟨key, rfl, hkey⟩ hcancel
        · rfl
      rw [heqs]
      exact ⟨hrecorded, rfl, hruns, hcore, by simp [htold], hcount⟩
  obtain ⟨hinv, hlast, hruns, hcore', hmem, hcount⟩ := hstopped
  have hreported : Inv (some id) reported ∧ ∃ r', reported.runs id = some r' ∧ Core r' (reported.told id) := by
    by_cases hthere : r.each = true
    · have heqr : reported = ((stopped.tell id [.each i outcome]).performAll (app id (.each i outcome))).withRun id
          fun r => { r with each := true } := if_pos hthere
      have htold : Core settled ((stopped.tell id [.each i outcome]).told id) := by
        rw [told_tell]
        exact core_quiet hcore' (hcore'.base.reported hmem hcount) fun i => by simp
      have hidle : 0 < id ∧ id ≤ stopped.last := hlast ▸ hid
      obtain ⟨hperformed, hlater⟩ := (hinv.only hidle (only_tell id [.each i outcome] stopped)).performAll
        (app id (.each i outcome))
      obtain ⟨hruns', htold'⟩ := hlater.old id hidle.2
      rw [heqr]
      refine ⟨hperformed.only ⟨hidle.1, hidle.2.trans hlater.last⟩ (only_withRun id _ _), { settled with each := true }, ?_, ?_⟩
      · rw [runs_withRun, hruns', runs_tell, hruns]
        rfl
      · rw [told_withRun, htold']
        exact ⟨htold.base.same _ _, htold.peak⟩
    · have heqr : reported = stopped := if_neg hthere
      rw [heqr]
      exact ⟨hinv, settled, hruns, hcore'⟩
  obtain ⟨hinv', r', hruns', hready⟩ := hreported
  obtain ⟨honly, r'', hruns'', hadmitted⟩ := admit_spec hruns' hready
  rw [hsettle]
  exact (hinv'.only (hinv'.known hruns') honly).finishIfDone hruns'' hadmitted app

end Fanouts

theorem Plan.limits_settle (i : Nat) (outcome : Outcome) (p : Plan) : (p.settle i outcome).1.limits = p.limits := by
  rcases Plan.settle_spec i outcome p with ⟨_, -, -, heq⟩ | ⟨-, heq⟩ <;> rw [heq]

theorem Core.settle (h : Core r told) (hnone : r.plan.settled[i]? = some none)
    (hok : outcome.okBytes ≤ if i ∈ r.plan.running.keys then FanRun.partBytes (r.partials i) else 0)
    (hvias : vias.length = r.vias.length) (hbytes : min (r.settledBytes + r.comingBytes) (2 ^ 64 - 1) ≤ bytes)
    (keys : Nat → Option ClientKey) (each : Bool) :
    eachesOf i told = 0 ∧
      Core
        { r with
          plan := (Plan.settle i outcome { r.plan with bytes }).1
          vias, keys, each
          partials := update r.partials i none } (told ++ [.settled i outcome]) := by
  have hzero : settlesOf i told = 0 := by
    rw [h.base.settles, hnone]
    rfl
  refine ⟨Nat.le_zero.mp (hzero ▸ h.base.eaches i), h.base.settle hnone hok hvias hbytes keys each, ?_⟩
  have hpeak : Peak _ _ (told ++ [.settled i outcome]) := h.peak.append_quiet fun i => by simp
  simpa only [Plan.limits_settle] using hpeak

theorem Core.take (h : Core r told) (hstarted : 0 < startsOf i told) (event : ClientEvent)
    (hfits : ∀ bytes, event = .body bytes → r.settledBytes + r.comingBytes + bytes.length < 2 ^ 64) :
    (r.take i event).1.plan.settled = r.plan.settled ∧
      ((r.take i event).2 = none ∨ r.plan.settled[i]? ≠ some none → Core (r.take i event).1 told) ∧
      ∀ outcome, (r.take i event).2 = some outcome → r.plan.settled[i]? = some none →
        eachesOf i told = 0 ∧
          Core
            { (r.take i event).1 with
              plan := ((r.take i event).1.plan.settle i outcome).1
              partials := update (r.take i event).1.partials i none
              keys := update (r.take i event).1.keys i none
              each := false } (told ++ [.settled i outcome]) := by
  have hbase := h.base
  have hle := hbase.bytesLe
  have hcounted := hbase.counted
  have hruns : r.plan.settled[i]? = some none → i ∈ r.plan.running.keys := by
    intro hnone
    rcases (hbase.plan.placed i).mp hnone with hwaiting | hrunning
    · have := hbase.unstarted i (.inl hwaiting)
      omega
    · exact hrunning
  have hsettled : i ∈ r.plan.running.keys → r.plan.settled[i]? = some none := fun hi => (hbase.plan.placed i).mpr (.inr hi)
  cases event with
  | head head via =>
      have htotal := total_update r.plan.running r.partials i (some (some head, ((r.partials i).getD (none, [])).2))
      have hpart : FanRun.partBytes (some (some head, ((r.partials i).getD (none, [])).2)) =
          FanRun.partBytes (r.partials i) := by cases r.partials i <;> rfl
      rw [hpart] at htotal
      have hsame := Nat.add_right_cancel htotal
      refine ⟨rfl, fun _ => ⟨hbase.part hstarted (by simp) _ ?_ ?_, h.peak⟩, fun outcome ho => by cases ho⟩
      · rw [hsame]
        exact hcounted
      · rw [hsame]
        exact hle
  | body bytes =>
      obtain ⟨count, hplan, hcount, hover⟩ := Plan.addBytes_spec i bytes.length r.plan
      let part := (r.partials i).getD (none, [])
      have htotal := total_update r.plan.running r.partials i (some (part.1, part.2 ++ bytes))
      have hpart : FanRun.partBytes (some (part.1, part.2 ++ bytes)) = FanRun.partBytes (r.partials i) + bytes.length := by
        cases hp : r.partials i <;> simp [part, hp, FanRun.partBytes]
      rw [hpart] at htotal
      have hfit := hfits bytes rfl
      have hmore : min (r.settledBytes + r.comingBytes + bytes.length) (2 ^ 64 - 1) ≤ count := by
        rw [hcount]
        simp only [saturatingAdd]
        omega
      have htake : r.take i (.body bytes) =
          ({ r with plan := { r.plan with bytes := count }, partials := update r.partials i (some (part.1, part.2 ++ bytes)) },
            (r.plan.addBytes i bytes.length).2.map .failed) := by
        rw [← hplan]
        rfl
      rw [htake]
      have hcoming : r.comingBytes = r.plan.running.total fun j _ => FanRun.partBytes (r.partials j) := rfl
      refine ⟨rfl, fun hcase => ⟨hbase.part hstarted rfl _ ?_ ?_, h.peak⟩, fun outcome ho hnone => ?_⟩
      · split at htotal <;> omega
      · by_cases hi : i ∈ r.plan.running.keys
        · have hnone : (r.plan.addBytes i bytes.length).2 = none := by
            rcases hcase with hcase | hcase
            · simpa using hcase
            · exact absurd (hsettled hi) hcase
          have hmax := hover hnone hi
          simp only [hi, if_true] at htotal
          omega
        · simp only [hi, if_false, Nat.add_zero] at htotal
          omega
      · have hok : outcome.okBytes = 0 := by
          obtain ⟨e, -, rfl⟩ := Option.map_eq_some_iff.mp ho
          rfl
        have hless : min (r.settledBytes + r.comingBytes) (2 ^ 64 - 1) ≤ count := by omega
        have hbound : outcome.okBytes ≤ if i ∈ r.plan.running.keys then FanRun.partBytes (r.partials i) else 0 := by omega
        have hcore := h.settle hnone hbound rfl hless (update r.keys i none) false
        simpa only [update_idem] using hcore
  | end_ =>
      have htotal := total_update r.plan.running r.partials i none
      have hcoming : r.comingBytes = r.plan.running.total fun j _ => FanRun.partBytes (r.partials j) := rfl
      have hzero : FanRun.partBytes none = 0 := rfl
      have hless : (r.plan.running.total fun j _ => FanRun.partBytes (update r.partials i none j)) ≤ r.comingBytes := by
        rw [hcoming]
        split at htotal <;> omega
      refine ⟨rfl, fun _ => ⟨hbase.part hstarted rfl _ ?_ ?_, h.peak⟩, fun outcome ho hnone => ?_⟩
      · exact le_trans (min_le_min_right _ (Nat.add_le_add_left hless _)) hcounted
      · omega
      · have hok : outcome.okBytes ≤ FanRun.partBytes (r.partials i) := by
          obtain rfl := Option.some.inj ho
          cases hp : r.partials i with
          | none => simp [Outcome.okBytes]
          | some part =>
              obtain ⟨head, body⟩ := part
              cases head <;> simp [Outcome.okBytes, FanRun.partBytes]
        have hbound : outcome.okBytes ≤ if i ∈ r.plan.running.keys then FanRun.partBytes (r.partials i) else 0 := by
          rwa [if_pos (hruns hnone)]
        have hcore := h.settle hnone hbound rfl hcounted (update r.keys i none) false
        simpa only [FanRun.take, update_idem] using hcore
  | failed e =>
      refine ⟨rfl, fun _ => h, fun outcome ho hnone => ?_⟩
      obtain rfl := Option.some.inj ho
      exact h.settle hnone (Nat.zero_le _) rfl hcounted (update r.keys i none) false

namespace Fanouts

variable {s s' : Fanouts} {app : FanApp} {busy : Option Nat}

theorem Inv.onEvent (h : Inv none s) (app : FanApp) {event : ClientEvent} (hsink : s.hasSink id i = true)
    (hfits : s.fits id event = true) : Inv none (s.onEvent app id i event) := by
  cases hrun : s.runs id with
  | none => simpa [Fanouts.onEvent, hrun] using h
  | some r =>
      obtain ⟨hcore, hqueued⟩ := h.running id r (by simp) hrun
      have hstarted : 0 < startsOf i (s.told id) := by
        obtain ⟨e, he, hi⟩ := List.any_eq_true.mp hsink
        exact List.countP_pos_iff.mpr ⟨e, he, hi⟩
      obtain ⟨hslots, hkept, hnew⟩ := hcore.take hstarted event fun bytes heq => by
        subst heq
        simpa [fits, hrun] using hfits
      have hid := h.known hrun
      have htaken : Inv (some id) (s.setRun id (some (r.take i event).1)) := (h.open_ id).only hid (only_setRun id _ s)
      have hsame : (r.take i event).1.plan.isDone = r.plan.isDone := by simp [Plan.isDone, hslots]
      have hclose : Core (r.take i event).1 (s.told id) → Inv none (s.setRun id (some (r.take i event).1)) := by
        intro hcore'
        refine htaken.close (fun r' hr' => ?_) fun _ _ hnone => by simp at hnone
        rw [runs_setRun] at hr'
        obtain rfl := Option.some.inj hr'
        exact ⟨hcore', fun hdone => hqueued (hsame ▸ hdone)⟩
      simp only [Fanouts.onEvent, hrun]
      split
      · rename_i hnone
        exact hclose (hkept (.inl hnone))
      · rename_i outcome hsome
        rcases htaken.settle (runs_setRun id _ s) app (!outcome.isOk) (hslots ▸ hnew outcome hsome) with ⟨heq, hne⟩ | hinv
        · rw [heq]
          rw [hslots] at hne
          exact hclose (hkept (.inr hne))
        · exact hinv

/-- What is known of a fan-out on which work goes on. -/
structure Home (id : Nat) (s : Fanouts) : Prop where
  running : ∀ r, s.runs id = some r → Core r (s.told id)
  finished : 0 < id → id ≤ s.last → s.runs id = none → Finished (s.told id)

theorem Inv.home (h : Inv none s) (id : Nat) : Home id s :=
  ⟨fun r hr => (h.running id r (by simp) hr).1, h.finished id (by simp)⟩

theorem Inv.stopLoop (app : FanApp) (stops : List (Nat × Outcome)) (hstops : ∀ e ∈ stops, e.2.okBytes = 0) :
    ∀ {s : Fanouts}, Inv (some id) s → Home id s →
      Inv (some id) (stops.foldl (fun s e => s.settle app id e.1 e.2 true) s) ∧
        Home id (stops.foldl (fun s e => s.settle app id e.1 e.2 true) s) := by
  induction stops with
  | nil => exact fun h hhome => ⟨h, hhome⟩
  | cons e stops ih =>
      intro s h hhome
      have hrest := fun e' he' => hstops e' (List.mem_cons_of_mem e he')
      cases hrun : s.runs id with
      | none =>
          have heq : s.settle app id e.1 e.2 true = s := by simp [Fanouts.settle, hrun]
          rw [List.foldl_cons, heq]
          exact ih hrest h hhome
      | some r =>
          have hcore := hhome.running r hrun
          have hok : e.2.okBytes ≤ if e.1 ∈ r.plan.running.keys then FanRun.partBytes (r.partials e.1) else 0 := by
            rw [hstops e (by simp)]
            exact Nat.zero_le _
          rcases h.settle hrun app true fun hnone => hcore.settle hnone hok rfl hcore.base.counted _ false with
            ⟨heq, -⟩ | hinv
          · rw [List.foldl_cons, heq]
            exact ih hrest h hhome
          · rw [List.foldl_cons]
            exact ih hrest (hinv.open_ id) (hinv.home id)

theorem Inv.finishIfDone_home (h : Inv (some id) s) (hhome : Home id s) (app : FanApp) :
    Inv none (s.finishIfDone app id) := by
  cases hrun : s.runs id with
  | none =>
      have heq : s.finishIfDone app id = s := by simp [Fanouts.finishIfDone, hrun]
      rw [heq]
      exact h.close (fun r hr => by simp [hrun] at hr) hhome.finished
  | some r => exact h.finishIfDone hrun (hhome.running r hrun) app

/-- What passing time or a cancellation may do to the plan of a fan-out. -/
def Stops (stops : Plan → Plan × List (Nat × Outcome)) : Prop :=
  ∀ {r : FanRun} {told : List FanEvent}, Core r told →
    Core { r with plan := (stops r.plan).1 } (told ++ recorded (wrote r.plan.settled (stops r.plan).1.settled)) ∧
      ∀ e ∈ (stops r.plan).2, e.2.okBytes = 0

theorem stops_stopAll (elapsedMs : Plan → Nat) : Stops fun p => Plan.stopAll { p with elapsedMs := elapsedMs p } := by
  intro r told h
  refine ⟨⟨h.base.stopAll _, h.peak.append_quiet fun i => (recorded_counts _ i).1⟩, fun e he => ?_⟩
  obtain ⟨i, -, rfl⟩ := List.mem_map.mp he
  rfl

theorem stops_elapse (ms : UInt32) : Stops (Plan.elapse ms) := by
  intro r told h
  rcases Plan.elapse_cases ms r.plan with ⟨elapsedMs, heq⟩ | ⟨elapsedMs, running, hkeys, hplan, hstops⟩
  · rw [heq]
    exact stops_stopAll (fun _ => elapsedMs) h
  · rw [hplan]
    have hwrote : wrote r.plan.settled r.plan.settled = [] := by
      rw [List.eq_nil_iff_forall_not_mem]
      rintro ⟨i, o⟩ hmem
      exact (mem_wrote.mp hmem).2 (mem_wrote.mp hmem).1
    refine ⟨?_, fun e he => ?_⟩
    · simp only [hwrote, recorded, List.map_nil, List.append_nil]
      exact ⟨h.base.timed elapsedMs hkeys, h.peak⟩
    · rw [hstops e he]
      rfl

theorem Inv.stop (h : Inv none s) (app : FanApp) {stops : Plan → Plan × List (Nat × Outcome)} (hstops : Stops stops)
    (id : Nat) : Inv none (s.stop app stops id) := by
  cases hrun : s.runs id with
  | none => simpa [Fanouts.stop, hrun] using h
  | some r =>
      obtain ⟨hcore, hnone⟩ := hstops (h.running id r (by simp) hrun).1
      simp only [Fanouts.stop, hrun]
      have honly := (only_setRun id (some { r with plan := (stops r.plan).1 }) s).trans
        (only_tell id (recorded (wrote r.plan.settled (stops r.plan).1.settled)) _)
      have hhome : Home id ((s.setRun id (some { r with plan := (stops r.plan).1 })).tell id
          (recorded (wrote r.plan.settled (stops r.plan).1.settled))) := by
        refine ⟨fun r' hr' => ?_, fun _ _ hnone => by simp at hnone⟩
        rw [runs_tell, runs_setRun] at hr'
        obtain rfl := Option.some.inj hr'
        rw [told_tell, told_setRun]
        exact hcore
      obtain ⟨hinv, hhome'⟩ := Inv.stopLoop app (stops r.plan).2 hnone ((h.open_ id).only (h.known hrun) honly) hhome
      exact hinv.finishIfDone_home hhome' app

theorem Inv.tick (h : Inv none s) (app : FanApp) (ms : UInt32) : Inv none (s.tick app ms) := by
  have hfold : ∀ (ids : List Nat) {s : Fanouts}, Inv none s →
      Inv none (ids.foldl (fun s id => s.stop app (Plan.elapse ms) id) s) := by
    intro ids
    induction ids with
    | nil => exact fun h => h
    | cons id ids ih => exact fun h => ih (h.stop app (stops_elapse ms) id)
  exact hfold _ h

theorem Inv.runTask (h : Inv none s) (app : FanApp) : Inv none (s.runTask app) := by
  unfold Fanouts.runTask
  split
  · exact h
  · -- the task is out of the queue, and what it was queued for is done now
    rename_i id ready hready
    have hopen : Inv (some id) { s with ready } := by
      refine ⟨h.fresh, fun id' r hne hr => ?_, fun id' _ => h.finished id' (by simp)⟩
      obtain ⟨hcore, hqueued⟩ := h.running id' r (by simp) hr
      refine ⟨hcore, fun hdone => ?_⟩
      have hmem := hqueued hdone
      rw [hready] at hmem
      rcases List.mem_cons.mp hmem with heq | hmem
      · obtain rfl := FanTask.finishIfDone.inj heq
        exact absurd rfl hne
      · exact hmem
    exact hopen.finishIfDone_home ⟨(h.home id).running, (h.home id).finished⟩ app
  · rename_i id ready hready
    have hpopped : Inv none { s with ready } := by
      refine ⟨h.fresh, fun id' r hne hr => ?_, h.finished⟩
      obtain ⟨hcore, hqueued⟩ := h.running id' r hne hr
      refine ⟨hcore, fun hdone => ?_⟩
      have hmem := hqueued hdone
      rw [hready] at hmem
      simpa using hmem
    exact hpopped.stop app (stops_stopAll Plan.elapsedMs) id

theorem Inv.step (h : Inv none s) (app : FanApp) (act : FanStep) : Inv none (s.step app act) := by
  cases act with
  | app act => exact (h.perform act).1
  | event id i event =>
      simp only [Fanouts.step]
      split
      · rename_i hcan
        exact h.onEvent app hcan.1 hcan.2
      · exact h
  | tick ms => exact h.tick app ms
  | task => exact h.runTask app

end Fanouts

theorem FanoutsRun.inv {s : Fanouts} (h : FanoutsRun s) : s.Inv none := by
  induction h with
  | start lastStream =>
      refine ⟨fun _ _ => ⟨rfl, rfl⟩, fun _ _ _ hr => (nomatch hr), fun id _ hpos hle _ => ?_⟩
      exact absurd (Nat.lt_of_lt_of_le hpos hle) (by simp)
  | step app act _ ih => exact ih.step app act

theorem FanoutsRun.steps (app : FanApp) (acts : List FanStep) : ∀ {s : Fanouts}, FanoutsRun s →
    FanoutsRun (acts.foldl (Fanouts.step app) s) := by
  induction acts with
  | nil => exact fun h => h
  | cons act acts ih => exact fun h => ih (h.step app act)

/-- Every fan-out an app has asked for keeps its promises: in the table it is within its limits and not without an
end, and out of it `done` has run. -/
theorem fanout_settles {s : Fanouts} (h : FanoutsRun s) (id : Nat) (hpos : 0 < id) (hle : id ≤ s.last) :
    ∃ targets limits, (s.told id).head? = some (.asked targets limits) ∧ Kept targets limits (s.told id) ∧
      (∀ r, s.runs id = some r →
        r.plan.running.keys.length ≤ limits.maxConcurrency.toNat ∧
          r.settledBytes ≤ limits.maxTotalBytes.toNat ∧
          (r.plan.waiting = [] → r.plan.running.keys = [] → .finishIfDone id ∈ s.ready)) ∧
      (s.runs id = none → donesIn (s.told id) = 1) := by
  cases hrun : s.runs id with
  | none =>
      obtain ⟨targets, limits, hasked, hkept, hdone⟩ := h.inv.finished id (by simp) hpos hle hrun
      exact ⟨targets, limits, hasked, hkept, fun r hr => (nomatch hr), fun _ => hdone⟩
  | some r =>
      obtain ⟨hcore, hqueued⟩ := h.inv.running id r (by simp) hrun
      refine ⟨r.targets, r.plan.limits, hcore.base.asked, hcore.kept, fun r' hr' => ?_, nofun⟩
      obtain rfl := Option.some.inj hr'
      have hbytes := hcore.base.bytesLe
      refine ⟨hcore.base.plan.cap, by omega, fun hwaiting hrunning => hqueued ?_⟩
      exact (Plan.isDone_iff hcore.base.plan).mpr ⟨hwaiting, hrunning⟩

/-- A fan-out to two members, one at a time: Alice answers, and the budget runs out for Bob. -/
def twoAsked : Fanouts :=
  ([.app (.start [.user "pool" "alice", .user "pool" "bob"] .relay ⟨1, 100, 1000, 64⟩), .event 1 0 (.head ⟨200, [], none⟩ .relay),
    .event 1 0 (.body [1, 2, 3]), .event 1 0 .end_, .tick 1000] : List FanStep).foldl (Fanouts.step fun _ _ => [])
      ⟨0, fun _ => none, [], 0, fun _ => []⟩

theorem twoAsked_run : FanoutsRun twoAsked := FanoutsRun.steps _ _ (.start 0)

theorem fanout_settles_two :
    (twoAsked.runs 1).isNone ∧
      ∃ targets limits, (twoAsked.told 1).head? = some (.asked targets limits) ∧ Kept targets limits (twoAsked.told 1) ∧
        (∀ r, twoAsked.runs 1 = some r →
          r.plan.running.keys.length ≤ limits.maxConcurrency.toNat ∧
            r.settledBytes ≤ limits.maxTotalBytes.toNat ∧
            (r.plan.waiting = [] → r.plan.running.keys = [] → .finishIfDone 1 ∈ twoAsked.ready)) ∧
        (twoAsked.runs 1 = none → donesIn (twoAsked.told 1) = 1) :=
  ⟨by decide +kernel, fanout_settles twoAsked_run 1 Nat.one_pos (by decide +kernel)⟩

end CitadelAgent.Ihttp
