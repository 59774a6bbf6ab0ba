import CitadelAgent.AppSdk.Abi
import CitadelAgent.Lib.Machine

/-!
# Replies that arrive later

`citadel-app-sdk/src/pending.rs`: the handles of calls whose reply is pending, owned by the app's `Pending` or by the executor's
table, and the continuations that run when a reply is in. A call is known by its number, and so is its `Pending`, wherever it is
moved to.

* `World`, `World.step` : the host's handles, the executor and the app's `Pending`s;
* `World.Meets` : a `Pending` is given away before its handle's `ReplyReady` has come, and replies fit in memory;
* `World.Owned` : each handle is one `Pending`'s or one entry's.
-/

namespace CitadelAgent.AppSdk
open Function Machine

variable {V : Type}

abbrev Decode (V : Type) := Bytes → Except Refused V

inductive Kind
  | then_
  /-- Only a failure is of interest. -/
  | watch

structure Continuation (V : Type) where
  call : Nat
  kind : Kind
  decode : Decode V

/-- A handle that the SDK owns, in the table: a continuation, or none to read and discard. -/
structure Entry (V : Type) where
  call : Nat
  then_ : Option (Continuation V)

structure Task (V : Type) where
  continuation : Continuation V
  reply : Except Refused Bytes

inductive State
  | done (reply : Except Refused Bytes)
  | waiting (handle : Int)

structure Pending (V : Type) where
  state : Option State
  decode : Option (Decode V)

namespace Pending

def handle (p : Pending V) : Option Int :=
  match p.state with
  | some (.waiting h) => some h
  | _ => none

/-- The reply if it is in, and the `Pending` after it; `none` where the code panics, as the reply was decoded before. -/
def takeReady (p : Pending V) : Option (Option (Except Refused V) × Pending V) :=
  match p.state with
  | none => some (none, p)
  | some (.waiting _) => some (none, p)
  | some (.done r) => p.decode.map fun decode => (some (r.bind decode), ⟨none, none⟩)

end Pending

/-- A continuation that ran: the reply it was given, and what it was read as. -/
structure Run (V : Type) where
  call : Nat
  reply : Except Refused Bytes
  value : Except Refused V
  inDrain : Bool

structure Delivery where
  call : Nat
  reply : Except Refused Bytes

structure World (V : Type) where
  host : Host
  calls : Nat
  waiting : Int → Option (Entry V)
  ready : List (Task V)
  pendings : Nat → Option (Pending V)
  draining : Bool
  trapped : Bool
  answers : Nat → Option (Except Refused Bytes)
  owed : List (Nat × Int)
  attached : List Nat
  /-- Calls whose `Pending` was dropped or given a continuation. -/
  released : List Nat
  runs : List (Run V)
  failures : List (Nat × Refused)
  deliveries : List Delivery
  drained : List Nat

inductive Act (V : Type)
  | resolve (handle : Int) (reply : Bytes)
  | start (decode : Decode V) (handle : Int) (reply : Option Bytes) (room : Bool)
  | now (handle : Int) (reply : Option Bytes) (room : Bool)
  | map (call : Nat) (f : V → V)
  | takeReady (call : Nat)
  | pollWith (call : Nat) (room : Bool)
  | then_ (call : Nat)
  | watchThen (call : Nat)
  | drop (call : Nat)
  | replyReady (call : Nat) (handle : Int) (room : Bool)
  | drain
  | runTask
  | drained

variable {call : Nat} {handle : Int} {room : Bool}

namespace World

def new : World V :=
  ⟨fun _ => none, 0, fun _ => none, [], fun _ => none, false, false, fun _ => none, [], [], [], [], [], [], []⟩

/-- What the host answers, as it is known to the SDK. -/
def answerOf (handle : Int) (reply : Option Bytes) : Option (Except Refused Bytes) :=
  if handle < 0 then some (.error (refusal handle)) else reply.map .ok

def invoke (s : World V) (handle : Int) (reply : Option Bytes) : World V :=
  { s with
    host := if handle < 0 then s.host else update s.host handle (some ⟨s.calls, reply⟩)
    calls := s.calls + 1
    answers := update s.answers s.calls (answerOf handle reply) }

def own (s : World V) (call : Nat) (p : Option (Pending V)) : World V := { s with pendings := update s.pendings call p }

def wait (s : World V) (handle : Int) (entry : Entry V) : World V :=
  { s with waiting := update s.waiting handle (some entry) }

def deliver (s : World V) (call : Nat) (reply : Except Refused Bytes) : World V :=
  { s with deliveries := ⟨call, reply⟩ :: s.deliveries }

def spawn (s : World V) (task : Task V) : World V := { s with ready := s.ready ++ [task] }

def attach (s : World V) (call : Nat) : World V := { s with attached := call :: s.attached }

/-- The call's `Pending` is given away. -/
def release (s : World V) (call : Nat) : World V := { s.own call none with released := call :: s.released }

def trap (s : World V) : World V := { s with trapped := true }

def sent (s : World V) (handle : Int) (reply : Option Bytes) (room : Bool) : Sent × World V :=
  match send (s.invoke handle reply).host handle room with
  | (.done r, host) => (.done r, { (s.invoke handle reply).deliver s.calls r with host := host })
  | (.pending h, host) =>
    (.pending h, { s.invoke handle reply with host := host, owed := (s.calls, h) :: s.owed })

def look (s : World V) (call : Nat) (handle : Int) (room : Bool) : Sent × World V :=
  match read s.host handle room with
  | (.done r, host) => (.done r, { s.deliver call r with host := host })
  | (.pending h, host) => (.pending h, { s with host := host })

def takeReady (s : World V) (call : Nat) (p : Pending V) : World V :=
  match p.takeReady with
  | some (_, p') => s.own call (some p')
  | none => s.trap

/-- `ReplyReady { handle }`; a handle that the SDK does not own is the app's. -/
def replyReady (s : World V) (handle : Int) (room : Bool) : World V :=
  match s.waiting handle with
  | none => s
  | some entry =>
    match ({ s with waiting := update s.waiting handle none } : World V).look entry.call handle room with
    | (.pending h, s') => s'.wait h entry
    | (.done r, s') =>
      match entry.then_ with
      | some continuation => s'.spawn ⟨continuation, r⟩
      | none => s'

def run (s : World V) (task : Task V) : World V :=
  let value := task.reply.bind task.continuation.decode
  let s' : World V := { s with runs := ⟨task.continuation.call, task.reply, value, s.draining⟩ :: s.runs }
  match task.continuation.kind, value with
  | .watch, .error e => { s' with failures := (task.continuation.call, e) :: s.failures }
  | _, _ => s'

/-- A number is used again once its handle is released. -/
def Free (s : World V) (handle : Int) : Prop := handle < 0 ∨ s.host handle = none

instance (s : World V) (handle : Int) : Decidable (s.Free handle) := inferInstanceAs (Decidable (_ ∨ _))

def act (s : World V) : Act V → World V
  | .resolve handle reply =>
    match s.host handle with
    | some ⟨call, none⟩ =>
      { s with host := update s.host handle (some ⟨call, some reply⟩), answers := update s.answers call (some (.ok reply)) }
    | _ => s
  | .start decode handle reply room =>
    if s.Free handle then
      match s.sent handle reply room with
      | (.done r, s') => s'.own s.calls (some ⟨some (.done r), some decode⟩)
      | (.pending h, s') => s'.own s.calls (some ⟨some (.waiting h), some decode⟩)
    else s
  | .now handle reply room =>
    if s.Free handle then
      match s.sent handle reply room with
      | (.done _, s') => s'.release s.calls
      | (.pending h, s') => (s'.wait h ⟨s.calls, none⟩).release s.calls
    else s
  | .map call f =>
    match s.pendings call with
    | some ⟨state, some decode⟩ => s.own call (some ⟨state, some fun bytes => (decode bytes).map f⟩)
    | some ⟨_, none⟩ => s.trap
    | none => s
  | .takeReady call =>
    match s.pendings call with
    | some p => s.takeReady call p
    | none => s
  | .pollWith call room =>
    match s.pendings call with
    | some p =>
      match p.state with
      | some (.waiting handle) =>
        match s.look call handle room with
        | (.done r, s') => s'.takeReady call { p with state := some (.done r) }
        | (.pending h, s') => s'.takeReady call { p with state := some (.waiting h) }
      | _ => s.takeReady call p
    | none => s
  | .then_ call =>
    match s.pendings call with
    | some ⟨state, some decode⟩ =>
      match state with
      | some (.done r) => ((s.attach call).spawn ⟨⟨call, .then_, decode⟩, r⟩).release call
      | some (.waiting h) => ((s.attach call).wait h ⟨call, some ⟨call, .then_, decode⟩⟩).release call
      | none => s.release call
    | some ⟨_, none⟩ => s.trap
    | none => s
  | .watchThen call =>
    match s.pendings call with
    | some p =>
      match p.takeReady with
      | none => s.trap
      | some (some (.error e), _) => ({ s with failures := (call, e) :: s.failures } : World V).release call
      | some (some (.ok _), _) => s.release call
      | some (none, p') =>
        match p'.decode with
        | none => s.trap
        | some decode =>
          match p'.state with
          | some (.waiting h) => ((s.attach call).wait h ⟨call, some ⟨call, .watch, decode⟩⟩).release call
          | _ => s.release call
    | none => s
  | .drop call =>
    match s.pendings call with
    | some p =>
      match p.state with
      | some (.waiting h) => (s.wait h ⟨call, none⟩).release call
      | _ => s.release call
    | none => s
  | .replyReady call handle room =>
    -- Once for each handle that answered pending, after its reply is in.
    if (call, handle) ∈ s.owed ∧ (s.answers call).isSome then
      ({ s with owed := s.owed.erase (call, handle) } : World V).replyReady handle room
    else s
  | .drain => { s with draining := true }
  | .runTask =>
    match s.draining, s.ready with
    | true, task :: ready => ({ s with ready := ready } : World V).run task
    | _, _ => s
  | .drained =>
    if s.draining = true ∧ s.ready.isEmpty then
      { s with draining := false, drained := s.attached.filter (· ∉ s.owed.map Prod.fst) }
    else s

def step (s : World V) (a : Act V) : World V := if s.trapped then s else s.act a

/-- The handle's `ReplyReady` is still to come. -/
def Owes (s : World V) (call : Nat) : Prop := call ∈ s.owed.map Prod.fst

instance (s : World V) (call : Nat) : Decidable (s.Owes call) := inferInstanceAs (Decidable (_ ∈ _))

def Fits (s : World V) (handle : Int) (room : Bool) : Prop :=
  ∀ slot ∈ s.host handle, slot.reply.isSome = true → room = true

/-- A `Pending` that waits is given away before its `ReplyReady`. -/
def Early (s : World V) (call : Nat) : Prop := ∀ p ∈ s.pendings call, p.handle.isSome = true → s.Owes call

instance (s : World V) (handle : Int) (room : Bool) : Decidable (s.Fits handle room) :=
  inferInstanceAs (Decidable (∀ slot ∈ s.host handle, slot.reply.isSome = true → room = true))

instance (s : World V) (call : Nat) : Decidable (s.Early call) :=
  inferInstanceAs (Decidable (∀ p ∈ s.pendings call, p.handle.isSome = true → s.Owes call))

/-- A `Pending` is dropped, or given a continuation, before its handle's `ReplyReady` has been delivered, and each reply that is
read fits in memory. -/
def Meets (s : World V) : Act V → Prop
  | .start _ handle reply room => 0 ≤ handle → reply.isSome = true → room = true
  | .now handle reply room => 0 ≤ handle → reply.isSome = true → room = true
  | .pollWith call room => ∀ p ∈ s.pendings call, ∀ h ∈ p.handle, s.Fits h room
  | .replyReady _ handle room => (s.waiting handle).isSome = true → s.Fits handle room
  | .then_ call => s.Early call
  | .watchThen call => s.Early call
  | .drop call => s.Early call
  | _ => True

instance (s : World V) : ∀ a, Decidable (s.Meets a)
  | .start _ handle reply room => inferInstanceAs (Decidable (0 ≤ handle → reply.isSome = true → room = true))
  | .now handle reply room => inferInstanceAs (Decidable (0 ≤ handle → reply.isSome = true → room = true))
  | .pollWith call room => inferInstanceAs (Decidable (∀ p ∈ s.pendings call, ∀ h ∈ p.handle, s.Fits h room))
  | .replyReady _ handle room => inferInstanceAs (Decidable ((s.waiting handle).isSome = true → s.Fits handle room))
  | .then_ call => inferInstanceAs (Decidable (s.Early call))
  | .watchThen call => inferInstanceAs (Decidable (s.Early call))
  | .drop call => inferInstanceAs (Decidable (s.Early call))
  | .resolve _ _ => isTrue trivial
  | .map _ _ => isTrue trivial
  | .takeReady _ => isTrue trivial
  | .drain => isTrue trivial
  | .runTask => isTrue trivial
  | .drained => isTrue trivial

/-! ## Who owns a handle -/

/-- Each handle that is live answers a call of its own; the one that the host owes a call a `ReplyReady` of is the call's. -/
structure Hosted (s : World V) : Prop where
  fresh : ∀ call, s.calls ≤ call → s.answers call = none
  slots : ∀ h slot, s.host h = some slot → slot.call < s.calls ∧ s.answers slot.call = slot.reply.map .ok
  inj : ∀ h h' slot slot', s.host h = some slot → s.host h' = some slot' → slot.call = slot'.call → h = h'
  owedOnce : (s.owed.map Prod.fst).Nodup
  owed : ∀ x ∈ s.owed, x.1 < s.calls ∧ ∀ h slot, s.host h = some slot → slot.call = x.1 → h = x.2

/-- Each handle that is live is its call's `Pending`'s, or in the table. -/
structure Owned (s : World V) : Prop extends Hosted s where
  owner : ∀ h slot, s.host h = some slot →
    (∃ p, s.pendings slot.call = some p ∧ p.handle = some h) ∨ ∃ entry, s.waiting h = some entry ∧ entry.call = slot.call
  decode : ∀ call p, s.pendings call = some p → call < s.calls ∧ (p.state = none ↔ p.decode = none)
  waits : ∀ call p, s.pendings call = some p → ∀ h ∈ p.handle, ∃ slot, s.host h = some slot ∧ slot.call = call
  answered : ∀ call p r, s.pendings call = some p → p.state = some (.done r) → s.answers call = some r
  table : ∀ h entry, s.waiting h = some entry → (∃ slot, s.host h = some slot ∧ slot.call = entry.call) ∧
    (entry.call, h) ∈ s.owed ∧ s.pendings entry.call = none ∧ ∀ c ∈ entry.then_, c.call = entry.call

/-! ## What a step does -/

def answeredAtOnce (s : World V) (r : Except Refused Bytes) : World V :=
  { s with
    calls := s.calls + 1
    answers := update s.answers s.calls (some r)
    deliveries := ⟨s.calls, r⟩ :: s.deliveries }

def issued (s : World V) (handle : Int) : World V :=
  { s with
    host := update s.host handle (some ⟨s.calls, none⟩)
    calls := s.calls + 1
    answers := update s.answers s.calls none
    owed := (s.calls, handle) :: s.owed }

def collect (s : World V) (call : Nat) (handle : Int) (bytes : Bytes) : World V :=
  { s with host := update s.host handle none, deliveries := ⟨call, .ok bytes⟩ :: s.deliveries }

/-- The `ReplyReady` of a call's handle has come. -/
def told (s : World V) (call : Nat) (handle : Int) : World V := { s with owed := s.owed.erase (call, handle) }

inductive Moves (s : World V) : World V → Prop
  | stay : Moves s s
  | trap : Moves s s.trap
  | resolve {h : Int} {call : Nat} (bytes : Bytes) (hh : s.host h = some ⟨call, none⟩) :
    Moves s { s with host := update s.host h (some ⟨call, some bytes⟩), answers := update s.answers call (some (.ok bytes)) }
  | startDone (r : Except Refused Bytes) (decode : Decode V) :
    Moves s ((s.answeredAtOnce r).own s.calls (some ⟨some (.done r), some decode⟩))
  | startPending {h : Int} (hpos : 0 ≤ h) (hfree : s.host h = none) (decode : Decode V) :
    Moves s ((s.issued h).own s.calls (some ⟨some (.waiting h), some decode⟩))
  | nowDone (r : Except Refused Bytes) : Moves s ((s.answeredAtOnce r).release s.calls)
  | nowPending {h : Int} (hpos : 0 ≤ h) (hfree : s.host h = none) :
    Moves s (((s.issued h).wait h ⟨s.calls, none⟩).release s.calls)
  | map {call : Nat} {state : Option State} {decode : Decode V} (hp : s.pendings call = some ⟨state, some decode⟩)
    (decode' : Decode V) : Moves s (s.own call (some ⟨state, some decode'⟩))
  | taken {call : Nat} {r : Except Refused Bytes} {decode : Option (Decode V)}
    (hp : s.pendings call = some ⟨some (.done r), decode⟩) : Moves s (s.own call (some ⟨none, none⟩))
  | polled {call : Nat} {h : Int} {decode : Option (Decode V)} {bytes : Bytes}
    (hp : s.pendings call = some ⟨some (.waiting h), decode⟩) (hh : s.host h = some ⟨call, some bytes⟩) :
    Moves s ((s.collect call h bytes).own call (some ⟨none, none⟩))
  | released {call : Nat} {p : Pending V} (hp : s.pendings call = some p) (hnone : p.handle = none)
    (failures : List (Nat × Refused)) : Moves s (({ s with failures := failures } : World V).release call)
  | thenDone {call : Nat} {r : Except Refused Bytes} {decode : Decode V}
    (hp : s.pendings call = some ⟨some (.done r), some decode⟩) :
    Moves s (((s.attach call).spawn ⟨⟨call, .then_, decode⟩, r⟩).release call)
  | thenWaits {call : Nat} {h : Int} {decode : Decode V} (hp : s.pendings call = some ⟨some (.waiting h), some decode⟩)
    (howes : s.Owes call) (kind : Kind) : Moves s (((s.attach call).wait h ⟨call, some ⟨call, kind, decode⟩⟩).release call)
  | dropWaits {call : Nat} {h : Int} {decode : Option (Decode V)} (hp : s.pendings call = some ⟨some (.waiting h), decode⟩)
    (howes : s.Owes call) : Moves s ((s.wait h ⟨call, none⟩).release call)
  | passed {call : Nat} {h : Int} (howed : (call, h) ∈ s.owed) (hnone : s.waiting h = none) : Moves s (s.told call h)
  /-- The handle is another call's by now, whose reply is still pending. -/
  | again {call other : Nat} {h : Int} (howed : (call, h) ∈ s.owed) (hin : (s.answers call).isSome)
    (hh : s.host h = some ⟨other, none⟩) : Moves s (s.told call h)
  | discarded {call : Nat} {h : Int} {entry : Entry V} {bytes : Bytes} (howed : (call, h) ∈ s.owed)
    (hin : (s.answers call).isSome) (hw : s.waiting h = some entry) (hh : s.host h = some ⟨entry.call, some bytes⟩)
    (hthen : entry.then_ = none) :
    Moves s ({ s.told call h with waiting := update s.waiting h none }.collect entry.call h bytes)
  | replied {call : Nat} {h : Int} {entry : Entry V} {bytes : Bytes} {continuation : Continuation V} (howed : (call, h) ∈ s.owed)
    (hin : (s.answers call).isSome) (hw : s.waiting h = some entry) (hh : s.host h = some ⟨entry.call, some bytes⟩)
    (hthen : entry.then_ = some continuation) :
    Moves s (({ s.told call h with waiting := update s.waiting h none }.collect entry.call h bytes).spawn
      ⟨continuation, .ok bytes⟩)
  | drain : Moves s { s with draining := true }
  | ran {task : Task V} {ready : List (Task V)} (hdrain : s.draining = true) (hready : s.ready = task :: ready) :
    Moves s (({ s with ready := ready } : World V).run task)
  | drained (hready : s.ready = []) :
    Moves s { s with draining := false, drained := s.attached.filter (· ∉ s.owed.map Prod.fst) }

variable {s t : World V}

theorem sent_cases {reply : Option Bytes} (hfree : s.Free handle) (hroom : 0 ≤ handle → reply.isSome = true → room = true) :
    (∃ r, s.sent handle reply room = (.done r, s.answeredAtOnce r)) ∨
    0 ≤ handle ∧ s.host handle = none ∧ s.sent handle reply room = (.pending handle, s.issued handle) := by
  unfold sent invoke answerOf
  by_cases hneg : handle < 0
  · refine .inl ⟨.error (refusal handle), ?_⟩
    simp only [send, if_pos hneg]
    rfl
  · have hnone : s.host handle = none := hfree.resolve_left hneg
    have hslot : ∀ r, update s.host handle (some ⟨s.calls, r⟩) handle = some ⟨s.calls, r⟩ := fun r => update_self ..
    simp only [send, if_neg hneg]
    cases reply with
    | none =>
      refine .inr ⟨by omega, hnone, ?_⟩
      rw [read_pending (hslot none)]
      rfl
    | some bytes =>
      refine .inl ⟨.ok bytes, ?_⟩
      rw [hroom (by omega) rfl, read_ready (hslot (some bytes)), update_idem, ← hnone, update_eq_self]
      rfl

theorem look_cases {slot : Slot} (hh : s.host handle = some slot) (hfits : s.Fits handle room)
    (call : Nat) : slot.reply = none ∧ s.look call handle room = (.pending handle, s) ∨
      ∃ bytes, slot.reply = some bytes ∧ s.look call handle room = (.done (.ok bytes), s.collect call handle bytes) := by
  obtain ⟨issuer, reply⟩ := slot
  unfold look
  cases reply with
  | none => exact .inl ⟨rfl, by rw [read_pending hh]⟩
  | some bytes =>
    refine .inr ⟨bytes, rfl, ?_⟩
    rw [hfits _ hh rfl, read_ready hh]
    rfl

theorem moves_takeReady {p : Pending V} (hp : s.pendings call = some p) :
    Moves s (s.takeReady call p) := by
  obtain ⟨state, decode⟩ := p
  have hsame : s.own call (some ⟨state, decode⟩) = s := by
    unfold own
    rw [← hp, update_eq_self]
  cases state with
  | none =>
    show Moves s (s.own call (some ⟨none, decode⟩))
    rw [hsame]
    exact .stay
  | some state =>
    cases state with
    | waiting handle =>
      show Moves s (s.own call (some ⟨some (.waiting handle), decode⟩))
      rw [hsame]
      exact .stay
    | done r =>
      cases decode with
      | none => exact .trap
      | some decode => exact .taken hp

theorem moves_pollWith (h : s.Owned) (hmeets : s.Meets (.pollWith call room)) :
    Moves s (s.act (.pollWith call room)) := by
  simp only [act]
  cases hp : s.pendings call with
  | none => exact .stay
  | some p =>
    obtain ⟨state, decode⟩ := p
    cases state with
    | none => exact moves_takeReady hp
    | some state =>
      cases state with
      | done r => exact moves_takeReady hp
      | waiting handle =>
        obtain ⟨slot, hh, rfl⟩ := h.waits call _ hp handle rfl
        rcases look_cases hh (hmeets _ hp handle rfl) slot.call with ⟨-, hlook⟩ | ⟨bytes, hbytes, hlook⟩
        · simp only [hlook]
          exact moves_takeReady hp
        · simp only [hlook]
          obtain ⟨issuer, reply⟩ := slot
          obtain rfl : reply = some bytes := hbytes
          have hdecode : decode ≠ none := fun hnone => nomatch (h.decode _ _ hp).2.mpr hnone
          obtain ⟨d, rfl⟩ := Option.ne_none_iff_exists'.mp hdecode
          exact .polled hp hh

theorem moves_then (h : s.Owned) (hmeets : s.Early call) : Moves s (s.act (.then_ call)) := by
  simp only [act]
  cases hp : s.pendings call with
  | none => exact .stay
  | some p =>
    obtain ⟨state, decode⟩ := p
    cases decode with
    | none => exact .trap
    | some decode =>
      cases state with
      | none => exact nomatch (h.decode _ _ hp).2.mp rfl
      | some state =>
        cases state with
        | done r => exact .thenDone hp
        | waiting handle => exact .thenWaits hp (hmeets _ hp rfl) .then_

theorem moves_watchThen (h : s.Owned) (hmeets : s.Early call) : Moves s (s.act (.watchThen call)) := by
  simp only [act]
  cases hp : s.pendings call with
  | none => exact .stay
  | some p =>
    obtain ⟨state, decode⟩ := p
    cases decode with
    | none =>
      have hstate := (h.decode _ _ hp).2.mpr rfl
      dsimp only at hstate
      subst hstate
      exact .trap
    | some decode =>
      cases state with
      | none => exact nomatch (h.decode _ _ hp).2.mp rfl
      | some state =>
        cases state with
        | done r =>
          dsimp only [Pending.takeReady, Option.map_some]
          cases r.bind decode with
          | error e => exact .released hp rfl ((call, e) :: s.failures)
          | ok v => exact .released hp rfl s.failures
        | waiting handle => exact .thenWaits hp (hmeets _ hp rfl) .watch

theorem moves_drop (hmeets : s.Early call) : Moves s (s.act (.drop call)) := by
  simp only [act]
  cases hp : s.pendings call with
  | none => exact .stay
  | some p =>
    obtain ⟨state, decode⟩ := p
    cases state with
    | none => exact .released hp rfl s.failures
    | some state =>
      cases state with
      | done r => exact .released hp rfl s.failures
      | waiting handle => exact .dropWaits hp (hmeets _ hp rfl)

theorem moves_replyReady (h : s.Owned)
    (hmeets : s.Meets (.replyReady call handle room)) : Moves s (s.act (.replyReady call handle room)) := by
  simp only [act]
  split_ifs with howed
  · unfold replyReady
    cases hw : s.waiting handle with
    | none => exact .passed howed.1 hw
    | some entry =>
      obtain ⟨⟨slot, hh, hcall⟩, -⟩ := h.table handle entry hw
      have hfits : s.Fits handle room := hmeets (by rw [hw]; rfl)
      dsimp only
      set u : World V := { s with owed := s.owed.erase (call, handle), waiting := update s.waiting handle none }
      have hhu : u.host handle = some slot := hh
      rcases look_cases hhu hfits entry.call with ⟨hnone, hlook⟩ | ⟨bytes, hbytes, hlook⟩
      · rw [hlook]
        obtain ⟨issuer, reply⟩ := slot
        obtain rfl : reply = none := hnone
        have hsame : u.wait handle entry = s.told call handle := by
          simp only [wait, told, u, update_idem, ← hw, update_eq_self]
        show Moves s (u.wait handle entry)
        rw [hsame]
        exact .again howed.1 howed.2 hh
      · rw [hlook]
        obtain ⟨issuer, reply⟩ := slot
        obtain rfl : issuer = entry.call := hcall
        obtain rfl : reply = some bytes := hbytes
        dsimp only
        cases hthen : entry.then_ with
        | none => exact .discarded howed.1 howed.2 hw hh hthen
        | some continuation => exact .replied howed.1 howed.2 hw hh hthen
  · exact .stay

theorem step_moves (h : s.Owned) (a : Act V) (hmeets : s.Meets a) : Moves s (s.step a) := by
  unfold step
  split_ifs
  · exact .stay
  · cases a with
    | resolve handle reply =>
      simp only [act]
      split
      · rename_i call hh
        exact .resolve reply hh
      · exact .stay
    | start decode handle reply room =>
      simp only [act]
      split_ifs with hfree
      · rcases sent_cases hfree hmeets with ⟨r, hsent⟩ | ⟨hpos, hnone, hsent⟩
        · rw [hsent]
          exact .startDone r decode
        · rw [hsent]
          exact .startPending hpos hnone decode
      · exact .stay
    | now handle reply room =>
      simp only [act]
      split_ifs with hfree
      · rcases sent_cases hfree hmeets with ⟨r, hsent⟩ | ⟨hpos, hnone, hsent⟩
        · rw [hsent]
          exact .nowDone r
        · rw [hsent]
          exact .nowPending hpos hnone
      · exact .stay
    | map call f =>
      simp only [act]
      split
      · rename_i state decode hp
        exact .map hp _
      · exact .trap
      · exact .stay
    | takeReady call =>
      simp only [act]
      split
      · rename_i p hp
        exact moves_takeReady hp
      · exact .stay
    | pollWith call room => exact moves_pollWith h hmeets
    | then_ call => exact moves_then h hmeets
    | watchThen call => exact moves_watchThen h hmeets
    | drop call => exact moves_drop hmeets
    | replyReady call handle room => exact moves_replyReady h hmeets
    | drain => exact .drain
    | runTask =>
      simp only [act]
      split
      · rename_i task ready hdrain hready
        exact .ran hdrain hready
      · exact .stay
    | drained =>
      simp only [act]
      split_ifs with hdone
      · exact .drained (List.isEmpty_iff.mp hdone.2)
      · exact .stay

end World

end CitadelAgent.AppSdk
