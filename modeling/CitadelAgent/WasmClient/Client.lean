import CitadelAgent.Lib.Machine
import CitadelAgent.Lib.Updates

/-!
# The browser's client

`citadel-internal-service-wasm-client/src/lib.rs` (`init_inner`, `close_connection`, `next_message`, `restore_message_stream`,
`drain_queued`) and `connection_lifecycle.rs`: one page's connection to its agent. Calls give way where they wait for the WebSocket
or for the state's lock; what they do under the lock is one step. Connections are numbered in the order in which their channels are
made, and so are their receivers and communication tasks; messages are numbered as they arrive.

* `refuseInit`, `teardownBeforeConnect`, `shouldReportDeath`, `drainQueued` : the decisions;
* `Client`, `Client.step` : the globals, the calls in progress, the tasks and the readers;
* `Client.Numbered` : a connection is set up by one call, and installed by it (`Client.numbered_step`).
-/

namespace CitadelAgent.WasmClient
open Function Machine

def refuseInit (restart initialized : Bool) : Bool := !restart && initialized

def teardownBeforeConnect (restart initialized : Bool) : Bool := restart && initialized

def shouldReportDeath (taskGeneration currentGeneration : Nat) : Bool := taskGeneration = currentGeneration

/-- A message, by the number of its arrival. -/
abbrev Msg := Nat

def drainQueued : List Msg → List Msg → List Msg × Nat
  | [], sink => (sink, 0)
  | m :: stream, sink =>
    let (sink, moved) := drainQueued stream (sink ++ [m])
    (sink, moved + 1)

theorem drainQueued_eq (stream sink : List Msg) : drainQueued stream sink = (sink ++ stream, stream.length) := by
  induction stream generalizing sink with
  | nil => rw [drainQueued, List.append_nil, List.length_nil]
  | cons m stream ih => rw [drainQueued, ih, List.append_assoc, List.singleton_append, List.length_cons]

/-- `connection` is whose messenger and shutdown sender these are, and whose receiver was made with the state. -/
structure WorkspaceState where
  connection : Nat
  stream : Option Nat
  pending : List Msg
  deriving DecidableEq

/-- Where a call of `init`, `restart` or `close_connection` waits. -/
inductive Call
  /-- For the lock, to close; a restart goes on to connect. -/
  | closing (restart : Bool)
  | connecting (connection generation : Nat)
  /-- For the lock, to install; the communication task is spawned. -/
  | installing (connection generation : Nat)

def Call.sets : Call → Option Nat
  | .closing _ => none
  | .connecting c _ => some c
  | .installing c _ => some c

inductive TaskState
  | running (generation : Nat)
  | ended
  deriving DecidableEq

structure TaskEnd where
  connection : Nat
  reported : Bool
  installed : Bool
  shutDown : Bool
  deriving DecidableEq

/-- A `next_message` that took a receiver out: parked on it, or with what it received, to give it back. -/
structure Reader where
  receiver : Nat
  got : Option (Option Msg)

structure Client where
  workspace : Option WorkspaceState
  sink : Option Nat
  generation : Nat
  connections : Nat
  calls : Nat → Option Call
  begun : Nat
  tasks : Nat → Option TaskState
  readers : Nat → Option Reader
  reads : Nat
  queue : Nat → List Msg
  closed : Nat → Bool
  arrived : Nat
  installed : List Nat
  ends : List TaskEnd
  returned : List Msg
  /-- Messages that were queued in a receiver when it was given back to a newer state. -/
  rescued : List Msg
  discarded : List Msg

inductive Act
  | init
  | restart
  | close
  | lock (call : Nat)
  | connect (call : Nat) (ok : Bool)
  | socketDies (connection : Nat)
  | shutdown (connection : Nat)
  | arrive (connection : Nat)
  | hangUp (connection : Nat)
  /-- `next_message`; `ok` is whether a response can be given to the page. -/
  | next (ok : Bool)
  | receive (reader : Nat)
  | giveBack (reader : Nat) (ok : Bool)

namespace Client

def new : Client :=
  { workspace := none, sink := none, generation := 0, connections := 0, calls := fun _ => none, begun := 0, tasks := fun _ => none,
    readers := fun _ => none, reads := 0, queue := fun _ => [], closed := fun _ => false, arrived := 0, installed := [], ends := [],
    returned := [], rescued := [], discarded := [] }

def isInitialized (s : Client) : Bool := s.workspace.isSome

def current (s : Client) : Option Nat := s.workspace.map (·.connection)

def setCall (s : Client) (i : Nat) (call : Option Call) : Client := { s with calls := update s.calls i call }

def connectFrom (s : Client) (i : Nat) : Client :=
  { s.setCall i (some (.connecting s.connections s.generation)) with
    sink := some s.connections
    connections := s.connections + 1 }

/-- `close_connection` up to the lock. -/
def closeFrom (s : Client) (i : Nat) (restart : Bool) : Client :=
  { s.setCall i (some (.closing restart)) with sink := none, generation := s.generation + 1 }

def initInner (s : Client) (restart : Bool) : Client :=
  let s' : Client := { s with begun := s.begun + 1 }
  if refuseInit restart s.isInitialized then s'
  else if teardownBeforeConnect restart s.isInitialized then s'.closeFrom s.begun true
  else s'.connectFrom s.begun

def closeLocked (s : Client) (i : Nat) (restart : Bool) : Client :=
  match s.workspace with
  | some w =>
    let s' : Client := { s with workspace := none, discarded := s.discarded ++ w.pending }
    if restart then s'.connectFrom i else s'.setCall i none
  | none => s.setCall i none

def installLocked (s : Client) (i c : Nat) : Client :=
  { s.setCall i none with workspace := some ⟨c, some c, []⟩, installed := c :: s.installed }

def endTask (s : Client) (c generation : Nat) (shutDown : Bool) : Client :=
  { s with
    tasks := update s.tasks c (some .ended)
    ends := ⟨c, shouldReportDeath generation s.generation, s.current = some c, shutDown⟩ :: s.ends }

/-- Nothing holds the shutdown sender of the connection's task. -/
def Orphan (s : Client) (c : Nat) : Prop :=
  s.current ≠ some c ∧ ∀ i < s.begun, ∀ call ∈ s.calls i, call.sets ≠ some c

instance (s : Client) (c : Nat) : Decidable (s.Orphan c) := inferInstanceAs (Decidable (_ ∧ _))

def setReader (s : Client) (i : Nat) (reader : Option Reader) : Client := { s with readers := update s.readers i reader }

def answer (s : Client) (m : Msg) (ok : Bool) : Client := if ok then { s with returned := s.returned ++ [m] } else s

def nextMessage (s : Client) (ok : Bool) : Client :=
  match s.workspace with
  | none => s
  | some w =>
    match w.pending with
    | m :: pending => ({ s with workspace := some { w with pending := pending } } : Client).answer m ok
    | [] =>
      match w.stream with
      | some r =>
        { s.setReader s.reads (some ⟨r, none⟩) with workspace := some { w with stream := none }, reads := s.reads + 1 }
      | none => s

def rescuedWith (s : Client) (w : WorkspaceState) (r : Nat) : List Msg :=
  if r = w.connection then s.rescued else s.rescued ++ s.queue r

def restoreMessageStream (s : Client) (r : Nat) : Client :=
  match s.workspace with
  | none => { s with queue := update s.queue r [] }
  | some w =>
    match w.stream with
    | none => { s with workspace := some { w with stream := some r }, rescued := s.rescuedWith w r }
    | some _ =>
      { s with
        workspace := some { w with pending := (drainQueued (s.queue r) w.pending).1 }
        queue := update s.queue r []
        rescued := s.rescuedWith w r }

def step (s : Client) : Act → Client
  | .init => s.initInner false
  | .restart => s.initInner true
  | .close => ({ s with begun := s.begun + 1 } : Client).closeFrom s.begun false
  | .lock i =>
    match s.calls i with
    | some (.closing restart) => s.closeLocked i restart
    | some (.installing c _) => s.installLocked i c
    | _ => s
  | .connect i ok =>
    match s.calls i with
    | some (.connecting c generation) =>
      if ok then
        { s.setCall i (some (.installing c generation)) with tasks := update s.tasks c (some (.running generation)) }
      else s.setCall i none
    | _ => s
  | .socketDies c =>
    match s.tasks c with
    | some (.running generation) => s.endTask c generation false
    | _ => s
  | .shutdown c =>
    match s.tasks c with
    | some (.running generation) => if s.Orphan c then s.endTask c generation true else s
    | _ => s
  | .arrive c => { s with queue := update s.queue c (s.queue c ++ [s.arrived]), arrived := s.arrived + 1 }
  | .hangUp c => { s with closed := update s.closed c true }
  | .next ok => s.nextMessage ok
  | .receive i =>
    match s.readers i with
    | some ⟨r, none⟩ =>
      match s.queue r with
      | m :: queue => { s.setReader i (some ⟨r, some (some m)⟩) with queue := update s.queue r queue }
      | [] => if s.closed r then s.setReader i (some ⟨r, some none⟩) else s
    | _ => s
  | .giveBack i ok =>
    match s.readers i with
    | some ⟨r, some (some m)⟩ => ((s.setReader i none).restoreMessageStream r).answer m ok
    | some ⟨r, some none⟩ => (s.setReader i none).restoreMessageStream r
    | _ => s

/-! ## Numbers of connections -/

structure Numbered (s : Client) : Prop where
  begun : ∀ i call, s.calls i = some call → i < s.begun
  made : ∀ i call c, s.calls i = some call → call.sets = some c → c < s.connections ∧ c ∉ s.installed
  apart : ∀ i j call call' c, s.calls i = some call → s.calls j = some call' → call.sets = some c → call'.sets = some c → i = j
  installed : ∀ c ∈ s.installed, c < s.connections
  workspace : ∀ w ∈ s.workspace, w.connection ∈ s.installed ∧ ∀ r ∈ w.stream, r ∈ s.installed
  readers : ∀ i reader, s.readers i = some reader → i < s.reads ∧ reader.receiver ∈ s.installed

variable {s t : Client}

theorem Numbered.calls_none (h : s.Numbered) {i : Nat} (hi : s.begun ≤ i) : s.calls i = none := by
  cases hcall : s.calls i with
  | none => rfl
  | some call => exact absurd (h.begun i call hcall) (Nat.not_lt.mpr hi)

theorem Numbered.setCall (h : s.Numbered) {i : Nat} (call' : Option Call) (hi : i < s.begun)
    (hsets : ∀ call ∈ call', ∀ c, call.sets = some c → ∃ was, s.calls i = some was ∧ was.sets = some c) :
    (s.setCall i call').Numbered := by
  have hwas : ∀ j call c, update s.calls i call' j = some call → call.sets = some c → ∃ was, s.calls j = some was ∧ was.sets = some c := by
    intro j call c hj hc
    rcases of_update hj with ⟨rfl, hnew⟩ | ⟨-, hold⟩
    · exact hsets call hnew c hc
    · exact ⟨call, hold, hc⟩
  refine ⟨fun j call hj => ?_, fun j call c hj hc => ?_, fun j j' call call'' c hj hj' hc hc' => ?_, h.installed, h.workspace,
    h.readers⟩
  · rcases of_update hj with ⟨rfl, -⟩ | ⟨-, hold⟩
    · exact hi
    · exact h.begun j call hold
  · obtain ⟨was, hold, hwasc⟩ := hwas j call c hj hc
    exact h.made j was c hold hwasc
  · obtain ⟨was, hold, hwasc⟩ := hwas j call c hj hc
    obtain ⟨was', hold', hwasc'⟩ := hwas j' call'' c hj' hc'
    exact h.apart j j' was was' c hold hold' hwasc hwasc'

theorem Numbered.same (h : s.Numbered) (hcalls : t.calls = s.calls) (hbegun : s.begun ≤ t.begun) (hconn : t.connections = s.connections)
    (hinstalled : t.installed = s.installed)
    (hworkspace : ∀ w ∈ t.workspace, w.connection ∈ s.installed ∧ ∀ r ∈ w.stream, r ∈ s.installed)
    (hreaders : ∀ i reader, t.readers i = some reader → i < t.reads ∧ reader.receiver ∈ s.installed) : t.Numbered where
  begun i call hi := (h.begun i call (hcalls ▸ hi)).trans_le hbegun
  made i call c hi hc := by
    rw [hconn, hinstalled]
    exact h.made i call c (hcalls ▸ hi) hc
  apart i j call call' c hi hj := by
    rw [hcalls] at hi hj
    exact h.apart i j call call' c hi hj
  installed := by
    rw [hconn, hinstalled]
    exact h.installed
  workspace := hinstalled ▸ hworkspace
  readers := hinstalled ▸ hreaders

theorem Numbered.connectFrom (h : s.Numbered) {i : Nat} (hi : i < s.begun) : (s.connectFrom i).Numbered := by
  have hlt : ∀ c ∈ s.installed, c < s.connections + 1 := fun c hc => Nat.lt_succ_of_lt (h.installed c hc)
  refine ⟨fun j call hj => ?_, fun j call c hj hc => ?_, fun j j' call call' c hj hj' hc hc' => ?_, hlt, h.workspace, h.readers⟩
  · rcases of_update_some hj with ⟨rfl, -⟩ | ⟨-, hold⟩
    · exact hi
    · exact h.begun j call hold
  · rcases of_update_some hj with ⟨-, rfl⟩ | ⟨-, hold⟩
    · obtain rfl := Option.some.inj hc
      exact ⟨Nat.lt_succ_self _, fun hin => Nat.lt_irrefl _ (h.installed _ hin)⟩
    · exact ⟨Nat.lt_succ_of_lt (h.made j call c hold hc).1, (h.made j call c hold hc).2⟩
  · rcases of_update_some hj with ⟨rfl, rfl⟩ | ⟨-, hold⟩
    · rcases of_update_some hj' with ⟨rfl, -⟩ | ⟨-, hold'⟩
      · rfl
      · obtain rfl := Option.some.inj hc
        exact absurd (h.made j' call' _ hold' hc').1 (Nat.lt_irrefl _)
    · rcases of_update_some hj' with ⟨-, rfl⟩ | ⟨-, hold'⟩
      · obtain rfl := Option.some.inj hc'
        exact absurd (h.made j call _ hold hc).1 (Nat.lt_irrefl _)
      · exact h.apart j j' call call' c hold hold' hc hc'

theorem Numbered.installLocked (h : s.Numbered) {i c generation : Nat} (hi : s.calls i = some (.installing c generation)) :
    (s.installLocked i c).Numbered := by
  have hlt := (h.made i _ c hi rfl).1
  refine ⟨fun j call hj => h.begun j call (of_update_none hj).2, fun j call c' hj hc' => ?_, fun j j' call call' c' hj hj' =>
    h.apart j j' call call' c' (of_update_none hj).2 (of_update_none hj').2, ?_, ?_, fun j reader hj => ?_⟩
  · obtain ⟨hne, hold⟩ := of_update_none hj
    obtain ⟨hmade, hnot⟩ := h.made j call c' hold hc'
    refine ⟨hmade, fun hin => ?_⟩
    rcases List.mem_cons.mp hin with rfl | hwas
    · exact hne (h.apart j i call _ c' hold hi hc' rfl)
    · exact hnot hwas
  · rintro c' (_ | ⟨_, hold⟩)
    · exact hlt
    · exact h.installed c' hold
  · intro w hw
    obtain rfl := Option.some.inj hw
    refine ⟨List.mem_cons_self, fun r hr => ?_⟩
    obtain rfl := Option.some.inj hr
    exact List.mem_cons_self
  · exact ⟨(h.readers j reader hj).1, List.mem_cons_of_mem _ (h.readers j reader hj).2⟩

theorem Numbered.keep (h : s.Numbered) (hcalls : t.calls = s.calls) (hbegun : t.begun = s.begun)
    (hconn : t.connections = s.connections) (hinstalled : t.installed = s.installed)
    (hworkspace : t.workspace = s.workspace) (hreaders : t.readers = s.readers) (hreads : t.reads = s.reads) : t.Numbered :=
  h.same hcalls hbegun.ge hconn hinstalled (hworkspace ▸ h.workspace) (by
    rw [hreaders, hreads]
    exact h.readers)

theorem Numbered.answer (h : s.Numbered) (m : Msg) (ok : Bool) : (s.answer m ok).Numbered := by
  unfold Client.answer
  split_ifs
  · exact h.keep rfl rfl rfl rfl rfl rfl rfl
  · exact h

theorem Numbered.restore (h : s.Numbered) {r : Nat} (hr : r ∈ s.installed) : (s.restoreMessageStream r).Numbered := by
  unfold restoreMessageStream
  split
  · exact h.keep rfl rfl rfl rfl rfl rfl rfl
  · rename_i w hw
    split
    · refine h.same rfl le_rfl rfl rfl (fun w' hw' => ?_) h.readers
      obtain rfl := Option.some.inj hw'
      refine ⟨(h.workspace w hw).1, fun r' hr' => ?_⟩
      obtain rfl := Option.some.inj hr'
      exact hr
    · refine h.same rfl le_rfl rfl rfl (fun w' hw' => ?_) h.readers
      obtain rfl := Option.some.inj hw'
      exact h.workspace w hw

theorem Numbered.setReader (h : s.Numbered) {i : Nat} {reader' : Option Reader} (hi : i < s.reads)
    (hr : ∀ reader ∈ reader', reader.receiver ∈ s.installed) : (s.setReader i reader').Numbered := by
  refine h.same rfl le_rfl rfl rfl h.workspace fun j reader hj => ?_
  replace hj : update s.readers i reader' j = some reader := hj
  rcases of_update hj with ⟨hsame, hj⟩ | ⟨-, hj⟩
  · exact ⟨hsame ▸ hi, hr reader hj⟩
  · exact h.readers j reader hj

theorem Numbered.next (h : s.Numbered) (ok : Bool) : (s.nextMessage ok).Numbered := by
  unfold nextMessage
  split
  · exact h
  · rename_i w hw
    obtain ⟨hmine, hstream⟩ := h.workspace w hw
    split
    · rename_i m pending _
      have hpop : ({ s with workspace := some { w with pending := pending } } : Client).Numbered := by
        refine h.same rfl le_rfl rfl rfl (fun w' hw' => ?_) h.readers
        obtain rfl := Option.some.inj hw'
        exact ⟨hmine, hstream⟩
      exact hpop.answer m ok
    · split
      · rename_i r hr
        refine h.same rfl le_rfl rfl rfl (fun w' hw' => ?_) fun j reader hj => ?_
        · obtain rfl := Option.some.inj hw'
          exact ⟨hmine, nofun⟩
        · replace hj : update s.readers s.reads (some ⟨r, none⟩) j = some reader := hj
          rcases of_update_some hj with ⟨hsame, rfl⟩ | ⟨-, hj⟩
          · exact ⟨hsame ▸ Nat.lt_succ_self _, hstream r hr⟩
          · exact ⟨Nat.lt_succ_of_lt (h.readers j reader hj).1, (h.readers j reader hj).2⟩
      · exact h

theorem Numbered.closeFrom (h : s.Numbered) {i : Nat} (hi : i < s.begun) (restart : Bool) : (s.closeFrom i restart).Numbered := by
  have hset := h.setCall (some (.closing restart)) hi (by
    rintro call hcall c hc
    obtain rfl := Option.some.inj hcall
    exact nomatch hc)
  exact hset.keep rfl rfl rfl rfl rfl rfl rfl

theorem numbered_step (h : s.Numbered) (act : Act) : (s.step act).Numbered := by
  have hbegin : ({ s with begun := s.begun + 1 } : Client).Numbered :=
    h.same rfl (Nat.le_succ _) rfl rfl h.workspace h.readers
  have hinit : ∀ restart, (s.initInner restart).Numbered := by
    intro restart
    unfold initInner
    dsimp only
    split_ifs
    · exact hbegin
    · exact hbegin.closeFrom (Nat.lt_succ_self _) true
    · exact hbegin.connectFrom (Nat.lt_succ_self _)
  cases act with
  | init => exact hinit false
  | restart => exact hinit true
  | close => exact hbegin.closeFrom (Nat.lt_succ_self _) false
  | lock i =>
    simp only [step]
    split
    · rename_i restart hi
      have hlt := h.begun i _ hi
      unfold closeLocked
      split
      · have hdrop : ∀ discarded, ({ s with workspace := none, discarded := discarded } : Client).Numbered := fun _ =>
          h.same rfl le_rfl rfl rfl nofun h.readers
        dsimp only
        split_ifs
        · exact (hdrop _).connectFrom hlt
        · exact (hdrop _).setCall none hlt nofun
      · exact h.setCall none hlt nofun
    · rename_i c generation hi
      exact h.installLocked hi
    · exact h
  | connect i ok =>
    simp only [step]
    split
    · rename_i c generation hi
      have hlt := h.begun i _ hi
      split_ifs
      · have hset := h.setCall (some (.installing c generation)) hlt (by
          rintro call hcall c' hc'
          obtain rfl := Option.some.inj hcall
          exact ⟨_, hi, hc'⟩)
        exact hset.keep rfl rfl rfl rfl rfl rfl rfl
      · exact h.setCall none hlt nofun
    · exact h
  | socketDies c =>
    simp only [step]
    split
    · exact h.keep rfl rfl rfl rfl rfl rfl rfl
    · exact h
  | shutdown c =>
    simp only [step]
    split
    · split_ifs
      · exact h.keep rfl rfl rfl rfl rfl rfl rfl
      · exact h
    · exact h
  | arrive c => exact h.keep rfl rfl rfl rfl rfl rfl rfl
  | hangUp c => exact h.keep rfl rfl rfl rfl rfl rfl rfl
  | next ok => exact h.next ok
  | receive i =>
    simp only [step]
    split
    · rename_i r hi
      obtain ⟨hlt, hr⟩ := h.readers i _ hi
      have hset : ∀ got, (s.setReader i (some ⟨r, got⟩)).Numbered := by
        refine fun got => h.setReader hlt fun reader hreader => ?_
        obtain rfl := Option.some.inj hreader
        exact hr
      split
      · exact (hset _).keep rfl rfl rfl rfl rfl rfl rfl
      · split_ifs
        · exact hset _
        · exact h
    · exact h
  | giveBack i ok =>
    simp only [step]
    split
    · rename_i r m hi
      obtain ⟨hlt, hr⟩ := h.readers i _ hi
      exact ((h.setReader hlt (by simp)).restore hr).answer m ok
    · rename_i r hi
      obtain ⟨hlt, hr⟩ := h.readers i _ hi
      exact (h.setReader hlt (by simp)).restore hr
    · exact h

theorem numbered_new : new.Numbered := by
  refine ⟨?_, ?_, ?_, ?_, ?_, ?_⟩
  all_goals simp [new]

end Client

end CitadelAgent.WasmClient
