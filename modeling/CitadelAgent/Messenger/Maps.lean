import CitadelAgent.Lib.SortedMap
import CitadelAgent.Messenger.Wire

/-!
# An account's message maps

`messenger/backend.rs` and `messenger/backend_map.rs` with `kernel/ilm/backlog.rs`: the inbound and the outbound queue of
an account are one stored map each, which every operation reads whole and writes whole. An operation is a task that stops
at each request to LocalDB; those that change a map hold the gate of the account's backend from their read to their
write, those that only read it hold none, and write an empty map where they find none.

* `Op`, `Pc`, `Account.run` : the operations, where a task stands, and one step of a task;
* `Account.Ok` : who is between its read and its write, and that what it is about to write is still right;
* `stored_is_pending` : a stored message that nothing clears is pending, as long as no read without the gate writes its
  empty map over messages.
-/

namespace CitadelAgent.Messenger
open Function

inductive Box
  | outbound
  | inbound
  deriving DecidableEq

/-- `HashMap<peer_cid, HashMap<message_id, wrapped_message>>`. -/
abbrev State := SortedMap Nat (SortedMap Nat WrappedMessage)

namespace State

def at_ (state : State) (peer id : Nat) : Option WrappedMessage := (state.get peer).bind (·.get id)

def insert (peer id : Nat) (message : WrappedMessage) (state : State) : State :=
  SortedMap.insert state peer (((state.get peer).getD .empty).insert id message)

def remove (peer : Nat) (ids : List Nat) (state : State) : State :=
  match state.get peer with
  | none => state
  | some messages => SortedMap.insert state peer (ids.foldl SortedMap.erase messages)

def messages (state : State) : List WrappedMessage := state.entries.flatMap fun e => e.2.entries.map Prod.snd

end State

inductive Op
  | store (box : Box) (message : WrappedMessage)
  | clear (box : Box) (peer : Nat) (ids : List Nat)
  | pending (box : Box)
  /-- `pending_by_peer`, which has a backend of its own. -/
  | backlog

/-- The peer a message is kept under. -/
def peerOf (message : WrappedMessage) : Box → Nat
  | .outbound => message.destinationId
  | .inbound => message.sourceId

namespace Op

def box : Op → Box
  | store box _ => box
  | clear box _ _ => box
  | pending box => box
  | backlog => .outbound

/-- `mutate` takes the gate. -/
def mutates : Op → Bool
  | store _ _ => true
  | clear _ _ _ => true
  | _ => false

def change : Op → State → State
  | store box message => State.insert (peerOf message box) message.messageId message
  | clear _ peer ids => State.remove peer ids
  | _ => id

end Op

inductive Pc
  | gate
  | reading
  | initializing
  | writing (state : State)
  | returned (result : Option (List WrappedMessage))

structure Task where
  op : Op
  pc : Pc

inductive Reply
  | done
  | refused
  | unanswered
  /-- An error after which `get_pending_*` waits and reads again. -/
  | notConnected

structure Account where
  maps : Box → Option State
  gates : Box → Option Nat
  next : Nat
  tasks : Nat → Option Task

namespace Account

def content (s : Account) (box : Box) : State := (s.maps box).getD .empty

def setPc (i : Nat) (task : Task) (pc : Pc) (s : Account) : Account :=
  { s with tasks := update s.tasks i (some { task with pc }) }

def finish (i : Nat) (task : Task) (result : Option (List WrappedMessage)) (s : Account) : Account :=
  let s := s.setPc i task (.returned result)
  if task.op.mutates = true then { s with gates := update s.gates task.op.box none } else s

def writeMap (box : Box) (state : State) (s : Account) : Account := { s with maps := update s.maps box (some state) }

/-- `get_map` has the map. -/
def gotMap (i : Nat) (task : Task) (state : State) (s : Account) : Account :=
  if task.op.mutates = true then s.setPc i task (.writing (task.op.change state))
  else s.finish i task (some state.messages)

def spawn (op : Op) (s : Account) : Account :=
  let pc := match op with
    | .clear _ _ [] => .returned (some [])
    | _ => if op.mutates = true then .gate else .reading
  { s with next := s.next + 1, tasks := update s.tasks s.next (some ⟨op, pc⟩) }

def run (i : Nat) (reply : Reply) (s : Account) : Account :=
  match s.tasks i with
  | none => s
  | some task =>
      match task.pc with
      | .gate =>
          if s.gates task.op.box = none then
            { s.setPc i task .reading with gates := update s.gates task.op.box (some i) }
          else s
      | .reading =>
          match reply with
          | .done =>
              match s.maps task.op.box with
              | some state => s.gotMap i task state
              | none => s.setPc i task .initializing
          | .notConnected => if task.op.mutates = true then s.finish i task none else s
          | _ => s.finish i task none
      | .initializing =>
          match reply with
          | .done => (s.writeMap task.op.box .empty).gotMap i task .empty
          | .unanswered => (s.writeMap task.op.box .empty).finish i task none
          | .notConnected => if task.op.mutates = true then s.finish i task none else s.setPc i task .reading
          | .refused => s.finish i task none
      | .writing state =>
          match reply with
          | .done => (s.writeMap task.op.box state).finish i task (some [])
          | .unanswered => (s.writeMap task.op.box state).finish i task none
          | _ => s.finish i task none
      | .returned _ => s

end Account

inductive Act
  | spawn (op : Op)
  | run (i : Nat) (reply : Reply)

def Account.step (s : Account) : Act → Account
  | .spawn op => s.spawn op
  | .run i reply => s.run i reply

/-- The states of an account's maps, from any, by steps that meet `condition` before they are taken. -/
inductive AccountRun (condition : Account → Act → Prop) : Account → Prop
  | start (maps : Box → Option State) : AccountRun condition ⟨maps, fun _ => none, 0, fun _ => none⟩
  | step {s : Account} (act : Act) : AccountRun condition s → condition s act → AccountRun condition (s.step act)

/-- No read without the gate, having found no map, writes its empty one over messages. -/
def Account.NoLateInit (s : Account) : Act → Prop
  | .run i reply => ∀ op, s.tasks i = some ⟨op, .initializing⟩ → op.mutates = false →
      reply = .done ∨ reply = .unanswered → ∀ peer id, (s.content op.box).at_ peer id = none
  | _ => True

/-! ## Looking a message up -/

namespace State

def changed (op : Op) (look : Nat → Nat → Option WrappedMessage) (peer id : Nat) : Option WrappedMessage :=
  match op with
  | .store box message => if peer = peerOf message box ∧ id = message.messageId then some message else look peer id
  | .clear _ peer' ids => if peer = peer' ∧ id ∈ ids then none else look peer id
  | _ => look peer id

theorem at_empty (peer id : Nat) : at_ .empty peer id = none := rfl

theorem at_insert (state : State) (peer id : Nat) (message : WrappedMessage) (peer' id' : Nat) :
    (state.insert peer id message).at_ peer' id' =
      if peer' = peer ∧ id' = id then some message else state.at_ peer' id' := by
  unfold at_ insert
  rw [SortedMap.get_insert]
  by_cases hpeer : peer' = peer
  · subst hpeer
    by_cases hid : id' = id
    · simp [hid, SortedMap.get_insert]
    · cases hget : state.get peer' with
      | none =>
          have hempty : (SortedMap.empty : SortedMap Nat WrappedMessage).get id' = none := rfl
          simp [hid, SortedMap.get_insert, hempty]
      | some messages => simp [hid, SortedMap.get_insert]
  · simp [hpeer]

theorem get_foldl_erase (ids : List Nat) (messages : SortedMap Nat WrappedMessage) (id : Nat) :
    (ids.foldl SortedMap.erase messages).get id = if id ∈ ids then none else messages.get id := by
  induction ids generalizing messages with
  | nil => simp
  | cons i ids ih =>
      rw [List.foldl_cons, ih, SortedMap.get_erase]
      by_cases hid : id = i
      · simp [hid]
      · simp [hid]

theorem at_remove (state : State) (peer : Nat) (ids : List Nat) (peer' id : Nat) :
    (state.remove peer ids).at_ peer' id = if peer' = peer ∧ id ∈ ids then none else state.at_ peer' id := by
  unfold at_ remove
  cases hget : state.get peer with
  | none =>
      by_cases hpeer : peer' = peer
      · subst hpeer
        simp [hget]
      · simp [hpeer]
  | some messages =>
      simp only [SortedMap.get_insert]
      by_cases hpeer : peer' = peer
      · subst hpeer
        simp [hget, get_foldl_erase]
      · simp [hpeer]

theorem at_change (op : Op) (state : State) (peer id : Nat) :
    (op.change state).at_ peer id = changed op state.at_ peer id := by
  cases op with
  | store box message => exact at_insert ..
  | clear box peer' ids => exact at_remove ..
  | pending box => rfl
  | backlog => rfl

theorem changed_congr (op : Op) {look look' : Nat → Nat → Option WrappedMessage}
    (h : ∀ peer id, look peer id = look' peer id) (peer id : Nat) : changed op look peer id = changed op look' peer id := by
  rw [show look = look' from funext fun p => funext fun d => h p d]

theorem mem_messages {state : State} {peer id : Nat} {message : WrappedMessage} (h : state.at_ peer id = some message) :
    message ∈ state.messages := by
  obtain ⟨inner, hinner, hget⟩ := Option.bind_eq_some_iff.mp h
  refine List.mem_flatMap.mpr ⟨(peer, inner), SortedMap.get_eq_some.mp hinner, ?_⟩
  exact List.mem_map.mpr ⟨(id, message), SortedMap.get_eq_some.mp hget, rfl⟩

end State

/-! ## The gate -/

def Pc.inside : Pc → Bool
  | .reading => true
  | .initializing => true
  | .writing _ => true
  | _ => false

variable {maps : Box → Option State}

namespace Account

/-- A clear that names the message has been asked for. -/
def Cleared (s : Account) (box : Box) (peer id : Nat) : Prop :=
  ∃ i ids pc, s.tasks i = some ⟨.clear box peer ids, pc⟩ ∧ id ∈ ids

def Given (s : Account) (box : Box) (message : WrappedMessage) : Prop :=
  ∃ i pc, s.tasks i = some ⟨.store box message, pc⟩

def Kept (s : Account) : Prop :=
  ∀ i box message, s.tasks i = some ⟨.store box message, .returned (some [])⟩ →
    ¬ s.Cleared box (peerOf message box) message.messageId →
    ∃ there, (s.content box).at_ (peerOf message box) message.messageId = some there ∧ s.Given box there ∧
      peerOf there box = peerOf message box ∧ there.messageId = message.messageId

structure Ok (s : Account) : Prop where
  fresh : ∀ i, s.next ≤ i → s.tasks i = none
  held : ∀ box i, s.gates box = some i → i < s.next
  inside : ∀ i op pc, s.tasks i = some ⟨op, pc⟩ → op.mutates = true → (pc.inside = true ↔ s.gates op.box = some i)
  reader : ∀ i op pc, s.tasks i = some ⟨op, pc⟩ → op.mutates = false → pc ≠ .gate ∧ ∀ state, pc ≠ .writing state
  absent : ∀ i op, s.tasks i = some ⟨op, .initializing⟩ → op.mutates = true →
    ∀ peer id, (s.content op.box).at_ peer id = none
  planned : ∀ i op state, s.tasks i = some ⟨op, .writing state⟩ →
    ∀ peer id, state.at_ peer id = State.changed op (s.content op.box).at_ peer id
  kept : s.Kept

variable {s s' : Account} {i : Nat} {op : Op} {pc pc' : Pc}

theorem Ok.moved (h : s.Ok) (hi : s.tasks i = some ⟨op, pc⟩) (htasks : s'.tasks = update s.tasks i (some ⟨op, pc'⟩))
    (hnext : s'.next = s.next) (hgates : ∀ box j, j ≠ i → (s'.gates box = some j ↔ s.gates box = some j))
    (hinside : op.mutates = true → (pc'.inside = true ↔ s'.gates op.box = some i))
    (hreader : op.mutates = false → pc' ≠ .gate ∧ ∀ state, pc' ≠ .writing state)
    (hview : ∀ j ≠ i, ∀ op' pc'', s.tasks j = some ⟨op', pc''⟩ → op'.mutates = true → pc''.inside = true →
      ∀ peer id, (s'.content op'.box).at_ peer id = (s.content op'.box).at_ peer id)
    (habsent : pc' = .initializing → op.mutates = true → ∀ peer id, (s'.content op.box).at_ peer id = none)
    (hplanned : ∀ state, pc' = .writing state →
      ∀ peer id, state.at_ peer id = State.changed op (s'.content op.box).at_ peer id)
    (hkept : s'.Kept) : s'.Ok := by
  have hother : ∀ j ≠ i, s'.tasks j = s.tasks j := fun j hj => by rw [htasks, update_of_ne hj]
  have hself : s'.tasks i = some ⟨op, pc'⟩ := by rw [htasks, update_self]
  have hlt : i < s.next := by
    by_contra hnot
    simp [h.fresh i (by omega)] at hi
  refine ⟨fun j hj => ?_, fun box j hj => ?_, fun j op' pc'' ht hm => ?_, fun j op' pc'' ht hm => ?_,
    fun j op' ht hm => ?_, fun j op' state ht => ?_, hkept⟩
  · rw [hnext] at hj
    rw [hother j (by omega)]
    exact h.fresh j hj
  · rw [hnext]
    by_cases hji : j = i
    · exact hji ▸ hlt
    · exact h.held box j ((hgates box j hji).mp hj)
  · by_cases hj : j = i
    · subst hj
      obtain ⟨rfl, rfl⟩ := Task.mk.inj (Option.mem_unique hself ht)
      exact hinside hm
    · rw [hother j hj] at ht
      rw [hgates _ j hj]
      exact h.inside j op' pc'' ht hm
  · by_cases hj : j = i
    · subst hj
      obtain ⟨rfl, rfl⟩ := Task.mk.inj (Option.mem_unique hself ht)
      exact hreader hm
    · exact h.reader j op' pc'' (hother j hj ▸ ht) hm
  · by_cases hj : j = i
    · subst hj
      obtain ⟨rfl, rfl⟩ := Task.mk.inj (Option.mem_unique hself ht)
      exact habsent rfl hm
    · rw [hother j hj] at ht
      intro peer id
      rw [hview j hj op' _ ht hm rfl]
      exact h.absent j op' ht hm peer id
  · by_cases hj : j = i
    · subst hj
      obtain ⟨rfl, rfl⟩ := Task.mk.inj (Option.mem_unique hself ht)
      exact hplanned state rfl
    · rw [hother j hj] at ht
      have hm : op'.mutates = true := by
        by_contra hnot
        exact (h.reader j op' _ ht (by simpa using hnot)).2 state rfl
      intro peer id
      rw [h.planned j op' state ht peer id]
      exact (State.changed_congr op' (hview j hj op' _ ht hm rfl) peer id).symm

theorem given_moved (hi : s.tasks i = some ⟨op, pc⟩) (htasks : s'.tasks = update s.tasks i (some ⟨op, pc'⟩)) {box : Box}
    {message : WrappedMessage} (h : s.Given box message) : s'.Given box message := by
  obtain ⟨j, pc'', hj⟩ := h
  by_cases hji : j = i
  · subst hji
    obtain ⟨rfl, rfl⟩ := Task.mk.inj (Option.mem_unique hi hj)
    exact ⟨j, pc', by rw [htasks, update_self]⟩
  · exact ⟨j, pc'', by rw [htasks, update_of_ne hji, hj]⟩

theorem cleared_moved (hi : s.tasks i = some ⟨op, pc⟩) (htasks : s'.tasks = update s.tasks i (some ⟨op, pc'⟩)) {box : Box}
    {peer id : Nat} (h : s.Cleared box peer id) : s'.Cleared box peer id := by
  obtain ⟨j, ids, pc'', hj, hid⟩ := h
  by_cases hji : j = i
  · subst hji
    obtain ⟨rfl, rfl⟩ := Task.mk.inj (Option.mem_unique hi hj)
    exact ⟨j, ids, pc', by rw [htasks, update_self], hid⟩
  · exact ⟨j, ids, pc'', by rw [htasks, update_of_ne hji, hj], hid⟩

theorem Ok.kept_same (h : s.Ok) (hi : s.tasks i = some ⟨op, pc⟩) (htasks : s'.tasks = update s.tasks i (some ⟨op, pc'⟩))
    (hsame : ∀ box peer id, (s'.content box).at_ peer id = (s.content box).at_ peer id)
    (hnot : op.mutates = true → pc' ≠ .returned (some [])) : s'.Kept := by
  intro j box message hj hclear
  have hne : j ≠ i := by
    rintro rfl
    rw [htasks, update_self] at hj
    obtain ⟨rfl, rfl⟩ := Task.mk.inj (Option.some.inj hj)
    exact hnot rfl rfl
  rw [htasks, update_of_ne hne] at hj
  obtain ⟨there, hat, hgiven, hkey⟩ := h.kept j box message hj fun hc => hclear (cleared_moved hi htasks hc)
  exact ⟨there, by rw [hsame, hat], given_moved hi htasks hgiven, hkey⟩

theorem content_writeMap (s : Account) (box : Box) (state : State) (b : Box) :
    (s.writeMap box state).content b = if b = box then state else s.content b := by
  by_cases hb : b = box <;> simp [content, writeMap, hb]

theorem finish_rest (i : Nat) (task : Task) (result : Option (List WrappedMessage)) (s : Account) :
    (∀ box, (finish i task result s).content box = s.content box) ∧
      (finish i task result s).tasks = update s.tasks i (some ⟨task.op, .returned result⟩) ∧ (finish i task result s).next = s.next := by
  unfold finish
  split
  · exact ⟨fun _ => rfl, rfl, rfl⟩
  · exact ⟨fun _ => rfl, rfl, rfl⟩

theorem Ok.ended (h : s.Ok) (hi : s.tasks i = some ⟨op, pc⟩) (hinside : op.mutates = true → pc.inside = true)
    {result : Option (List WrappedMessage)}
    (hview : ∀ j ≠ i, ∀ op' pc'', s.tasks j = some ⟨op', pc''⟩ → op'.mutates = true → pc''.inside = true → ∀ peer id, (content { s with maps } op'.box).at_ peer id = (s.content op'.box).at_ peer id)
    (hkept : (finish i ⟨op, pc⟩ result { s with maps }).Kept) : (finish i ⟨op, pc⟩ result { s with maps }).Ok := by
  obtain ⟨hcontent, htasks, hnext⟩ := finish_rest i ⟨op, pc⟩ result { s with maps }
  refine h.moved hi htasks hnext (fun box j hj => ?_) (fun hm => ?_) (fun _ => ⟨by simp, by simp⟩)
    (fun j hj op' pc'' ht hm hin peer id => ?_) (nofun) (fun state hpc => (nomatch hpc)) hkept
  · by_cases hm : op.mutates = true
    · have hgate := (h.inside i op pc hi hm).mp (hinside hm)
      simp only [finish, setPc, hm, if_true]
      by_cases hb : box = op.box
      · subst hb
        simp [hgate, hj.symm]
      · rw [update_of_ne hb]
    · simp [finish, setPc, hm]
  · simp [finish, setPc, hm, Pc.inside]
  · rw [hcontent]
    exact hview j hj op' pc'' ht hm hin peer id

theorem Ok.goes (h : s.Ok) (hi : s.tasks i = some ⟨op, pc⟩) (hinside : op.mutates = true → pc.inside = true)
    (hinside' : op.mutates = true → pc'.inside = true)
    (hreader : op.mutates = false → pc' ≠ .gate ∧ ∀ state, pc' ≠ .writing state)
    (hsame : ∀ box peer id, (content { s with maps } box).at_ peer id = (s.content box).at_ peer id)
    (habsent : pc' = .initializing → op.mutates = true → ∀ peer id, (s.content op.box).at_ peer id = none)
    (hplanned : ∀ state, pc' = .writing state → ∀ peer id, state.at_ peer id = State.changed op (s.content op.box).at_ peer id) :
    (setPc i ⟨op, pc⟩ pc' { s with maps }).Ok := by
  have hcontent : ∀ box peer id, ((setPc i ⟨op, pc⟩ pc' { s with maps }).content box).at_ peer id =
      (s.content box).at_ peer id := hsame
  refine h.moved hi rfl rfl (fun _ _ _ => Iff.rfl) (fun hm => ?_) hreader (fun _ _ op' _ _ _ _ => hcontent op'.box)
    (fun hpc hm peer id => ?_) (fun state hpc peer id => ?_) (h.kept_same hi rfl hcontent fun hm => ?_)
  · exact ⟨fun _ => (h.inside i op pc hi hm).mp (hinside hm), fun _ => hinside' hm⟩
  · rw [hcontent]
    exact habsent hpc hm peer id
  · rw [hplanned state hpc]
    exact (State.changed_congr op (hcontent op.box) peer id).symm
  · rintro rfl
    exact absurd (hinside' hm) (by simp [Pc.inside])

theorem Ok.fails (h : s.Ok) (hi : s.tasks i = some ⟨op, pc⟩) (hinside : op.mutates = true → pc.inside = true)
    (hsame : ∀ box peer id, (content { s with maps } box).at_ peer id = (s.content box).at_ peer id)
    {result : Option (List WrappedMessage)} (hresult : op.mutates = true → result = none) :
    (finish i ⟨op, pc⟩ result { s with maps }).Ok := by
  obtain ⟨hcontent, htasks, -⟩ := finish_rest i ⟨op, pc⟩ result { s with maps }
  refine h.ended hi hinside (fun _ _ op' _ _ _ _ => hsame op'.box) (h.kept_same hi htasks (fun box peer id => ?_) ?_)
  · rw [hcontent]
    exact hsame box peer id
  · intro hm hpc
    rw [hresult hm] at hpc
    cases hpc

theorem Ok.written (h : s.Ok) {state : State} (hi : s.tasks i = some ⟨op, .writing state⟩)
    (result : Option (List WrappedMessage)) :
    (finish i ⟨op, .writing state⟩ result (s.writeMap op.box state)).Ok := by
  have hm : op.mutates = true := by
    by_contra hnot
    exact (h.reader i op _ hi (by simpa using hnot)).2 state rfl
  have hgate := (h.inside i op _ hi hm).mp rfl
  have hcontent : ∀ box, (finish i ⟨op, .writing state⟩ result (s.writeMap op.box state)).content box =
      if box = op.box then state else s.content box := by
    intro box
    rw [← content_writeMap]
    exact (finish_rest ..).1 box
  have htasks : (finish i ⟨op, .writing state⟩ result (s.writeMap op.box state)).tasks =
      update s.tasks i (some ⟨op, .returned result⟩) := (finish_rest ..).2.1
  have hkept : (finish i ⟨op, .writing state⟩ result (s.writeMap op.box state)).Kept := by
    intro j box message hj hclear
    by_cases hbox : box = op.box
    · subst hbox
      rw [hcontent, if_pos rfl, h.planned i op state hi]
      by_cases hji : j = i
      · subst hji
        rw [htasks, update_self] at hj
        obtain ⟨hop, -⟩ := Task.mk.inj (Option.some.inj hj)
        obtain ⟨box', message', rfl⟩ : ∃ box' message', op = .store box' message' := ⟨_, _, hop⟩
        obtain rfl := (Op.store.inj hop).2
        exact ⟨message', by simp [State.changed, Op.box], given_moved hi htasks ⟨j, _, hi⟩, rfl, rfl⟩
      · rw [htasks, update_of_ne hji] at hj
        obtain ⟨there, hat, hgiven, hkey⟩ := h.kept j _ message hj fun hc => hclear (cleared_moved hi htasks hc)
        cases op with
        | store box' message' =>
            by_cases hsame : peerOf message box' = peerOf message' box' ∧ message.messageId = message'.messageId
            · exact ⟨message', by simp [State.changed, Op.box, hsame], given_moved hi htasks ⟨i, _, hi⟩, hsame.1.symm,
                hsame.2.symm⟩
            · refine ⟨there, ?_, given_moved hi htasks hgiven, hkey⟩
              simpa [State.changed, Op.box, hsame] using hat
        | clear box' peer' ids =>
            have hnamed : ¬ (peerOf message box' = peer' ∧ message.messageId ∈ ids) := by
              rintro ⟨rfl, hid⟩
              exact hclear (cleared_moved hi htasks ⟨i, ids, _, hi, hid⟩)
            refine ⟨there, ?_, given_moved hi htasks hgiven, hkey⟩
            simpa [State.changed, Op.box, hnamed] using hat
        | pending box' => simp [Op.mutates] at hm
        | backlog => simp [Op.mutates] at hm
    · rw [hcontent, if_neg hbox]
      have hji : j ≠ i := by
        rintro rfl
        rw [htasks, update_self] at hj
        obtain ⟨rfl, -⟩ := Task.mk.inj (Option.some.inj hj)
        exact hbox rfl
      rw [htasks, update_of_ne hji] at hj
      obtain ⟨there, hat, hgiven, hkey⟩ := h.kept j box message hj fun hc => hclear (cleared_moved hi htasks hc)
      exact ⟨there, hat, given_moved hi htasks hgiven, hkey⟩
  refine h.ended hi (fun _ => rfl) (fun j hj op' pc'' ht hm' hin peer id => ?_) hkept
  -- another task with a gate has the other one
  have hbox : op'.box ≠ op.box := by
    intro heq
    have hgate' := (h.inside j op' pc'' ht hm').mp hin
    rw [heq, hgate] at hgate'
    exact hj (Option.some.inj hgate').symm
  have := content_writeMap s op.box state op'.box
  rw [if_neg hbox] at this
  exact congrArg (fun st => State.at_ st peer id) this

theorem same_of_empty (box : Box) (hnone : ∀ peer id, (s.content box).at_ peer id = none) :
    ∀ b peer id, ((s.writeMap box .empty).content b).at_ peer id = (s.content b).at_ peer id := by
  intro b peer id
  rw [content_writeMap]
  by_cases hb : b = box
  · subst hb
    rw [if_pos rfl, hnone]
    rfl
  · rw [if_neg hb]

theorem Ok.run (h : s.Ok) {reply : Reply} (hlate : s.NoLateInit (.run i reply)) : (s.run i reply).Ok := by
  unfold Account.run
  split
  · exact h
  rename_i task hi
  obtain ⟨op, pc⟩ := task
  have hwait : pc = .gate → op.mutates = true := by
    rintro rfl
    by_contra hnot
    exact (h.reader i op _ hi (by simpa using hnot)).1 rfl
  cases pc with
  | gate =>
      simp only
      split
      · rename_i hfree
        refine h.moved hi rfl rfl (fun box j hj => ?_) (fun _ => ?_) (fun hnot => ?_) (fun _ _ _ _ _ _ _ _ _ => rfl)
          (nofun) (fun state hpc => (nomatch hpc)) (h.kept_same hi rfl (fun _ _ _ => rfl) fun _ => by simp)
        · by_cases hb : box = op.box
          · subst hb
            simp [hfree, hj.symm]
          · simp [hb]
        · simp [Pc.inside]
        · simp [hwait rfl] at hnot
      · exact h
  | reading =>
      have hsame : ∀ box peer id, (content { s with maps := s.maps } box).at_ peer id = (s.content box).at_ peer id :=
        fun _ _ _ => rfl
      have hfails : (finish i ⟨op, .reading⟩ none s).Ok := h.fails hi (fun _ => rfl) hsame fun _ => rfl
      cases reply with
      | done =>
          simp only
          split
          · rename_i state hmap
            have hcontent : s.content op.box = state := by simp [content, hmap]
            unfold gotMap
            split
            · rename_i hm
              refine h.goes hi (fun _ => rfl) (fun _ => rfl) (fun hnot => by simp [hm] at hnot) hsame
                (nofun) fun state' hpc peer id => ?_
              obtain rfl := Pc.writing.inj hpc
              rw [hcontent]
              exact State.at_change op state peer id
            · rename_i hm
              exact h.fails hi (fun _ => rfl) hsame fun hm' => absurd hm' hm
          · rename_i hmap
            refine h.goes hi (fun _ => rfl) (fun _ => rfl) (fun _ => ⟨by simp, by simp⟩) hsame (fun _ _ peer id => ?_)
              fun state hpc => (nomatch hpc)
            simp [content, hmap, State.at_empty]
      | refused => exact hfails
      | unanswered => exact hfails
      | notConnected =>
          simp only
          split
          · exact hfails
          · exact h
  | initializing =>
      have hsame : ∀ box peer id, (content { s with maps := s.maps } box).at_ peer id = (s.content box).at_ peer id :=
        fun _ _ _ => rfl
      -- with the gate nothing came in between; without it, that is what is assumed
      have hempty : reply = .done ∨ reply = .unanswered →
          ∀ box peer id, ((s.writeMap op.box .empty).content box).at_ peer id = (s.content box).at_ peer id := by
        intro hreply
        apply same_of_empty
        by_cases hm : op.mutates = true
        · exact h.absent i op hi hm
        · exact hlate op hi (by simpa using hm) hreply
      cases reply with
      | done =>
          have hwritten := hempty (.inl rfl)
          simp only [gotMap]
          split
          · rename_i hm
            refine h.goes hi (fun _ => rfl) (fun _ => rfl) (fun hnot => by simp [hm] at hnot) hwritten
              (nofun) fun state' hpc peer id => ?_
            obtain rfl := Pc.writing.inj hpc
            rw [State.at_change]
            refine State.changed_congr op (fun peer id => ?_) peer id
            rw [h.absent i op hi hm]
            rfl
          · rename_i hm
            exact h.fails hi (fun _ => rfl) hwritten fun hm' => absurd hm' hm
      | unanswered => exact h.fails hi (fun _ => rfl) (hempty (.inr rfl)) fun _ => rfl
      | notConnected =>
          simp only
          split
          · exact h.fails hi (fun _ => rfl) hsame fun _ => rfl
          · rename_i hm
            refine h.goes hi (fun _ => rfl) (fun _ => rfl) (fun _ => ⟨by simp, by simp⟩) hsame (nofun)
              fun state hpc => (nomatch hpc)
      | refused => exact h.fails hi (fun _ => rfl) hsame fun _ => rfl
  | writing state =>
      have hfails : (finish i ⟨op, .writing state⟩ none s).Ok := h.fails hi (fun _ => rfl) (fun _ _ _ => rfl) fun _ => rfl
      cases reply with
      | done => exact h.written hi _
      | unanswered => exact h.written hi _
      | refused => exact hfails
      | notConnected => exact hfails
  | returned result => exact h

theorem Ok.spawn (h : s.Ok) (op : Op) : (s.spawn op).Ok := by
  obtain ⟨pc, hpc, hin, hreader, hstore⟩ : ∃ pc : Pc, (s.spawn op).tasks = update s.tasks s.next (some ⟨op, pc⟩) ∧
      (op.mutates = true → pc.inside = false) ∧
      (op.mutates = false → pc = .reading) ∧ ∀ box message, op = .store box message → pc = .gate := by
    refine ⟨_, rfl, fun hm => ?_, fun hm => ?_, ?_⟩
    · split
      · rfl
      · simp [hm, Pc.inside]
    · split
      · simp [Op.mutates] at hm
      · simp [hm]
    · rintro box message rfl
      rfl
  have hnew : s.tasks s.next = none := h.fresh _ le_rfl
  have hother : ∀ j task, s.tasks j = some task → (s.spawn op).tasks j = some task := by
    intro j task hj
    have hne : j ≠ s.next := by
      rintro rfl
      simp [hnew] at hj
    rw [hpc, update_of_ne hne, hj]
  have hcases : ∀ j op' pc', (s.spawn op).tasks j = some ⟨op', pc'⟩ →
      s.tasks j = some ⟨op', pc'⟩ ∨ j = s.next ∧ op' = op ∧ pc' = pc := by
    intro j op' pc' hj
    by_cases hji : j = s.next
    · subst hji
      rw [hpc, update_self] at hj
      obtain ⟨rfl, rfl⟩ := Task.mk.inj (Option.some.inj hj)
      exact .inr ⟨rfl, rfl, rfl⟩
    · rw [hpc, update_of_ne hji] at hj
      exact .inl hj
  -- the gates are held by tasks that were there
  have hgate : ∀ box, s.gates box ≠ some s.next := fun box hg => Nat.lt_irrefl _ (h.held box _ hg)
  refine ⟨fun j hj => ?_, fun box j hj => Nat.lt_succ_of_lt (h.held box j hj), fun j op' pc' hj hm => ?_, fun j op' pc' hj hm => ?_, fun j op' hj hm => ?_,
    fun j op' state hj => ?_, fun j box message hj hclear => ?_⟩
  · have hj' : s.next + 1 ≤ j := hj
    rw [hpc, update_of_ne (by omega)]
    exact h.fresh j (by omega)
  · rcases hcases j op' pc' hj with hj | ⟨rfl, rfl, rfl⟩
    · exact h.inside j op' pc' hj hm
    · simp only [hin hm, Bool.false_eq_true, false_iff]
      exact hgate _
  · rcases hcases j op' pc' hj with hj | ⟨rfl, rfl, rfl⟩
    · exact h.reader j op' pc' hj hm
    · simp [hreader hm]
  · rcases hcases j op' _ hj with hj | ⟨rfl, rfl, rfl⟩
    · exact h.absent j op' hj hm
    · simp [Pc.inside] at hin
      simp [hin] at hm
  · rcases hcases j op' _ hj with hj | ⟨rfl, rfl, rfl⟩
    · exact h.planned j op' state hj
    · by_cases hm : op'.mutates = true
      · simp [hm, Pc.inside] at hin
      · simp [hm] at hreader
  · rcases hcases j _ _ hj with hj | ⟨rfl, rfl, rfl⟩
    · obtain ⟨there, hat, ⟨j', pc', hgiven⟩, hkey⟩ := h.kept j box message hj fun ⟨j', ids, pc', hj', hid⟩ =>
        hclear ⟨j', ids, pc', hother j' _ hj', hid⟩
      exact ⟨there, hat, ⟨j', pc', hother j' _ hgiven⟩, hkey⟩
    · cases hstore box message rfl

end Account

theorem AccountRun.ok {s : Account} (h : AccountRun Account.NoLateInit s) : s.Ok := by
  induction h with
  | start maps =>
      refine ⟨fun _ _ => rfl, fun _ _ hg => (nomatch hg), fun _ _ _ ht => (nomatch ht), fun _ _ _ ht => (nomatch ht),
        fun _ _ ht => (nomatch ht), fun _ _ _ ht => (nomatch ht), fun _ _ _ ht => (nomatch ht)⟩
  | step act _ hact ih =>
      cases act with
      | spawn op => exact ih.spawn op
      | run i reply => exact ih.run hact

theorem AccountRun.steps (acts : List Act) : ∀ {s : Account}, AccountRun (fun _ _ => True) s →
    AccountRun (fun _ _ => True) (acts.foldl Account.step s) := by
  induction acts with
  | nil => exact fun h => h
  | cons act acts ih => exact fun h => ih (h.step act trivial)

/-- A message whose `store` returned and that no clear names is under its peer and its id in the account's map, and
the next `get_pending` returns it. -/
theorem stored_is_pending {s : Account} (h : AccountRun Account.NoLateInit s) (i : Nat) (box : Box)
    (message : WrappedMessage) (hstored : s.tasks i = some ⟨.store box message, .returned (some [])⟩)
    (hclear : ¬ s.Cleared box (peerOf message box) message.messageId) :
    ∃ there, (s.content box).at_ (peerOf message box) message.messageId = some there ∧ s.Given box there ∧
      peerOf there box = peerOf message box ∧ there.messageId = message.messageId ∧
      ∃ pending, ((s.spawn (.pending box)).run s.next .done).tasks s.next =
          some ⟨.pending box, .returned (some pending)⟩ ∧ there ∈ pending := by
  obtain ⟨there, hat, hgiven, hpeer, hid⟩ := h.ok.kept i box message hstored hclear
  refine ⟨there, hat, hgiven, hpeer, hid, ?_⟩
  cases hmap : s.maps box with
  | none => simp [Account.content, hmap, State.at_empty] at hat
  | some state =>
      have hcontent : s.content box = state := by simp [Account.content, hmap]
      refine ⟨state.messages, ?_, State.mem_messages (hcontent ▸ hat)⟩
      simp [Account.run, Account.spawn, Account.gotMap, Account.finish, Account.setPc, Op.mutates, Op.box, hmap]

def hello : WrappedMessage := ⟨1, 2, 5, .other [104, 105]⟩

def newAccount : Account := ⟨fun _ => none, fun _ => none, 0, fun _ => none⟩

def helloStored : Account :=
  [Act.spawn (.store .outbound hello), .run 0 .done, .run 0 .done, .run 0 .done, .run 0 .done].foldl Account.step newAccount

def helloLost : Account :=
  [Act.spawn .backlog, .spawn (.store .outbound hello), .run 0 .done, .run 1 .done, .run 1 .done, .run 1 .done,
    .run 1 .done, .run 0 .done].foldl Account.step newAccount

theorem stored_is_pending_hello :
    ∃ there, (helloStored.content .outbound).at_ 2 5 = some there ∧ helloStored.Given .outbound there ∧
      peerOf there .outbound = 2 ∧ there.messageId = 5 ∧
      ∃ pending, ((helloStored.spawn (.pending .outbound)).run 1 .done).tasks 1 =
          some ⟨.pending .outbound, .returned (some pending)⟩ ∧ there ∈ pending := by
  have hrun : AccountRun Account.NoLateInit helloStored := by
    simp only [helloStored, List.foldl_cons, List.foldl_nil]
    refine .step _ (.step _ (.step _ (.step _ (.step _ (.start _) ?_) ?_) ?_) ?_) ?_
    · trivial
    all_goals
      intro op htask hm
      cases htask <;> cases hm
  refine stored_is_pending hrun 0 .outbound hello rfl ?_
  rintro ⟨j, ids, pc, hj, -⟩
  match j, hj with
  | 0, hj => cases hj
  | j + 1, hj => cases hj

/-- `pending_by_peer` finds no map, the message is stored, and then `pending_by_peer` writes its empty map. -/
theorem hello_is_lost :
    AccountRun (fun _ _ => True) helloLost ∧
      helloLost.tasks 1 = some ⟨.store .outbound hello, .returned (some [])⟩ ∧
      ¬ helloLost.Cleared .outbound 2 5 ∧ (helloLost.content .outbound).at_ 2 5 = none := by
  refine ⟨AccountRun.steps _ (.start _), rfl, ?_, by decide +kernel⟩
  rintro ⟨j, ids, pc, hj, -⟩
  match j, hj with
  | 0, hj => cases hj
  | 1, hj => cases hj
  | j + 2, hj => cases hj

end CitadelAgent.Messenger
