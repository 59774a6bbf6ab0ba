import CitadelAgent.Conversations.EngineRun
import CitadelAgent.Conversations.StoreRun

/-!
# What an engine operation does to the bucket

* `Call` : one store operation on the bucket, whatever it answers;
* `ByStore` : the operation changes the bucket by such calls, one after another, and by nothing else;
* `ByCalls` : by which calls, with what is appended coming first;
* `Operation` : what the engine does for peers, windows and the sweep, `Operation.Calls` the calls that each makes of the store.
-/

namespace CitadelAgent.Conversations.Engine
open Store (Revised Revision)

/-- The bucket before and after a store operation of the account. -/
def Call (cid : Cid) (kv kv' : Kv) : Prop := ∃ peer, ∃ op : StoreOp, kv' = (Kv.exec (op.program cid peer) kv).2

/-- The bucket is changed by calls of the account's store alone. -/
def ByStore {α : Type} (out : Outside) (cid : Cid) (x : EngineM α) : Prop :=
  ∀ n s, Relation.ReflTransGen (Call cid) s.kv (exec out x n s).2.kv

/-- A call of the account's store that is one of `P`. -/
def CallIn (P : Cid → StoreOp → Prop) (cid : Cid) (kv kv' : Kv) : Prop :=
  ∃ peer op, P peer op ∧ kv' = (Kv.exec (op.program cid peer) kv).2

/-- The bucket is changed by one call of `A` at most, and after it by calls of `P`. -/
def ByCalls {α : Type} (A P : Cid → StoreOp → Prop) (out : Outside) (cid : Cid) (x : EngineM α) : Prop :=
  ∀ n s, ∃ kv, Relation.ReflGen (CallIn A cid) s.kv kv ∧ Relation.ReflTransGen (CallIn P cid) kv (exec out x n s).2.kv

def Clock (t : F64) : Prop := ∃ millis : Fin (2 ^ 128), t = F64.ofNat millis.val

theorem Clock.isFinite {t : F64} (h : Clock t) : t.isFinite = true := by
  obtain ⟨millis, ht⟩ := h
  rw [ht]
  exact isFinite_millis millis

theorem clock_millis (millis : Fin (2 ^ 128)) : Clock (F64.ofNat millis.val) := Exists.intro millis (Eq.refl _)

def inboundCalls (cid peer : Cid) : Inbound → StoreOp → Prop
  | .message envelope contents timestamp, op =>
    (∃ name now, Clock now ∧ op = .append (fromPeer cid peer envelope contents timestamp) name now) ∨
      ∃ name now, Clock now ∧ op = .setPeerUsername name now
  | .screenshot envelope takenAt, op => ∃ text t now, (takenAt = some t ∨ Clock t) ∧ Clock now ∧
      op = .append (noticeFrom cid peer envelope text t) none now
  | .edit target contents editedAt, op => ∃ now, Clock now ∧ op = .revise target peer (.edit contents editedAt) now
  | .delete target, op => ∃ now, Clock now ∧ op = .revise target peer .delete now
  | .reaction target emoji active at_, op => op = .react target { emoji, reactorCid := peer, at_, active }
  | .ack kind messageId, op => op = .setStatus messageId (statusOf kind) none
  | .checkState, _ | .ephemeral, _ | .forAWindow, _ => False

def Appends : StoreOp → Prop
  | .append .. => True
  | _ => False

section

variable {α β : Type} {A P : Cid → StoreOp → Prop} {out : Outside} {cid peer : Cid}

theorem CallIn.call {kv kv' : Kv} (h : CallIn P cid kv kv') : Call cid kv kv' := by
  obtain ⟨peer, op, -, hkv⟩ := h
  exact ⟨peer, op, hkv⟩

theorem ByCalls.byStore {x : EngineM α} (h : ByCalls A P out cid x) : ByStore out cid x := by
  intro n s
  obtain ⟨kv, hfirst, hrest⟩ := h n s
  have hrest' : Relation.ReflTransGen (Call cid) kv (exec out x n s).2.kv :=
    Relation.ReflTransGen.mono (fun _ _ h => h.call) _ _ hrest
  cases hfirst with
  | refl => exact hrest'
  | single hcall => exact hrest'.head hcall.call

theorem snd_exec_map (f : α → β) (x : KvM α) (kv : Kv) : (Kv.exec (f <$> x) kv).2 = (Kv.exec x kv).2 := by
  rw [map_eq_pure_bind, Kv.exec_bind]
  rcases Kv.exec x kv with ⟨r, kv'⟩
  cases r <;> rfl

theorem snd_exec_discard (x : KvM α) (kv : Kv) : (Kv.exec (discard x) kv).2 = (Kv.exec x kv).2 := snd_exec_map _ x kv

theorem run_storing_bind (x : KvM α) (f : α → Outcome β) :
    (Engine.storing x >>= f).run = Engine.store x >>= fun r => match r with
      | .ok a => (f a).run
      | .error e => Pure.pure (.error (.kv e)) := by
  rw [ExceptT.run_bind, Engine.storing, ExceptT.run_mk, bind_assoc]
  refine congrArg (Engine.store x >>= ·) (funext fun r => ?_)
  cases r <;> rfl

theorem exec_discarded (x : EngineM α) (n : Nat) (s : Shared) :
    (exec out (Functor.discard x) n s).2 = (exec out x n s).2 := by
  rw [show Functor.discard x = (fun _ => PUnit.unit) <$> x from rfl, exec_map]

namespace ByCalls

theorem of_silent {x : EngineM α} (h : Silent out x) : ByCalls A P out cid x := by
  intro n s
  exact ⟨s.kv, .refl, (h n s).symm ▸ .refl⟩

theorem pure (a : α) : ByCalls A P out cid (Pure.pure a : EngineM α) := of_silent (.pure a)

theorem io (o : IoOp) : ByCalls A P out cid (Engine.io o) := of_silent (.io o)

theorem bind {x : EngineM α} {f : α → EngineM β} (hx : ByCalls A P out cid x)
    (hf : ∀ a, ByCalls (fun _ _ => False) P out cid (f a)) : ByCalls A P out cid (x >>= f) := by
  intro n s
  rw [exec_bind]
  obtain ⟨kv, hfirst, hrest⟩ := hx n s
  obtain ⟨kv', hnone, hafter⟩ := hf (exec out x n s).1.1 (exec out x n s).1.2 (exec out x n s).2
  cases hnone with
  | refl => exact ⟨kv, hfirst, hrest.trans hafter⟩
  | single hcall =>
    obtain ⟨_, _, hfalse, -⟩ := hcall
    exact hfalse.elim

theorem after {x : EngineM α} {f : α → EngineM β} (hx : Silent out x) (hf : ∀ a, ByCalls A P out cid (f a)) :
    ByCalls A P out cid (x >>= f) := by
  intro n s
  rw [exec_bind]
  obtain ⟨kv, hfirst, hrest⟩ := hf (exec out x n s).1.1 (exec out x n s).1.2 (exec out x n s).2
  exact ⟨kv, hx n s ▸ hfirst, hrest⟩

theorem afterIo {o : IoOp} {f : o.Ans → EngineM β} (hf : ∀ j, ByCalls A P out cid (f (out j o))) :
    ByCalls A P out cid (Engine.io o >>= f) := by
  intro n s
  have hkv : (exec out (Engine.io o) n s).2.kv = s.kv := Silent.io o n s
  rw [exec_io] at hkv
  rw [exec_bind, exec_io]
  obtain ⟨kv, hfirst, hrest⟩ := hf n (n + 1) (Prog.run Shared.handle (shown o) s).2
  exact ⟨kv, hkv ▸ hfirst, hrest⟩

theorem afterNow {f : F64 → EngineM β} (hf : ∀ t, Clock t → ByCalls A P out cid (f t)) :
    ByCalls A P out cid (Engine.nowMs >>= f) := by
  intro n s
  obtain ⟨t, ht, hrun⟩ : ∃ t, Clock t ∧ exec out Engine.nowMs n s = ((t, n + 1), s) :=
    ⟨_, clock_millis (out n .nowMs), exec_nowMs out n s⟩
  rw [exec_bind, hrun]
  exact hf t ht _ _

theorem discard {x : EngineM α} (hx : ByCalls A P out cid x) : ByCalls A P out cid (Functor.discard x) := by
  intro n s
  rw [exec_discarded]
  exact hx n s

theorem ite {c : Prop} [Decidable c] {x y : EngineM α} (hx : ByCalls A P out cid x) (hy : ByCalls A P out cid y) :
    ByCalls A P out cid (if c then x else y) := by
  split
  · exact hx
  · exact hy

theorem locked {peer : Cid} {x : EngineM α} (hx : ByCalls A P out cid x) :
    ByCalls A P out cid (Engine.locked cid peer x) := by
  intro n s
  rw [exec_locked]
  exact hx n s

theorem store (op : StoreOp) (hop : P peer op) {x : KvM α} (h : ∀ kv, (Kv.exec x kv).2 = (Kv.exec (op.program cid peer) kv).2) :
    ByCalls A P out cid (Engine.store x) := by
  intro n s
  rw [exec_store]
  exact ⟨s.kv, .refl, .single ⟨peer, op, hop, h s.kv⟩⟩

theorem append (message : ConversationMessage) (name : Option String) (now : F64) (h : A peer (.append message name now)) :
    ByCalls A P out cid (Engine.store (Store.append cid peer message name now)) := by
  intro n s
  rw [exec_store]
  exact ⟨_, .single ⟨peer, _, h, (snd_exec_discard _ s.kv).symm⟩, .refl⟩

theorem reading {x : KvM α} (h : ∀ kv, (Kv.exec x kv).2 = kv) : ByCalls A P out cid (Engine.store x) := by
  refine of_silent fun n s => ?_
  rw [exec_store]
  exact h s.kv

theorem bindE {x : Outcome α} {f : α → Outcome β} (hx : ByCalls A P out cid x.run)
    (hf : ∀ a, ByCalls (fun _ _ => False) P out cid (f a).run) : ByCalls A P out cid (x >>= f).run := by
  rw [ExceptT.run_bind]
  refine bind hx fun r => ?_
  cases r with
  | ok a => exact hf a
  | error e => exact pure _

theorem afterReading {x : KvM α} {f : α → Outcome β} (h : ∀ kv, (Kv.exec x kv).2 = kv)
    (hf : ∀ a kv, (Kv.exec x kv).1 = .ok a → ByCalls A P out cid (f a).run) :
    ByCalls A P out cid (Engine.storing x >>= f).run := by
  intro n s
  rw [run_storing_bind, exec_bind, exec_store, h s.kv]
  cases hx : (Kv.exec x s.kv).1 with
  | ok a => exact hf a s.kv hx n s
  | error e => exact ⟨s.kv, .refl, .refl⟩

theorem storing {x : KvM α} (h : ByCalls A P out cid (Engine.store x)) : ByCalls A P out cid (Engine.storing x).run := by
  refine bind h fun r => ?_
  cases r with
  | ok a => exact pure _
  | error e => exact pure _

theorem lift {x : EngineM α} (h : ByCalls A P out cid x) : ByCalls A P out cid (liftM x : Outcome α).run :=
  bind h fun _ => pure _

theorem run_lift_bind (x : EngineM α) (f : α → Outcome β) :
    ((liftM x : Outcome α) >>= f).run = x >>= fun a => (f a).run := by
  rw [ExceptT.run_bind, show (liftM x : Outcome α).run = x >>= fun a => Pure.pure (.ok a) from rfl, bind_assoc]
  rfl

theorem afterE {x : EngineM α} {f : α → Outcome β} (hx : Silent out x) (hf : ∀ a, ByCalls A P out cid (f a).run) :
    ByCalls A P out cid ((liftM x : Outcome α) >>= f).run := by
  rw [run_lift_bind]
  exact after hx hf

theorem afterIoE {o : IoOp} {f : o.Ans → Outcome β} (hf : ∀ j, ByCalls A P out cid (f (out j o)).run) :
    ByCalls A P out cid ((liftM (Engine.io o) : Outcome o.Ans) >>= f).run := by
  rw [run_lift_bind]
  exact afterIo hf

theorem afterNowE {f : F64 → Outcome β} (hf : ∀ t, Clock t → ByCalls A P out cid (f t).run) :
    ByCalls A P out cid ((liftM Engine.nowMs : Outcome F64) >>= f).run := by
  rw [run_lift_bind]
  exact afterNow hf

theorem announceUpdated (m : Option ConversationMessage) : ByCalls A P out cid (Engine.announceUpdated cid peer m) := by
  cases m with
  | none => exact pure _
  | some m => exact of_silent (.announce cid peer _)

theorem preferences : Silent out (Engine.preferences cid) := by
  intro n s
  rw [exec_preferences]

theorem sending (bytes : List UInt8) (f : String → EngineError) :
    ByCalls A P out cid (Engine.sending cid peer bytes f).run := by
  refine bind (io _) fun r => ?_
  cases r with
  | ok u => exact pure _
  | error e => exact pure _

/-! ### What the peer sends -/

section

variable {command : Inbound} {message : ConversationMessage}

theorem revisionOf (now : F64) (hnow : Clock now)
    (hP : ∀ op, inboundCalls cid peer command op → ¬ Appends op → P peer op) :
    ByCalls A P out cid (Engine.store (Engine.revisionOf cid peer now command)) := by
  have hmap : ∀ {α β : Type} (f : α → β) (x : KvM α) (op : StoreOp), P peer op →
      (∀ kv, (Kv.exec (op.program cid peer) kv).2 = (Kv.exec x kv).2) → ByCalls A P out cid (Engine.store (f <$> x)) :=
    fun f x op hop h => store op hop fun kv => (snd_exec_map f x kv).trans (h kv).symm
  cases command with
  | edit target contents editedAt =>
    exact hmap _ _ (.revise target peer (.edit contents editedAt) now) (hP _ ⟨now, hnow, rfl⟩ id) (snd_exec_discard _)
  | delete target => exact hmap _ _ (.revise target peer .delete now) (hP _ ⟨now, hnow, rfl⟩ id) (snd_exec_discard _)
  | reaction target emoji active at_ =>
    exact hmap _ _ (.react target { emoji, reactorCid := peer, at_, active }) (hP _ rfl id) (snd_exec_discard _)
  | ack kind messageId => exact hmap _ _ (.setStatus messageId (statusOf kind) none) (hP _ rfl id) (snd_exec_discard _)
  | message | screenshot | checkState | ephemeral | forAWindow => exact reading fun kv => rfl

theorem screenshot (envelope : Envelope) (takenAt : Option F64)
    (hA : ∀ text t now, (takenAt = some t ∨ Clock t) → Clock now → A peer (.append (noticeFrom cid peer envelope text t) none now)) :
    ByCalls A P out cid (Engine.screenshot cid peer envelope takenAt) := by
  refine after preferences fun prefs => ?_
  cases prefs with
  | error e => exact pure _
  | ok prefs =>
    refine ite (pure _) (after (.currentMetadata cid peer) fun metadata => ?_)
    -- The time is the peer's, or the clock's.
    have htaken : ∀ f : F64 → EngineM Bool, (∀ t, (takenAt = some t ∨ Clock t) → ByCalls A P out cid (f t)) →
        ByCalls A P out cid (takenOrNow takenAt >>= f) := by
      intro f hf
      cases takenAt with
      | none => exact afterNow fun t ht => hf t (.inr ht)
      | some t => exact hf t (.inl rfl)
    refine htaken _ fun t ht => bind (locked (afterNow fun now hnow => append _ none now (hA _ t now ht hnow))) fun appended => ?_
    cases appended with
    | error e => exact pure _
    | ok added => exact bind (of_silent (.announceAppended cid peer _ none added)) fun _ => pure _

theorem revision (hA : ∀ op, inboundCalls cid peer command op → Appends op → A peer op)
    (hP : ∀ op, inboundCalls cid peer command op → ¬ Appends op → P peer op) :
    ByCalls A P out cid (Engine.revision cid peer command) := by
  cases command with
  | screenshot envelope takenAt =>
    refine afterNow fun now _ => after (fun n s => by rw [exec_locked]; rfl) fun _ => screenshot envelope takenAt ?_
    exact fun text t now ht hnow => hA _ ⟨text, t, now, ht, hnow, rfl⟩ trivial
  | message | edit | delete | reaction | ack | checkState | ephemeral | forAWindow =>
    refine afterNow fun now hnow => bind (locked (revisionOf now hnow hP)) fun r => ?_
    rcases r with _ | _ | change
    · exact pure _
    · exact pure _
    · exact bind (of_silent (.announce cid peer change)) fun _ => pure _

theorem appendNamed (username : Option String) (hA : ∀ name now, Clock now → A peer (.append message name now))
    (hP : ∀ name now, Clock now → P peer (.setPeerUsername name now)) :
    ByCalls A P out cid (Engine.appendNamed cid peer message username) := by
  refine afterNow fun now hnow => bind (append message username now (hA username now hnow)) fun appended => ?_
  cases appended with
  | error e => exact pure _
  | ok added =>
    cases username with
    | none => exact pure _
    | some name =>
      exact afterNow fun now hnow => bind (store (.setPeerUsername name now) (hP name now hnow) fun kv => rfl) fun _ => pure _

theorem storeAndAck (hA : ∀ name now, Clock now → A peer (.append message name now))
    (hP : ∀ name now, Clock now → P peer (.setPeerUsername name now)) :
    ByCalls A P out cid (Engine.storeAndAck cid peer message) := by
  refine after (.io _) fun username => bind (locked (appendNamed username hA hP)) fun appended => ?_
  cases appended with
  | error e => exact pure _
  | ok added =>
    refine after .nowMs fun now => after (.io _) fun _ => ?_
    cases added with
    | none => exact pure _
    | some metadata =>
      refine bind (ite (io _) (pure _)) fun _ => ?_
      exact bind (of_silent (.announceAppended cid peer message none (some metadata))) fun _ => pure _

theorem incoming (envelope : Envelope) (contents : String) (timestamp : F64)
    (hA : ∀ name now, Clock now → A peer (.append (fromPeer cid peer envelope contents timestamp) name now))
    (hP : ∀ name now, Clock now → P peer (.setPeerUsername name now)) :
    ByCalls A P out cid (Engine.incoming cid peer envelope contents timestamp) := by
  refine after preferences fun prefs => ?_
  cases prefs with
  | error e => exact pure _
  | ok prefs =>
    refine after (.ite (.pure _) ((Silent.io _).bind fun known => .pure _)) fun hidden => ?_
    exact ite (pure _) (storeAndAck hA hP)

end

theorem raiseCall (n : MessageNotification) : ByCalls A P out cid (Engine.raiseCall n) :=
  ite (bind (io _) fun _ => io _) (pure _)

theorem delivered (n : MessageNotification)
    (hA : ∀ command op, Command.read n.message = some command → inboundCalls n.cid n.peerCid command op → Appends op →
      A n.peerCid op)
    (hP : ∀ command op, Command.read n.message = some command → inboundCalls n.cid n.peerCid command op → ¬ Appends op →
      P n.peerCid op) : ByCalls A P out n.cid (Engine.delivered n) := by
  have hpublished : ByCalls A P out n.cid (do
      let taken ← Engine.io (.publish n.cid (.messageNotification n))
      return decide (0 < taken)) := bind (io _) fun _ => pure _
  unfold Engine.delivered
  match hread : Command.read n.message with
  | none => exact hpublished
  | some .forAWindow => exact hpublished
  | some .ephemeral => exact bind (raiseCall n) fun _ => bind (io _) fun _ => pure _
  | some .checkState =>
    exact bind (of_silent (.rawEnvelope n.cid n.peerCid)) fun envelope => bind (io _) fun _ => pure _
  | some (.message envelope contents timestamp) =>
    exact incoming envelope contents timestamp (fun name now hnow => hA _ _ hread (.inl ⟨name, now, hnow, rfl⟩) trivial)
      fun name now hnow => hP _ _ hread (.inr ⟨name, now, hnow, rfl⟩) id
  | some (.edit target contents editedAt) => exact revision (hA _ · hread) (hP _ · hread)
  | some (.delete target) => exact revision (hA _ · hread) (hP _ · hread)
  | some (.reaction target emoji active at_) => exact revision (hA _ · hread) (hP _ · hread)
  | some (.screenshot envelope takenAt) => exact revision (hA _ · hread) (hP _ · hread)
  | some (.ack kind messageId) => exact revision (hA _ · hread) (hP _ · hread)

/-! ### What windows ask for, and the sweep -/

theorem setStatus (id : String) (status : MessageStatus) (error : Option String) (h : P peer (.setStatus id status error)) :
    ByCalls A P out cid (Engine.store (Store.setStatus cid peer id status error)) :=
  store (.setStatus id status error) h fun kv => (snd_exec_discard _ kv).symm

theorem transmit (message : ConversationMessage) (envelope : Envelope)
    (hP : ∀ status error, P peer (.setStatus message.id status error)) :
    ByCalls A P out cid (Engine.transmit cid peer message envelope).run := by
  refine bindE (lift (io _)) fun r => bindE (storing (setStatus _ _ _ (hP _ _))) fun updated =>
    bindE (lift (announceUpdated updated)) fun _ => ?_
  cases failure r with
  | none => exact pure _
  | some e => exact pure _

theorem send (o : Outgoing)
    (hA : ∀ j message name now, message.id = out j .newId → message.senderCid = cid → message.recipientCid = peer → Clock now →
      A peer (.append message name now))
    (hP : ∀ j status error, P peer (.setStatus (out j .newId) status error)) :
    ByCalls A P out cid (Engine.send cid peer o) := by
  refine locked (afterReading (fun kv => ?_) fun metadata _ _ => afterIoE fun j => afterE .nowMs fun timestamp =>
    afterE (.io _) fun name => afterNowE fun now hnow =>
    bindE (storing (append _ name now (hA j _ name now rfl rfl rfl hnow))) fun added =>
    bindE (lift (of_silent (.announceAppended cid peer _ o.requestId added))) fun _ => transmit _ _ (hP j))
  exact congrArg Prod.snd (exec_loadMetadata cid peer kv)

theorem resend (id : String) (hP : ∀ status error, P peer (.setStatus id status error)) :
    ByCalls A P out cid (Engine.resend cid peer id) := by
  refine locked (afterReading (fun kv => congrArg Prod.snd (exec_find kv cid peer id)) fun found kv hfound => ?_)
  rw [exec_find] at hfound
  cases found with
  | none => exact pure _
  | some found =>
    have hid : found.message.id = id := (foundIn_eq_some hfound).2.1
    have hrun : ByCalls A P out cid (ExceptT.run (do
        let pending ← Engine.storing (Store.setStatus cid peer id .pending none)
        Engine.announceUpdated cid peer pending
        Engine.transmit cid peer found.message {
          senderCid := cid, recipientCid := peer, messageId := found.message.id, index := found.message.index
          replyTo := found.message.replyTo, mentions := found.message.mentions, attachments := found.message.attachments
          messageType := found.message.messageType, documentId := found.message.documentId
          documentTitle := found.message.documentTitle })) :=
      bindE (storing (setStatus _ _ _ (hP _ _))) fun pending => bindE (lift (announceUpdated pending)) fun _ =>
        transmit _ _ (hid.symm ▸ hP)
    dsimp only
    split_ifs
    · exact pure _
    · exact hrun

theorem reviseOwn (id : String) (edit : Option String)
    (hP : ∀ revision now, Clock now → (∀ contents editedAt, revision = .edit contents editedAt → Clock editedAt) →
      P peer (.revise id cid revision now)) : ByCalls A P out cid (Engine.reviseOwn cid peer id edit) := by
  refine locked (afterNowE fun now hnow => ?_)
  rcases edit with _ | contents
  all_goals
    refine bindE (storing (store (.revise id cid _ now) (hP _ now hnow fun _ editedAt h => by cases h <;> exact hnow)
      fun kv => (snd_exec_discard _ kv).symm)) fun revised => ?_
    cases revised with
    | notSender => exact pure _
    | unknown => exact pure _
    | applied message =>
      exact bindE (lift (of_silent (.announce cid peer _))) fun _ =>
        bindE (lift (of_silent (.rawEnvelope cid peer))) fun envelope => bindE (sending _ _) fun _ => pure _

theorem reactOwn (id emoji : String) (active : Bool)
    (hP : ∀ at_, Clock at_ → P peer (.react id { emoji, reactorCid := cid, at_, active })) :
    ByCalls A P out cid (Engine.react cid peer id emoji active) := by
  refine locked (afterNowE fun at_ hat =>
    bindE (storing (store (.react id _) (hP at_ hat) fun kv => (snd_exec_discard _ kv).symm)) fun reacted => ?_)
  cases reacted with
  | none => exact pure _
  | some message =>
    exact bindE (lift (of_silent (.announce cid peer _))) fun _ =>
      bindE (lift (of_silent (.rawEnvelope cid peer))) fun envelope => bindE (sending _ _) fun _ => pure _

theorem announceRead (sendReceipts : Bool) (read : List ConversationMessage) :
    ByCalls A P out cid (Engine.announceRead cid peer sendReceipts read) := by
  induction read generalizing A with
  | nil => exact pure _
  | cons message rest ih =>
    exact bind (of_silent (.announce cid peer _)) fun _ =>
      bind (ite (after .nowMs fun now => bind (io _) fun _ => pure _) (pure _)) fun _ => ih

theorem markRead (hP : ∀ now, Clock now → P peer (.markRead now)) : ByCalls A P out cid (Engine.markRead cid peer) := by
  refine locked (afterNowE fun now hnow =>
    bindE (storing (store (.markRead now) (hP now hnow) fun kv => (snd_exec_discard _ kv).symm))
    fun r => bindE ?_ fun prefs => bindE (lift (announceRead _ _)) fun _ => bindE (lift ?_) fun _ => pure _)
  · refine after preferences fun prefs => ?_
    cases prefs with
    | ok prefs => exact pure _
    | error e => exact pure _
  · cases r.2 with
    | none => exact pure _
    | some metadata => exact of_silent (.announce cid peer _)

theorem record (message : ConversationMessage) (hA : ∀ name now, Clock now → A peer (.append message name now)) :
    ByCalls A P out cid (Engine.record cid peer message) := by
  refine ite (pure _) (locked (afterE (.io _) fun name => afterNowE fun now hnow =>
    bindE (storing (append message name now (hA name now hnow))) fun added => ?_))
  exact bindE (lift (of_silent (.announceAppended cid peer message none added))) fun _ => pure _

theorem patch (id : String) (p : MessagePatch) (hP : P peer (.patch id p)) :
    ByCalls A P out cid (Engine.patch cid peer id p) := by
  refine locked (bindE (storing (store (.patch id p) hP fun kv => (snd_exec_discard _ kv).symm)) fun changed => ?_)
  exact bindE (lift (announceUpdated changed)) fun _ => pure _

theorem clear (includeUnattributed : Bool) (hP : P peer (.delete includeUnattributed)) :
    ByCalls A P out cid (Engine.clear cid peer includeUnattributed) := by
  refine locked (bindE (storing (store (.delete includeUnattributed) hP fun kv => (snd_exec_discard _ kv).symm))
    fun cleared => ?_)
  cases cleared with
  | false => exact pure _
  | true => exact bindE (lift (of_silent (.announce cid peer _))) fun _ => pure _

theorem expire (days : UInt32) (hP : ∀ cutoff now, Clock now → P peer (.pruneOlderThan cutoff now)) :
    ByCalls A P out cid (Engine.expire cid peer days) := by
  refine afterNow fun now hnow =>
    bind (locked (store (.pruneOlderThan _ now) (hP _ now hnow) fun kv => (snd_exec_discard _ kv).symm)) fun r => ?_
  cases r with
  | error e => exact pure _
  | ok removed =>
    cases removed with
    | zero => exact pure _
    | succ k => exact of_silent (.announce cid peer _)

theorem sweepSettings (settings : List PeerRetention) (hP : ∀ peer cutoff now, Clock now → P peer (.pruneOlderThan cutoff now)) :
    ByCalls A P out cid (Engine.sweepSettings cid settings) := by
  induction settings generalizing A with
  | nil => exact pure _
  | cons setting rest ih =>
    unfold Engine.sweepSettings
    cases setting.retention with
    | forever => exact ih
    | days days => exact bind (expire days (hP _)) fun _ => ih

theorem sweep (hP : ∀ peer cutoff now, Clock now → P peer (.pruneOlderThan cutoff now)) :
    ByCalls A P out cid (Engine.sweep cid) := by
  refine after preferences fun prefs => ?_
  cases prefs with
  | error e => exact pure _
  | ok prefs => exact sweepSettings prefs.retention hP

end ByCalls

end

inductive Operation
  | delivered (message : List UInt8) (requestId : Option String)
  | send (o : Outgoing)
  | resend (id : String)
  | reviseOwn (id : String) (edit : Option String)
  | react (id emoji : String) (active : Bool)
  | markRead
  | record (message : ConversationMessage)
  | patch (id : String) (p : MessagePatch)
  | clear (includeUnattributed : Bool)
  | sweep

def Operation.program (cid peer : Cid) : Operation → EngineM Unit
  | .delivered message requestId => discard (Engine.delivered { message, cid, peerCid := peer, requestId })
  | .send o => discard (Engine.send cid peer o)
  | .resend id => discard (Engine.resend cid peer id)
  | .reviseOwn id edit => discard (Engine.reviseOwn cid peer id edit)
  | .react id emoji active => discard (Engine.react cid peer id emoji active)
  | .markRead => discard (Engine.markRead cid peer)
  | .record message => discard (Engine.record cid peer message)
  | .patch id p => discard (Engine.patch cid peer id p)
  | .clear includeUnattributed => discard (Engine.clear cid peer includeUnattributed)
  | .sweep => Engine.sweep cid

def Operation.Calls (out : Outside) (cid peer : Cid) : Operation → Cid → StoreOp → Prop
  | .delivered message _, q, op => q = peer ∧ ∃ command, Command.read message = some command ∧ inboundCalls cid peer command op
  | .send _, q, op => q = peer ∧ ∃ j,
      (∃ message name now, message.id = out j .newId ∧ message.senderCid = cid ∧ message.recipientCid = peer ∧ Clock now ∧
        op = .append message name now) ∨ ∃ status error, op = .setStatus (out j .newId) status error
  | .resend id, q, op => q = peer ∧ ∃ status error, op = .setStatus id status error
  | .reviseOwn id _, q, op => q = peer ∧ ∃ revision now, Clock now ∧
      (∀ contents editedAt, revision = .edit contents editedAt → Clock editedAt) ∧ op = .revise id cid revision now
  | .react id emoji active, q, op => q = peer ∧ ∃ at_, Clock at_ ∧ op = .react id { emoji, reactorCid := cid, at_, active }
  | .markRead, q, op => q = peer ∧ ∃ now, Clock now ∧ op = .markRead now
  | .record message, q, op => q = peer ∧ ∃ name now, Clock now ∧ op = .append message name now
  | .patch id p, q, op => q = peer ∧ op = .patch id p
  | .clear includeUnattributed, q, op => q = peer ∧ op = .delete includeUnattributed
  | .sweep, _, op => ∃ cutoff now, Clock now ∧ op = .pruneOlderThan cutoff now

theorem Operation.byCalls (o : Operation) (out : Outside) (cid peer : Cid) :
    ByCalls (fun q op => o.Calls out cid peer q op ∧ Appends op) (fun q op => o.Calls out cid peer q op ∧ ¬ Appends op) out cid
      (o.program cid peer) := by
  cases o with
  | delivered message requestId =>
    exact .discard (.delivered { message, cid, peerCid := peer, requestId }
      (fun command op hread hcall happ => ⟨⟨rfl, command, hread, hcall⟩, happ⟩)
      fun command op hread hcall happ => ⟨⟨rfl, command, hread, hcall⟩, happ⟩)
  | send o =>
    exact .discard (.send o
      (fun j message name now hid hs hr hnow => ⟨⟨rfl, j, .inl ⟨message, name, now, hid, hs, hr, hnow, rfl⟩⟩, trivial⟩)
      fun j status error => ⟨⟨rfl, j, .inr ⟨status, error, rfl⟩⟩, id⟩)
  | resend messageId => exact .discard (.resend messageId fun status error => ⟨⟨rfl, status, error, rfl⟩, id⟩)
  | reviseOwn messageId edit =>
    exact .discard (.reviseOwn messageId edit fun revision now hnow hedit => ⟨⟨rfl, revision, now, hnow, hedit, rfl⟩, id⟩)
  | react messageId emoji active => exact .discard (.reactOwn messageId emoji active fun at_ hat => ⟨⟨rfl, at_, hat, rfl⟩, id⟩)
  | markRead => exact .discard (.markRead fun now hnow => ⟨⟨rfl, now, hnow, rfl⟩, id⟩)
  | record message => exact .discard (.record message fun name now hnow => ⟨⟨rfl, name, now, hnow, rfl⟩, trivial⟩)
  | patch messageId p => exact .discard (.patch messageId p ⟨⟨rfl, rfl⟩, id⟩)
  | clear includeUnattributed => exact .discard (.clear includeUnattributed ⟨⟨rfl, rfl⟩, id⟩)
  | sweep => exact .sweep fun q cutoff now hnow => ⟨⟨cutoff, now, hnow, rfl⟩, id⟩

theorem Operation.byStore (o : Operation) (out : Outside) (cid peer : Cid) : ByStore out cid (o.program cid peer) :=
  (o.byCalls out cid peer).byStore

end CitadelAgent.Conversations.Engine
