import CitadelAgent.Conversations.EngineInbound
import CitadelAgent.Conversations.EngineOutbound
import CitadelAgent.Conversations.StoreSpec

/-!
# Running an operation

* `SharedOp`, `Shared` : the calls that operations see each other through, and the state behind them;
* `Outside` : what the agent around the engine answers, call by call;
* `Engine.resolve` : an operation with those answers filled in, a program over the shared calls alone;
* `Engine.exec` : an operation run from beginning to end with no other beside it, and what each call does there.
-/

namespace CitadelAgent.Conversations

inductive SharedOp
  | kv (o : KvOp)
  | lock (key : Key)
  | unlock (key : Key)
  | nextSeq (cid : Cid)
  | publish (cid : Cid) (response : Response)

abbrev SharedOp.Ans : SharedOp → Type
  | .kv o => o.Ans
  | .lock _ => Unit
  | .unlock _ => Unit
  | .nextSeq _ => Nat
  | .publish .. => Unit

structure Shared where
  kv : Kv
  seq : Cid → Nat
  published : List (Cid × Response)

namespace Shared

/-- Every call answered. Who may take a lock is not decided here. -/
def handle : (o : SharedOp) → Shared → o.Ans × Shared
  | .kv o, s => ((Kv.handle o s.kv).1, { s with kv := (Kv.handle o s.kv).2 })
  | .lock _, s => ((), s)
  | .unlock _, s => ((), s)
  | .nextSeq cid, s => (s.seq cid + 1, { s with seq := Function.update s.seq cid (s.seq cid + 1) })
  | .publish cid response, s => ((), { s with published := s.published ++ [(cid, response)] })

end Shared

/-- The answer to an operation's `n`-th call on the agent around it. -/
abbrev Outside := Nat → (o : IoOp) → o.Ans

namespace Engine

/-- What a call on the agent around the engine shows to other operations. -/
def shown : IoOp → Prog SharedOp SharedOp.Ans Unit
  | .publish cid response => Prog.op (SharedOp.publish cid response)
  | _ => pure ()

/-- The operation after `n` calls on the agent around it; its result comes with the number of calls made. -/
def resolve {α : Type} (out : Outside) : EngineM α → Nat → Prog SharedOp SharedOp.Ans (α × Nat)
  | .ret a, n => .ret (a, n)
  | .call (.kv o) next, n => .call (.kv o) fun answer => resolve out (next answer) n
  | .call (.lock key) next, n => .call (.lock key) fun answer => resolve out (next answer) n
  | .call (.unlock key) next, n => .call (.unlock key) fun answer => resolve out (next answer) n
  | .call (.nextSeq cid) next, n => .call (.nextSeq cid) fun answer => resolve out (next answer) n
  | .call (.io o) next, n => shown o >>= fun _ => resolve out (next (out n o)) (n + 1)

variable {α β : Type} (out : Outside)

theorem resolve_bind (x : EngineM α) (f : α → EngineM β) (n : Nat) :
    resolve out (x >>= f) n = resolve out x n >>= fun r => resolve out (f r.1) r.2 := by
  induction x generalizing n with
  | ret a => rfl
  | call o next ih =>
    cases o with
    | kv o => exact congrArg (Prog.call _) (funext fun answer => ih answer n)
    | lock key => exact congrArg (Prog.call _) (funext fun answer => ih answer n)
    | unlock key => exact congrArg (Prog.call _) (funext fun answer => ih answer n)
    | nextSeq cid => exact congrArg (Prog.call _) (funext fun answer => ih answer n)
    | io o =>
      rw [Prog.call_bind, resolve, resolve, bind_assoc]
      exact congrArg (shown o >>= ·) (funext fun _ => ih (out n o) (n + 1))

/-! ## On its own -/

/-- The operation from beginning to end: its result, the calls made on the agent around it, and the state after. -/
def exec (x : EngineM α) (n : Nat) (s : Shared) : (α × Nat) × Shared := Prog.run Shared.handle (resolve out x n) s

@[simp] theorem exec_pure (a : α) (n : Nat) (s : Shared) : exec out (pure a) n s = ((a, n), s) := rfl

@[simp] theorem exec_ret (a : α) (n : Nat) (s : Shared) : exec out (.ret a) n s = ((a, n), s) := rfl

theorem exec_bind (x : EngineM α) (f : α → EngineM β) (n : Nat) (s : Shared) :
    exec out (x >>= f) n s = exec out (f (exec out x n s).1.1) (exec out x n s).1.2 (exec out x n s).2 := by
  rw [exec, resolve_bind, Prog.run_bind]
  rfl

theorem exec_map (f : α → β) (x : EngineM α) (n : Nat) (s : Shared) :
    exec out (f <$> x) n s = ((f (exec out x n s).1.1, (exec out x n s).1.2), (exec out x n s).2) := by
  rw [map_eq_pure_bind, exec_bind, exec_pure]

theorem run_translate (x : Prog KvOp KvOp.Ans α) (n : Nat) (s : Shared) :
    exec out (Prog.translate (fun o => Prog.op (EngineOp.kv o)) x) n s =
      (((Prog.run Kv.handle x s.kv).1, n), { s with kv := (Prog.run Kv.handle x s.kv).2 }) := by
  induction x generalizing s with
  | ret a => rfl
  | call o next ih => exact ih _ _

@[simp] theorem exec_store (x : KvM α) (n : Nat) (s : Shared) :
    exec out (store x) n s = (((Kv.exec x s.kv).1, n), { s with kv := (Kv.exec x s.kv).2 }) := run_translate out x.run n s

@[simp] theorem exec_nextSeq (cid : Cid) (n : Nat) (s : Shared) : exec out (nextSeq cid) n s =
    ((s.seq cid + 1, n), { s with seq := Function.update s.seq cid (s.seq cid + 1) }) := rfl

theorem exec_io (o : IoOp) (n : Nat) (s : Shared) :
    exec out (io o) n s = ((out n o, n + 1), (Prog.run Shared.handle (shown o) s).2) := by
  show Prog.run Shared.handle (shown o >>= fun _ => Prog.ret (out n o, n + 1)) s = _
  rw [Prog.run_bind]
  rfl

@[simp] theorem exec_publish (cid : Cid) (response : Response) (n : Nat) (s : Shared) :
    exec out (io (.publish cid response)) n s = ((out n (.publish cid response), n + 1),
      { s with published := s.published ++ [(cid, response)] }) := rfl

@[simp] theorem exec_nowMs (n : Nat) (s : Shared) : exec out nowMs n s = ((F64.ofNat (out n .nowMs).val, n + 1), s) := rfl

@[simp] theorem exec_locked (cid peer : Cid) (body : EngineM α) (n : Nat) (s : Shared) :
    exec out (locked cid peer body) n s = exec out body n s := by
  unfold locked
  rw [exec_bind, exec_bind, exec_bind]
  rfl

theorem isFinite_millis (ms : Fin (2 ^ 128)) : (F64.ofNat ms.val).isFinite = true := by
  have := ms.isLt
  exact F64.isFinite_ofInt (by omega)

/-! ## Operations that write nothing -/

/-- Every record is left as it is. -/
def Silent (x : EngineM α) : Prop := ∀ n s, (exec out x n s).2.kv = s.kv

namespace Silent

variable {out}

theorem pure (a : α) : Silent out (Pure.pure a : EngineM α) := fun _ _ => rfl

theorem bind {x : EngineM α} {f : α → EngineM β} (hx : Silent out x) (hf : ∀ a, Silent out (f a)) :
    Silent out (x >>= f) := by
  intro n s
  rw [exec_bind, hf, hx]

theorem ite {c : Prop} [Decidable c] {x y : EngineM α} (hx : Silent out x) (hy : Silent out y) :
    Silent out (if c then x else y) := by
  split
  · exact hx
  · exact hy

theorem io (o : IoOp) : Silent out (Engine.io o) := by
  intro n s
  rw [exec_io]
  cases o <;> rfl

theorem nextSeq (cid : Cid) : Silent out (Engine.nextSeq cid) := fun _ _ => rfl

theorem nowMs : Silent out Engine.nowMs := fun _ _ => rfl

theorem currentMetadata (cid peer : Cid) : Silent out (Engine.currentMetadata cid peer) := by
  refine bind (fun n s => ?_) fun _ => pure _
  rw [exec_store]
  exact congrArg Prod.snd (exec_loadMetadata cid peer s.kv)

theorem announce (cid peer : Cid) (change : Change) : Silent out (Engine.announce cid peer change) := by
  unfold Engine.announce
  refine bind ?_ fun metadata => (nextSeq cid).bind fun seq => (io _).bind fun name => (io _).bind fun _ => io _
  unfold carriedMetadata
  split
  · exact pure _
  · exact currentMetadata cid peer

theorem announceAppended (cid peer : Cid) (message : ConversationMessage) (requestId : Option String)
    (metadata : Option ConversationMetadata) : Silent out (Engine.announceAppended cid peer message requestId metadata) := by
  cases metadata with
  | none => exact pure _
  | some metadata => exact announce cid peer _

theorem rawEnvelope (cid peer : Cid) : Silent out (Engine.rawEnvelope cid peer) :=
  (currentMetadata cid peer).bind fun _ => (io _).bind fun _ => pure _

end Silent

def preferencesOf (kv : Kv) (cid : Cid) : Except KvError AccountPreferences :=
  match readPreferences (kv.lookup (preferencesKey cid)) with
  | .ok prefs => .ok prefs
  | .error e => .error (.stored e)

@[simp] theorem exec_preferences (cid : Cid) (n : Nat) (s : Shared) :
    exec out (preferences cid) n s = ((preferencesOf s.kv cid, n), s) := by
  have hrun : Kv.exec (do
      let bytes ← Kv.get (preferencesKey cid)
      Kv.stored (readPreferences bytes)) s.kv = (preferencesOf s.kv cid, s.kv) := by
    rw [Kv.exec_bind, Kv.exec_get, Prog.resume_ok, preferencesOf]
    cases readPreferences (s.kv.lookup (preferencesKey cid)) <;> rfl
  rw [preferences, exec_store, hrun]

end Engine

end CitadelAgent.Conversations
