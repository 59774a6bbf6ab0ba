import CitadelAgent.Conversations.Stored
import CitadelAgent.Lib.Prog

/-!
# The store's records

`kv.rs`: the key-value bucket the conversation store lives in, as the calls of `ConversationKv`.

* `KvOp`, `KvM` : the calls, and programs that make them and stop at the first error;
* `Kv.refusing` : a bucket that answers some number of writes and refuses the next one.
-/

namespace CitadelAgent.Conversations

inductive KvError
  | host (text : String)
  | stored (e : StoredError)
  /-- Not an answer: `latest_page += 1` on the last page number panics. -/
  | overflow

inductive KvOp
  | get (key : String)
  | set (key : String) (value : Bytes)
  | delete (key : String)
  | keys

abbrev KvOp.Ans : KvOp → Type
  | .get _ => Except KvError (Option Bytes)
  | .set .. => Except KvError Unit
  | .delete _ => Except KvError Unit
  | .keys => Except KvError (List String)

abbrev KvM (α : Type) := Prog.Fallible KvOp KvOp.Ans KvError α

/-- The records, in the order `keys` hands their keys over. -/
abbrev Kv := AList fun _ : String => Bytes

namespace Kv

def get (key : String) : KvM (Option Bytes) := ExceptT.mk (Prog.op (KvOp.get key))

def set (key : String) (value : Bytes) : KvM Unit := ExceptT.mk (Prog.op (KvOp.set key value))

def delete (key : String) : KvM Unit := ExceptT.mk (Prog.op (KvOp.delete key))

def keys : KvM (List String) := ExceptT.mk (Prog.op KvOp.keys)

/-- `map_err(stored_err)?`. -/
def stored {α : Type} : Except StoredError α → KvM α
  | .ok a => pure a
  | .error e => throw (.stored e)

def handle : (o : KvOp) → Kv → o.Ans × Kv
  | .get key, kv => (.ok (kv.lookup key), kv)
  | .set key value, kv => (.ok (), kv.insert key value)
  | .delete key, kv => (.ok (), kv.erase key)
  | .keys, kv => (.ok (AList.keys kv), kv)

/-- A bucket that answers `n` writes and then refuses, leaving its records as they are. -/
def refusing : (o : KvOp) → Kv × Nat → o.Ans × Kv × Nat
  | .get key, s => (.ok (s.1.lookup key), s)
  | .set _ _, (kv, 0) => (.error (.host "refused"), kv, 0)
  | .set key value, (kv, n + 1) => (.ok (), kv.insert key value, n)
  | .delete _, (kv, 0) => (.error (.host "refused"), kv, 0)
  | .delete key, (kv, n + 1) => (.ok (), kv.erase key, n)
  | .keys, s => (.ok (AList.keys s.1), s)

def exec {α : Type} (x : KvM α) (kv : Kv) : Except KvError α × Kv := Prog.exec handle x kv

/-- A program on a bucket that refuses the write after the first `n`. -/
def execRefusing {α : Type} (n : Nat) (x : KvM α) (kv : Kv) : Except KvError α × Kv :=
  let (result, kv, _) := Prog.exec refusing x (kv, n)
  (result, kv)

/-! ## Running -/

variable {α β : Type}

@[simp] theorem exec_pure (a : α) (kv : Kv) : exec (pure a) kv = (.ok a, kv) := rfl

@[simp] theorem exec_throw (e : KvError) (kv : Kv) : exec (throw e : KvM α) kv = (.error e, kv) := rfl

theorem exec_bind (x : KvM α) (f : α → KvM β) (kv : Kv) :
    exec (x >>= f) kv = Prog.resume (fun a => exec (f a)) (exec x kv) := Prog.exec_bind _ _ _ _

theorem exec_bind_eq_ok {x : KvM α} {f : α → KvM β} {kv kv' : Kv} {b : β} :
    exec (x >>= f) kv = (.ok b, kv') ↔ ∃ a kv₁, exec x kv = (.ok a, kv₁) ∧ exec (f a) kv₁ = (.ok b, kv') :=
  Prog.exec_bind_eq_ok

@[simp] theorem exec_get (key : String) (kv : Kv) : exec (get key) kv = (.ok (kv.lookup key), kv) := rfl

@[simp] theorem exec_set (key : String) (value : Bytes) (kv : Kv) :
    exec (set key value) kv = (.ok (), kv.insert key value) := rfl

@[simp] theorem exec_delete (key : String) (kv : Kv) : exec (delete key) kv = (.ok (), kv.erase key) := rfl

@[simp] theorem exec_keys (kv : Kv) : exec keys kv = (.ok (AList.keys kv), kv) := rfl

theorem lookup_insert_eq (key key' : String) (value : Bytes) (kv : Kv) :
    (kv.insert key' value).lookup key = if key = key' then some value else kv.lookup key := by
  split_ifs with h
  · rw [h, AList.lookup_insert]
  · rw [AList.lookup_insert_ne h]

theorem lookup_erase_eq (key key' : String) (kv : Kv) :
    (kv.erase key').lookup key = if key = key' then none else kv.lookup key := by
  split_ifs with h
  · rw [h, AList.lookup_erase]
  · rw [AList.lookup_erase_ne h]

end Kv

end CitadelAgent.Conversations
