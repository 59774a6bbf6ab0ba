import CitadelAgent.Conversations.CborCodec
import CitadelAgent.Lib.JsonText
import CitadelAgent.Lib.Prog
import CitadelAgent.Lib.SortedMap

/-!
# App storage and its quota

`citadel-internal-service/src/kernel/apps/kv/{mod,namespace}.rs`: an app's `local` storage over the account's
LocalDB. Each namespace keeps an index of its keys and the sizes of their values next to the values, and every
operation is a few calls of the bucket, any of which can fail. Operations that write hold the namespace's lock, so
a namespace sees them one after the other. Sums of sizes are natural numbers: within the quota they are far below
`2 ^ 64`.

* `Outcome`, `faulty` : a bucket that refuses calls, or answers an error to a call it carried out;
* `WithinQuota` : every value stored is in the index with at least its size, and the index is within the quota;
* `Torn` : a set that makes a value shorter stops between its two writes;
* `withinQuota_iff` : the quota holds through a run exactly if no operation of it is torn.
-/

namespace CitadelAgent.Apps

abbrev Bytes := List UInt8

/-! ## The bucket -/

/-- The calls of `ConversationKv` that app storage makes. -/
inductive KvOp
  | get (name : String)
  | set (name : String) (value : Bytes)
  | delete (name : String)

abbrev KvOp.Ans : KvOp → Type
  | .get _ => Except String (Option Bytes)
  | .set .. => Except String Unit
  | .delete _ => Except String Unit

abbrev Kv := AList fun _ : String => Bytes

/-! ## Limits -/

def APP_KV_MAX_KEY_BYTES : Nat := 256

def APP_KV_MAX_VALUE_BYTES : Nat := 256 * 1024

def APP_KV_MAX_TOTAL_BYTES : Nat := 4 * 1024 * 1024

def APP_KV_ENTRY_OVERHEAD_BYTES : Nat := 256

def APP_KV_LIST_PAGE : Nat := 100

/-! ## Names -/

inductive AppKvRefusal
  | namespace_
  | key
  | value
  | quota
  | storage
  | session
  deriving DecidableEq

def hexByte (b : UInt8) : List Char := [(b.toNat / 16).digitChar, (b.toNat % 16).digitChar]

/-- `hex::encode`. -/
def hexEncode (text : String) : String := String.ofList ((Conversations.Cbor.utf8 text).flatMap hexByte)

/-- Where one install's records live: their names start with `root`. -/
structure Namespace where
  root : String
  deriving DecidableEq

namespace Namespace

def index (ns : Namespace) : String := ns.root ++ "i"

def entry (ns : Namespace) (key : String) : Except AppKvRefusal String :=
  if key.isEmpty ∨ APP_KV_MAX_KEY_BYTES < key.utf8ByteSize then .error .key else .ok (ns.root ++ "k:" ++ hexEncode key)

end Namespace

/-! ## Operations -/

/-- Every key in a namespace, and the length of its value. -/
abbrev Index := SortedMap String UInt64

/-- How `serde_json` writes and reads an index. -/
structure IndexCodec where
  toVec : Index → Bytes
  fromSlice : Bytes → Except String Index
  fromSlice_toVec : ∀ index, fromSlice (toVec index) = .ok index

inductive AppKvOp
  | get (key : String)
  | set (key : String) (value : Bytes)
  | delete (key : String)
  | list (start after : Option String)

inductive AppKvResult
  | value (value : Option Bytes)
  | done
  | keys (keys : List String) (next : Option String)

abbrev AppKvM (α : Type) := Prog.Fallible KvOp KvOp.Ans AppKvRefusal α

/-- Whatever the bucket's error, the app is told `Storage`. -/
def storage {α : Type} : Except String α → Except AppKvRefusal α
  | .ok a => .ok a
  | .error _ => .error .storage

namespace AppKv

def get (name : String) : AppKvM (Option Bytes) := ExceptT.mk (storage <$> Prog.op (KvOp.get name))

def set (name : String) (value : Bytes) : AppKvM Unit := ExceptT.mk (storage <$> Prog.op (KvOp.set name value))

def delete (name : String) : AppKvM Unit := ExceptT.mk (storage <$> Prog.op (KvOp.delete name))

def refuseWith {α : Type} : Except AppKvRefusal α → AppKvM α
  | .ok a => pure a
  | .error refusal => throw refusal

def decodeIndex (codec : IndexCodec) : Option Bytes → Except AppKvRefusal Index
  | none => .ok SortedMap.empty
  | some bytes =>
    match codec.fromSlice bytes with
    | .ok index => .ok index
    | .error _ => .error .storage

def readIndex (codec : IndexCodec) (ns : Namespace) : AppKvM Index := do
  let record ← get ns.index
  refuseWith (decodeIndex codec record)

def writeIndex (codec : IndexCodec) (ns : Namespace) (index : Index) : AppKvM Unit := set ns.index (codec.toVec index)

def cost (key : String) (valueLen : Nat) : Nat := key.utf8ByteSize + valueLen + APP_KV_ENTRY_OVERHEAD_BYTES

def used (index : Index) : Nat := index.total fun key len => cost key len.toNat

/-- What the index will count with `key` set to a value of `valueLen` bytes. -/
def usedAfter (index : Index) (key : String) (valueLen : Nat) : Nat :=
  used index - (index.get key).elim 0 (fun len => cost key len.toNat) + cost key valueLen

def page (index : Index) (start after : Option String) : AppKvResult :=
  let isMatch := fun key : String =>
    (start.getD "").toList.isPrefixOf key.toList && after.all fun a => decide (a < key)
  let matching := index.keys.filter isMatch
  let keys := matching.take APP_KV_LIST_PAGE
  .keys keys (if (matching.drop APP_KV_LIST_PAGE).isEmpty then none else keys.getLast?)

def run (codec : IndexCodec) (ns : Namespace) : AppKvOp → AppKvM AppKvResult
  | .get key => do
    let name ← refuseWith (ns.entry key)
    let value ← get name
    return .value value
  | .set key value => do
    let name ← refuseWith (ns.entry key)
    if APP_KV_MAX_VALUE_BYTES < value.length then throw .value
    else do
      let index ← readIndex codec ns
      if APP_KV_MAX_TOTAL_BYTES < usedAfter index key value.length then throw .quota
      else do
        writeIndex codec ns (index.insert key (UInt64.ofNat value.length))
        set name value
        return .done
  | .delete key => do
    let name ← refuseWith (ns.entry key)
    delete name
    let index ← readIndex codec ns
    if (index.get key).isSome then do
      writeIndex codec ns (index.erase key)
      return .done
    else return .done
  | .list start after => do
    let index ← readIndex codec ns
    return page index start after

end AppKv

/-! ## A bucket that fails -/

/-- What becomes of a call: it is carried out and answered, refused, or carried out and answered with an error. -/
inductive Outcome
  | done
  | refused
  | lost
  deriving DecidableEq

namespace Outcome

def answer {α : Type} (outcome : Outcome) (a : α) : Except String α :=
  match outcome with
  | .done => .ok a
  | _ => .error "failed"

def after (outcome : Outcome) (kv written : Kv) : Kv :=
  match outcome with
  | .refused => kv
  | _ => written

end Outcome

abbrev Outcomes := List Outcome

def faulty : (o : KvOp) → Kv × Outcomes → o.Ans × Kv × Outcomes
  | .get name, (kv, outcomes) => ((outcomes.headD .done).answer (kv.lookup name), kv, outcomes.tail)
  | .set name value, (kv, outcomes) =>
    ((outcomes.headD .done).answer (), (outcomes.headD .done).after kv (kv.insert name value), outcomes.tail)
  | .delete name, (kv, outcomes) =>
    ((outcomes.headD .done).answer (), (outcomes.headD .done).after kv (kv.erase name), outcomes.tail)

structure Step where
  op : AppKvOp
  outcomes : Outcomes

def Step.apply (codec : IndexCodec) (ns : Namespace) (kv : Kv) (step : Step) : Kv :=
  (Prog.exec faulty (AppKv.run codec ns step.op) (kv, step.outcomes)).2.1

def runSteps (codec : IndexCodec) (ns : Namespace) (kv : Kv) (steps : List Step) : Kv :=
  steps.foldl (Step.apply codec ns) kv

/-! ## Names do not clash -/

theorem digitChar_inj {m n : Nat} (hm : m < 16) (hn : n < 16) (h : m.digitChar = n.digitChar) : m = n := by
  have hall : ∀ m n : Fin 16, (m : Nat).digitChar = (n : Nat).digitChar → m = n := by decide
  exact congrArg Fin.val (hall ⟨m, hm⟩ ⟨n, hn⟩ h)

theorem hexByte_inj {a b : UInt8} (h : hexByte a = hexByte b) : a = b := by
  have ha := a.toNat_lt
  have hb := b.toNat_lt
  simp only [hexByte, List.cons.injEq, and_true] at h
  have hhigh := digitChar_inj (by omega) (by omega) h.1
  have hlow := digitChar_inj (by omega) (by omega) h.2
  exact UInt8.toNat_inj.mp (by omega)

theorem flatMap_hexByte_inj {a b : List UInt8} (h : a.flatMap hexByte = b.flatMap hexByte) : a = b := by
  induction a generalizing b with
  | nil =>
    cases b with
    | nil => rfl
    | cons y b => simp [hexByte] at h
  | cons x a ih =>
    cases b with
    | nil => simp [hexByte] at h
    | cons y b =>
      rw [List.flatMap_cons, List.flatMap_cons] at h
      obtain ⟨hx, hrest⟩ := List.append_inj h rfl
      rw [hexByte_inj hx, ih hrest]

theorem hexEncode_inj {a b : String} (h : hexEncode a = hexEncode b) : a = b := by
  have hbytes := flatMap_hexByte_inj (String.ofList_injective h)
  have ha := Conversations.Cbor.fromUtf8_utf8 a
  rw [hbytes, Conversations.Cbor.fromUtf8_utf8 b] at ha
  exact (Option.some.inj ha).symm

variable {key name : String} {ns : Namespace} {value : Bytes} {outcomes : Outcomes}

namespace Namespace

theorem entry_eq_ok (h : ns.entry key = .ok name) :
    name = ns.root ++ "k:" ++ hexEncode key := by
  unfold entry at h
  split at h
  · cases h
  · exact (Except.ok.inj h).symm

theorem entry_inj {key' : String} (h : ns.entry key = .ok name) (h' : ns.entry key' = .ok name) :
    key = key' := by
  have heq := (entry_eq_ok h).symm.trans (entry_eq_ok h')
  exact hexEncode_inj (String.append_right_inj _ |>.mp heq)

theorem entry_ne_index (h : ns.entry key = .ok name) : name ≠ ns.index := by
  rw [entry_eq_ok h, index, String.append_assoc]
  intro heq
  have heq := congrArg String.toList (String.append_right_inj _ |>.mp heq)
  rw [String.toList_append] at heq
  exact absurd (congrArg List.head? heq) (by simp)

end Namespace

/-! ## The quota -/

def indexOf (codec : IndexCodec) (ns : Namespace) (kv : Kv) : Except AppKvRefusal Index :=
  AppKv.decodeIndex codec (kv.lookup ns.index)

def storedAt (ns : Namespace) (kv : Kv) (key : String) : Option Bytes :=
  match ns.entry key with
  | .ok name => kv.lookup name
  | .error _ => none

def storedCost (ns : Namespace) (kv : Kv) (key : String) : Nat :=
  (storedAt ns kv key).elim 0 fun value => AppKv.cost key value.length

/-- Every value stored has an index entry at least as large; so whatever stored values are added up take at most
what the index counts, and that is within the quota. -/
structure WithinQuota (codec : IndexCodec) (ns : Namespace) (kv : Kv) (index : Index) : Prop where
  read : indexOf codec ns kv = .ok index
  counted : ∀ key value, storedAt ns kv key = some value → ∃ len, index.get key = some len ∧ value.length ≤ len.toNat
  usage : ∀ keys : Finset String, ∑ key ∈ keys, storedCost ns kv key ≤ AppKv.used index
  total : AppKv.used index ≤ APP_KV_MAX_TOTAL_BYTES

/-- A set that makes the stored value shorter, whose index write is carried out and whose value write is not: the
call before it answers an error, or it is refused itself. -/
def Torn (ns : Namespace) (kv : Kv) (step : Step) : Prop :=
  match step.op with
  | .set key value =>
    value.length ≤ APP_KV_MAX_VALUE_BYTES ∧ (∃ stored, storedAt ns kv key = some stored ∧ value.length < stored.length) ∧
      step.outcomes.headD .done = .done ∧
      (step.outcomes.tail.headD .done = .lost ∨
        step.outcomes.tail.headD .done = .done ∧ step.outcomes.tail.tail.headD .done = .refused)
  | _ => False

/-! ## What an operation leaves -/

section exec

variable {codec : IndexCodec} {ns : Namespace} {kv : Kv} {outcomes : Outcomes}

@[simp] theorem exec_refuseWith {α : Type} (x : Except AppKvRefusal α) (s : Kv × Outcomes) :
    Prog.exec faulty (AppKv.refuseWith x) s = (x, s) := by
  cases x with
  | ok a => rfl
  | error e => rfl

theorem exec_get (name : String) :
    Prog.exec faulty (AppKv.get name) (kv, outcomes) =
      (storage ((outcomes.headD .done).answer (kv.lookup name)), kv, outcomes.tail) := rfl

theorem exec_set (name : String) (value : Bytes) :
    Prog.exec faulty (AppKv.set name value) (kv, outcomes) =
      (storage ((outcomes.headD .done).answer ()), (outcomes.headD .done).after kv (kv.insert name value),
        outcomes.tail) := rfl

theorem exec_delete (name : String) :
    Prog.exec faulty (AppKv.delete name) (kv, outcomes) =
      (storage ((outcomes.headD .done).answer ()), (outcomes.headD .done).after kv (kv.erase name), outcomes.tail) := rfl

theorem exec_readIndex :
    Prog.exec faulty (AppKv.readIndex codec ns) (kv, outcomes) =
      (if outcomes.headD .done = .done then indexOf codec ns kv else .error .storage, kv, outcomes.tail) := by
  rw [AppKv.readIndex, Prog.exec_bind, exec_get]
  cases h : outcomes.headD .done with
  | done => simp [Outcome.answer, storage, indexOf]
  | refused => simp [Outcome.answer, storage]
  | lost => simp [Outcome.answer, storage]

def setWrites (codec : IndexCodec) (ns : Namespace) (kv : Kv) (index : Index) (name : String) (value : Bytes)
    (key : String) (first second : Outcome) : Kv :=
  let written := first.after kv (kv.insert ns.index (codec.toVec (index.insert key (UInt64.ofNat value.length))))
  if first = .done then second.after written (written.insert name value) else written

structure SetAdmitted (ns : Namespace) (index : Index) (key : String) (value : Bytes) (outcomes : Outcomes)
    (name : String) : Prop where
  entry : ns.entry key = .ok name
  length : value.length ≤ APP_KV_MAX_VALUE_BYTES
  read : outcomes.headD .done = .done
  quota : AppKv.usedAfter index key value.length ≤ APP_KV_MAX_TOTAL_BYTES

theorem apply_set (key : String) (value : Bytes) (outcomes : Outcomes) {index : Index} (hread : indexOf codec ns kv = .ok index) :
    (¬ ∃ name, SetAdmitted ns index key value outcomes name) ∧ Step.apply codec ns kv ⟨.set key value, outcomes⟩ = kv ∨
    ∃ name, SetAdmitted ns index key value outcomes name ∧
      Step.apply codec ns kv ⟨.set key value, outcomes⟩ =
        setWrites codec ns kv index name value key (outcomes.tail.headD .done) (outcomes.tail.tail.headD .done) := by
  unfold Step.apply AppKv.run
  simp only [Prog.exec_bind, exec_refuseWith]
  cases hname : ns.entry key with
  | error refusal =>
    refine .inl ⟨?_, rfl⟩
    rintro ⟨name, hadmitted⟩
    cases hname.symm.trans hadmitted.entry
  | ok name =>
    rw [Prog.resume_ok]
    by_cases hlen : APP_KV_MAX_VALUE_BYTES < value.length
    · rw [if_pos hlen]
      exact .inl ⟨fun ⟨name, hadmitted⟩ => Nat.not_lt.mpr hadmitted.length hlen, rfl⟩
    rw [if_neg hlen, Prog.exec_bind, exec_readIndex]
    by_cases hfirst : outcomes.headD .done = .done
    · rw [if_pos hfirst, hread, Prog.resume_ok]
      by_cases hquota : APP_KV_MAX_TOTAL_BYTES < AppKv.usedAfter index key value.length
      · rw [if_pos hquota]
        exact .inl ⟨fun ⟨name, hadmitted⟩ => Nat.not_lt.mpr hadmitted.quota hquota, rfl⟩
      rw [if_neg hquota, Prog.exec_bind, AppKv.writeIndex, exec_set]
      refine .inr ⟨name, ⟨hname, Nat.not_lt.mp hlen, hfirst, Nat.not_lt.mp hquota⟩, ?_⟩
      unfold setWrites
      cases hindex : outcomes.tail.headD .done with
      | done =>
        simp only [Outcome.answer, storage, Prog.resume_ok, Prog.exec_bind, exec_set, if_true]
        cases outcomes.tail.tail.headD .done with
        | done => rfl
        | refused => rfl
        | lost => rfl
      | refused => rfl
      | lost => rfl
    · rw [if_neg hfirst]
      exact .inl ⟨fun ⟨name, hadmitted⟩ => hfirst hadmitted.read, rfl⟩

theorem indexOf_erase (h : ns.entry key = .ok name) :
    indexOf codec ns (kv.erase name) = indexOf codec ns kv := by
  rw [indexOf, indexOf, AList.lookup_erase_ne (Ne.symm (Namespace.entry_ne_index h))]

theorem apply_delete (key : String) (outcomes : Outcomes) {index : Index} (hread : indexOf codec ns kv = .ok index) :
    Step.apply codec ns kv ⟨.delete key, outcomes⟩ = kv ∨
    ∃ name, ns.entry key = .ok name ∧
      (Step.apply codec ns kv ⟨.delete key, outcomes⟩ = kv.erase name ∨
        Step.apply codec ns kv ⟨.delete key, outcomes⟩ =
          (kv.erase name).insert ns.index (codec.toVec (index.erase key))) := by
  unfold Step.apply AppKv.run
  simp only [Prog.exec_bind, exec_refuseWith]
  cases hname : ns.entry key with
  | error refusal => exact .inl rfl
  | ok name =>
    rw [Prog.resume_ok, Prog.exec_bind, exec_delete]
    cases hfirst : outcomes.headD .done with
    | refused => exact .inl rfl
    | lost => exact .inr ⟨name, rfl, .inl rfl⟩
    | done =>
      refine .inr ⟨name, rfl, ?_⟩
      simp only [Outcome.answer, Outcome.after, storage, Prog.resume_ok, Prog.exec_bind, exec_readIndex,
        indexOf_erase hname, hread]
      by_cases hsecond : outcomes.tail.headD .done = .done
      · rw [if_pos hsecond, Prog.resume_ok]
        by_cases hsome : (index.get key).isSome
        · rw [if_pos hsome, Prog.exec_bind, AppKv.writeIndex, exec_set]
          cases outcomes.tail.tail.headD .done with
          | done => exact .inr rfl
          | refused => exact .inl rfl
          | lost => exact .inr rfl
        · rw [if_neg hsome]
          exact .inl rfl
      · rw [if_neg hsecond]
        exact .inl rfl

theorem apply_get (key : String) : Step.apply codec ns kv ⟨.get key, outcomes⟩ = kv := by
  unfold Step.apply AppKv.run
  simp only [Prog.exec_bind, exec_refuseWith]
  cases ns.entry key with
  | error refusal => rfl
  | ok name =>
    rw [Prog.resume_ok, Prog.exec_bind, exec_get]
    cases outcomes.headD .done with
    | done => rfl
    | refused => rfl
    | lost => rfl

theorem apply_list (start after : Option String) : Step.apply codec ns kv ⟨.list start after, outcomes⟩ = kv := by
  unfold Step.apply AppKv.run
  rw [Prog.exec_bind, exec_readIndex]
  cases (if outcomes.headD .done = .done then indexOf codec ns kv else .error .storage) with
  | ok index => rfl
  | error refusal => rfl

end exec

/-! ## One operation -/

section quota

variable {codec : IndexCodec} {ns : Namespace} {kv : Kv} {index : Index}

theorem indexOf_insert_index (index : Index) :
    indexOf codec ns (kv.insert ns.index (codec.toVec index)) = .ok index := by
  simp [indexOf, AppKv.decodeIndex, codec.fromSlice_toVec]

theorem indexOf_insert_entry (h : ns.entry key = .ok name) (value : Bytes) :
    indexOf codec ns (kv.insert name value) = indexOf codec ns kv := by
  rw [indexOf, indexOf, AList.lookup_insert_ne (Ne.symm (Namespace.entry_ne_index h))]

theorem storedAt_insert_index (bytes : Bytes) (key : String) :
    storedAt ns (kv.insert ns.index bytes) key = storedAt ns kv key := by
  unfold storedAt
  cases h : ns.entry key with
  | ok name => exact AList.lookup_insert_ne (Namespace.entry_ne_index h)
  | error refusal => rfl

theorem storedAt_insert_entry (h : ns.entry key = .ok name) (value : Bytes) (key' : String) :
    storedAt ns (kv.insert name value) key' = if key' = key then some value else storedAt ns kv key' := by
  unfold storedAt
  split
  · rename_i name' h'
    split
    · rename_i heq
      subst heq
      obtain rfl : name = name' := Except.ok.inj (h.symm.trans h')
      exact AList.lookup_insert _
    · rename_i hne
      refine AList.lookup_insert_ne fun heq => hne ?_
      subst heq
      exact Namespace.entry_inj h' h
  · rename_i refusal h'
    rw [if_neg]
    rintro rfl
    cases h.symm.trans h'

theorem storedAt_erase (h : ns.entry key = .ok name) (key' : String) :
    storedAt ns (kv.erase name) key' = if key' = key then none else storedAt ns kv key' := by
  unfold storedAt
  split
  · rename_i name' h'
    split
    · rename_i heq
      subst heq
      obtain rfl : name = name' := Except.ok.inj (h.symm.trans h')
      exact AList.lookup_erase _ _
    · rename_i hne
      refine AList.lookup_erase_ne fun heq => hne ?_
      subst heq
      exact Namespace.entry_inj h' h
  · split <;> rfl

theorem withinQuota_of (hread : indexOf codec ns kv = .ok index)
    (hcounted : ∀ key value, storedAt ns kv key = some value → ∃ len, index.get key = some len ∧ value.length ≤ len.toNat)
    (htotal : AppKv.used index ≤ APP_KV_MAX_TOTAL_BYTES) : WithinQuota codec ns kv index := by
  refine ⟨hread, hcounted, fun keys => ?_, htotal⟩
  refine index.sum_le_total _ _ (fun key => ?_) keys
  unfold storedCost
  cases hstored : storedAt ns kv key with
  | none => exact .inl rfl
  | some value =>
    obtain ⟨len, hlen, hle⟩ := hcounted key value hstored
    refine .inr ⟨len, hlen, ?_⟩
    simp only [Option.elim_some, AppKv.cost]
    omega

theorem used_insert (index : Index) (key : String) {valueLen : Nat} (h : valueLen ≤ APP_KV_MAX_VALUE_BYTES) :
    AppKv.used (index.insert key (UInt64.ofNat valueLen)) = AppKv.usedAfter index key valueLen := by
  have hinsert := index.total_insert (fun key len => AppKv.cost key len.toNat) key (UInt64.ofNat valueLen)
  have herase := index.total_erase (fun key len => AppKv.cost key len.toNat) key
  have hlen : (UInt64.ofNat valueLen).toNat = valueLen := by
    rw [UInt64.toNat_ofNat', Nat.mod_eq_of_lt]
    unfold APP_KV_MAX_VALUE_BYTES at h
    omega
  rw [hlen] at hinsert
  unfold AppKv.usedAfter AppKv.used
  omega

theorem used_erase_le (index : Index) (key : String) : AppKv.used (index.erase key) ≤ AppKv.used index := by
  have herase := index.total_erase (fun key len => AppKv.cost key len.toNat) key
  unfold AppKv.used
  omega

theorem WithinQuota.written (h : WithinQuota codec ns kv index) (ha : SetAdmitted ns index key value outcomes name)
    (hfits : ∀ stored, storedAt ns kv key = some stored → stored.length ≤ value.length) :
    WithinQuota codec ns (kv.insert ns.index (codec.toVec (index.insert key (UInt64.ofNat value.length))))
      (index.insert key (UInt64.ofNat value.length)) := by
  refine withinQuota_of (indexOf_insert_index _) (fun k stored hs => ?_) ?_
  · rw [storedAt_insert_index] at hs
    rw [SortedMap.get_insert]
    split
    · rename_i hk
      subst hk
      refine ⟨_, rfl, ?_⟩
      have hle := hfits stored hs
      have hlen := ha.length
      unfold APP_KV_MAX_VALUE_BYTES at hlen
      rw [UInt64.toNat_ofNat', Nat.mod_eq_of_lt (by omega)]
      exact hle
    · exact h.counted k stored hs
  · rw [used_insert index key ha.length]
    exact ha.quota

theorem WithinQuota.set (h : WithinQuota codec ns kv index) (ha : SetAdmitted ns index key value outcomes name) :
    WithinQuota codec ns
      ((kv.insert ns.index (codec.toVec (index.insert key (UInt64.ofNat value.length)))).insert name value)
      (index.insert key (UInt64.ofNat value.length)) := by
  refine withinQuota_of (by rw [indexOf_insert_entry ha.entry, indexOf_insert_index]) (fun k stored hs => ?_) ?_
  · rw [storedAt_insert_entry ha.entry, storedAt_insert_index] at hs
    rw [SortedMap.get_insert]
    split at hs
    · rename_i hk
      rw [if_pos hk]
      refine ⟨_, rfl, ?_⟩
      have hlen := ha.length
      unfold APP_KV_MAX_VALUE_BYTES at hlen
      rw [UInt64.toNat_ofNat', Nat.mod_eq_of_lt (by omega), Option.some.inj hs]
    · rename_i hk
      rw [if_neg hk]
      exact h.counted k stored hs
  · rw [used_insert index key ha.length]
    exact ha.quota

theorem WithinQuota.erased (h : WithinQuota codec ns kv index) (hname : ns.entry key = .ok name) :
    WithinQuota codec ns (kv.erase name) index := by
  refine withinQuota_of (by rw [indexOf_erase hname, h.read]) (fun k stored hs => ?_) h.total
  rw [storedAt_erase hname] at hs
  split at hs
  · cases hs
  · exact h.counted k stored hs

theorem WithinQuota.delisted (h : WithinQuota codec ns kv index) (hname : ns.entry key = .ok name) :
    WithinQuota codec ns ((kv.erase name).insert ns.index (codec.toVec (index.erase key))) (index.erase key) := by
  refine withinQuota_of (indexOf_insert_index _) (fun k stored hs => ?_) ((used_erase_le index key).trans h.total)
  rw [storedAt_insert_index, storedAt_erase hname] at hs
  split at hs
  · cases hs
  · rename_i hk
    rw [SortedMap.get_erase, if_neg hk]
    exact h.counted k stored hs

theorem WithinQuota.admits (h : WithinQuota codec ns kv index) {stored : Bytes} (hlen : value.length ≤ APP_KV_MAX_VALUE_BYTES)
    (hs : storedAt ns kv key = some stored) (hshort : value.length < stored.length) (hread : outcomes.headD .done = .done) :
    ∃ name, SetAdmitted ns index key value outcomes name := by
  have hentry : ∃ name, ns.entry key = .ok name := by
    unfold storedAt at hs
    split at hs
    · rename_i name hname
      exact ⟨name, hname⟩
    · cases hs
  obtain ⟨name, hname⟩ := hentry
  obtain ⟨len, hget, hle⟩ := h.counted key stored hs
  have herase := index.total_erase (fun key len => AppKv.cost key len.toNat) key
  have htotal := h.total
  refine ⟨name, hname, hlen, hread, ?_⟩
  unfold AppKv.usedAfter AppKv.used AppKv.cost at *
  rw [hget] at herase ⊢
  simp only [Option.elim_some] at herase ⊢
  omega

theorem WithinQuota.written_iff (h : WithinQuota codec ns kv index) (ha : SetAdmitted ns index key value outcomes name) :
    (∃ next, WithinQuota codec ns (kv.insert ns.index (codec.toVec (index.insert key (UInt64.ofNat value.length)))) next) ↔
      ∀ stored, storedAt ns kv key = some stored → stored.length ≤ value.length := by
  refine ⟨?_, fun hfits => ⟨_, h.written ha hfits⟩⟩
  rintro ⟨next, hnext⟩ stored hs
  obtain rfl : index.insert key (UInt64.ofNat value.length) = next :=
    Except.ok.inj ((indexOf_insert_index _).symm.trans hnext.read)
  obtain ⟨len, hget, hle⟩ := hnext.counted key stored (by rw [storedAt_insert_index, hs])
  rw [SortedMap.get_insert, if_pos rfl] at hget
  obtain rfl := Option.some.inj hget
  have hlen := ha.length
  unfold APP_KV_MAX_VALUE_BYTES at hlen
  rwa [UInt64.toNat_ofNat', Nat.mod_eq_of_lt (by omega)] at hle

theorem torn_set_iff (ha : SetAdmitted ns index key value outcomes name) :
    Torn ns kv ⟨.set key value, outcomes⟩ ↔
      (¬ ∀ stored, storedAt ns kv key = some stored → stored.length ≤ value.length) ∧
        (outcomes.tail.headD .done = .lost ∨
          outcomes.tail.headD .done = .done ∧ outcomes.tail.tail.headD .done = .refused) := by
  simp only [Torn, ha.length, ha.read, true_and, not_forall, Nat.not_le, exists_prop]

theorem WithinQuota.step_iff (h : WithinQuota codec ns kv index) (step : Step) :
    (∃ next, WithinQuota codec ns (step.apply codec ns kv) next) ↔ ¬ Torn ns kv step := by
  obtain ⟨op, outcomes⟩ := step
  cases op with
  | get key =>
    rw [apply_get]
    exact ⟨fun _ ht => ht, fun _ => ⟨index, h⟩⟩
  | list start after =>
    rw [apply_list]
    exact ⟨fun _ ht => ht, fun _ => ⟨index, h⟩⟩
  | delete key =>
    refine ⟨fun _ ht => ht, fun _ => ?_⟩
    rcases apply_delete key outcomes h.read with heq | ⟨name, hname, heq | heq⟩
    · exact ⟨index, by rw [heq]; exact h⟩
    · exact ⟨index, by rw [heq]; exact h.erased hname⟩
    · exact ⟨_, by rw [heq]; exact h.delisted hname⟩
  | set key value =>
    rcases apply_set key value outcomes h.read with ⟨hnot, heq⟩ | ⟨name, ha, heq⟩
    · rw [heq]
      refine ⟨fun _ ht => ?_, fun _ => ⟨index, h⟩⟩
      obtain ⟨hlen, ⟨stored, hs, hshort⟩, hread, -⟩ := ht
      exact hnot (h.admits hlen hs hshort hread)
    · rw [heq, torn_set_iff ha]
      unfold setWrites
      generalize outcomes.tail.headD .done = first
      generalize outcomes.tail.tail.headD .done = second
      cases first with
      | refused => exact ⟨fun _ ht => (by simp at ht), fun _ => ⟨index, h⟩⟩
      | lost =>
        refine (h.written_iff ha).trans ?_
        simp
      | done =>
        cases second with
        | refused =>
          refine (h.written_iff ha).trans ?_
          simp
        | done => exact ⟨fun _ ht => (by simp at ht), fun _ => ⟨_, h.set ha⟩⟩
        | lost => exact ⟨fun _ ht => (by simp at ht), fun _ => ⟨_, h.set ha⟩⟩

end quota

/-! ## Whole runs -/

structure Fresh (ns : Namespace) (kv : Kv) : Prop where
  index : kv.lookup ns.index = none
  values : ∀ key, storedAt ns kv key = none

theorem Fresh.withinQuota {kv : Kv} (h : Fresh ns kv) (codec : IndexCodec) :
    WithinQuota codec ns kv SortedMap.empty := by
  refine withinQuota_of ?_ (fun key value hs => ?_) (Nat.zero_le _)
  · rw [indexOf, h.index]
    rfl
  · rw [h.values key] at hs
    cases hs

theorem runSteps_snoc (codec : IndexCodec) (ns : Namespace) (kv : Kv) (steps : List Step) (step : Step) :
    runSteps codec ns kv (steps ++ [step]) = step.apply codec ns (runSteps codec ns kv steps) := by
  simp [runSteps]

/-- **App storage stays within its quota exactly if no set that makes a value shorter is torn**, whatever calls of the
run fail. -/
theorem withinQuota_iff (codec : IndexCodec) (ns : Namespace) (kv : Kv) (hfresh : Fresh ns kv) (steps : List Step) :
    (∀ before after, steps = before ++ after → ∃ index, WithinQuota codec ns (runSteps codec ns kv before) index) ↔
      ∀ before step after, steps = before ++ step :: after → ¬ Torn ns (runSteps codec ns kv before) step := by
  constructor
  · intro h before step after hsplit
    obtain ⟨index, hindex⟩ := h before (step :: after) hsplit
    rw [← hindex.step_iff step, ← runSteps_snoc]
    exact h (before ++ [step]) after (by simp [hsplit])
  · intro h before
    induction before using List.reverseRecOn with
    | nil => exact fun after _ => ⟨_, hfresh.withinQuota codec⟩
    | append_singleton before step ih =>
      intro after hsplit
      have hsplit : steps = before ++ step :: after := by simpa using hsplit
      obtain ⟨index, hindex⟩ := ih (step :: after) hsplit
      rw [runSteps_snoc]
      exact (hindex.step_iff step).mpr (h before step after hsplit)

/-! ## A value that is made shorter -/

/-- The index as `serde_json` writes it. -/
def serdeJson : IndexCodec where
  toVec index :=
    Conversations.Cbor.utf8 (String.ofList (JsonText.writeObject (index.entries.map fun e => (e.1.toList, e.2.toNat))))
  fromSlice bytes :=
    match (Conversations.Cbor.fromUtf8 bytes).bind fun text => JsonText.readObject text.toList with
    | none => .error "not an index"
    | some entries => .ok (SortedMap.ofEntries (entries.map fun e => (String.ofList e.1, UInt64.ofNat e.2)))
  fromSlice_toVec index := by
    simp only [Conversations.Cbor.fromUtf8_utf8, Option.bind_some, String.toList_ofList, JsonText.readObject_writeObject,
      List.map_map]
    have hentries : (fun e : List Char × Nat => (String.ofList e.1, UInt64.ofNat e.2)) ∘
        (fun e : String × UInt64 => (e.1.toList, e.2.toNat)) = id := by
      funext e
      simp
    rw [hentries, List.map_id, SortedMap.ofEntries_entries]

def boardSpace : Namespace := ⟨"app:com.acme.kanban:776f726b7370616365:616c696365:"⟩

theorem fresh_empty (ns : Namespace) : Fresh ns ∅ := by
  refine ⟨rfl, fun key => ?_⟩
  unfold storedAt
  split <;> rfl

/-- A first set whose value write fails leaves the index over the usage. -/
theorem withinQuota_interrupted :
    ∃ index, WithinQuota serdeJson boardSpace
      (runSteps serdeJson boardSpace ∅ [⟨.set "board" [1, 2, 3], [.done, .done, .refused]⟩]) index := by
  refine (withinQuota_iff serdeJson boardSpace ∅ (fresh_empty _) _).mpr ?_ _ [] (List.append_nil _).symm
  intro before step after hsplit ht
  have hlen := congrArg List.length hsplit
  simp only [List.length_append, List.length_cons, List.length_nil] at hlen
  obtain rfl : before = [] := List.eq_nil_of_length_eq_zero (by omega)
  obtain rfl : _ = step := (List.cons.inj hsplit).1
  obtain ⟨-, ⟨stored, hs, -⟩, -⟩ := ht
  rw [show runSteps serdeJson boardSpace ∅ [] = ∅ from rfl, (fresh_empty boardSpace).values] at hs
  cases hs

theorem setAdmitted_board : ∃ name, SetAdmitted boardSpace SortedMap.empty "board" [1, 2, 3] [] name := by
  refine ⟨_, ⟨if_neg ?_, by decide, rfl, by decide⟩⟩
  rintro (h | h)
  · exact absurd h (by decide)
  · exact absurd h (by decide)

/-- A value of three bytes is set, and set again to one byte while the bucket refuses the value. -/
theorem shrink_interrupted :
    ¬ ∀ before after,
      [⟨.set "board" [1, 2, 3], []⟩, ⟨.set "board" [1], [.done, .done, .refused]⟩] = before ++ after →
        ∃ index, WithinQuota serdeJson boardSpace (runSteps serdeJson boardSpace ∅ before) index := by
  intro h
  obtain ⟨first, hfirst⟩ := h [⟨.set "board" [1, 2, 3], []⟩] [⟨.set "board" [1], [.done, .done, .refused]⟩] rfl
  obtain ⟨second, hsecond⟩ :=
    h [⟨.set "board" [1, 2, 3], []⟩, ⟨.set "board" [1], [.done, .done, .refused]⟩] [] rfl
  refine (hfirst.step_iff ⟨.set "board" [1], [.done, .done, .refused]⟩).mp ⟨second, hsecond⟩ ?_
  refine ⟨by decide, ⟨[1, 2, 3], ?_, by decide⟩, rfl, .inr ⟨rfl, rfl⟩⟩
  have hread := ((fresh_empty boardSpace).withinQuota serdeJson).read
  rcases apply_set "board" [1, 2, 3] [] hread with ⟨hnot, -⟩ | ⟨name, ha, heq⟩
  · exact absurd setAdmitted_board hnot
  · have hrun : runSteps serdeJson boardSpace ∅ [⟨.set "board" [1, 2, 3], []⟩] =
        ((∅ : Kv).insert boardSpace.index (serdeJson.toVec (SortedMap.empty.insert "board" 3))).insert name [1, 2, 3] := heq
    rw [hrun, storedAt_insert_entry ha.entry, if_pos rfl]

end CitadelAgent.Apps
