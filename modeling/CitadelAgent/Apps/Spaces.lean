import CitadelAgent.Apps.Kv
import CitadelAgent.Ihttp.Codec
import CitadelAgent.Lib.ProgRuns
import CitadelAgent.NetPolicy.Url

/-!
# Namespaces never meet

`citadel-internal-service/src/kernel/apps/kv/namespace.rs`: an app, a scope and an account have their records under one
prefix, `app:<app_id>:<hex scope_key>:<hex username>:`. The app id has no colon, and hexadecimal has none.

* `Namespace.root_append` : a record shows the namespace it is in, and what of the record is its own;
* `namespaces_apart` : so no two meet, and an operation on one leaves the records of all others.
-/

namespace CitadelAgent.Apps
open Ihttp.Wire (validateAppId graphic MAX_SCOPE_KEY_BYTES)

def APP_STORAGE_PREFIX : String := "app:"

def Namespace.new (appId scopeKey username : String) : Except AppKvRefusal Namespace :=
  if validateAppId appId = false then .error .namespace_
  else if scopeKey.isEmpty ∨ MAX_SCOPE_KEY_BYTES < scopeKey.utf8ByteSize ∨ graphic scopeKey = false ∨ username.isEmpty then
    .error .namespace_
  else .ok ⟨APP_STORAGE_PREFIX ++ appId ++ ":" ++ hexEncode scopeKey ++ ":" ++ hexEncode username ++ ":"⟩

/-- `owns`: whether a stored name is a record of the namespace. -/
def Namespace.owns (ns : Namespace) (stored : String) : Bool := ns.root.toList.isPrefixOf stored.toList

/-! ## No colon in a component -/

theorem append_cons_inj {α : Type} {c : α} : ∀ {x x' z z' : List α}, c ∉ x → c ∉ x' →
    x ++ c :: z = x' ++ c :: z' → x = x' ∧ z = z'
  | [], [], _, _, _, _, h => ⟨rfl, (List.cons.inj h).2⟩
  | [], a :: x', _, _, _, hx', h => absurd (List.cons.inj h).1 fun heq => hx' (heq ▸ List.mem_cons_self)
  | a :: x, [], _, _, hx, _, h => absurd (List.cons.inj h).1 fun heq => hx (heq ▸ List.mem_cons_self)
  | a :: x, b :: x', _, _, hx, hx', h => by
    obtain ⟨rfl, hrest⟩ := List.cons.inj h
    obtain ⟨rfl, rfl⟩ := append_cons_inj (fun hc => hx (List.mem_cons_of_mem _ hc))
      (fun hc => hx' (List.mem_cons_of_mem _ hc)) hrest
    exact ⟨rfl, rfl⟩

theorem notMem_hexEncode (text : String) : ':' ∉ (hexEncode text).toList := by
  rw [hexEncode, String.toList_ofList]
  intro h
  obtain ⟨b, -, hb⟩ := List.mem_flatMap.mp h
  have hdigit : ∀ n : Fin 16, ':' ≠ (n : Nat).digitChar := by decide
  have hlt := b.toNat_lt
  simp only [hexByte, List.mem_cons, List.not_mem_nil, or_false] at hb
  rcases hb with hb | hb
  · exact hdigit ⟨b.toNat / 16, by omega⟩ hb
  · exact hdigit ⟨b.toNat % 16, by omega⟩ hb

theorem notMem_of_validateAppId {id : String} {c : Char} (h : validateAppId id = true) (hdot : c ≠ '.')
    (hplain : (c.isLower || c.isDigit || c = '-') = false) : c ∉ id.toList := by
  simp only [validateAppId, Bool.and_eq_true, decide_eq_true_eq] at h
  have hlabels := List.all_eq_true.mp h.1.2
  intro hmem
  have hjoin : ['.'].intercalate (id.toList.splitOn '.') = id.toList := List.intercalate_splitOn '.'
  rw [← hjoin] at hmem
  rcases NetPolicy.mem_intercalate hmem with hc | ⟨label, hlabel, hc⟩
  · exact hdot hc
  · have hok := hlabels label hlabel
    match label, hok, hc with
    | first :: rest, hok, hc =>
      simp only [Ihttp.Wire.labelOk, Bool.and_eq_true, List.all_eq_true] at hok
      rcases List.mem_cons.mp hc with rfl | hc
      · rw [hok.1] at hplain
        exact absurd hplain (by simp)
      · exact absurd (hok.2 _ hc) (by rw [hplain]; exact Bool.false_ne_true)

/-! ## A record shows where it is -/

theorem Namespace.new_eq_ok {appId scopeKey username : String} {ns : Namespace}
    (h : Namespace.new appId scopeKey username = .ok ns) :
    validateAppId appId = true ∧ ns.root.toList =
      "app:".toList ++ (appId.toList ++ ':' :: ((hexEncode scopeKey).toList ++ ':' :: ((hexEncode username).toList ++ [':']))) := by
  unfold Namespace.new at h
  split_ifs at h with happ hrest
  rw [← Except.ok.inj h]
  refine ⟨by simpa using happ, ?_⟩
  simp [APP_STORAGE_PREFIX, String.toList_append]

/-- **The prefix of a record is that of its namespace, and of no other.** -/
theorem Namespace.root_append {appId scopeKey username appId' scopeKey' username' : String} {ns ns' : Namespace}
    (h : Namespace.new appId scopeKey username = .ok ns) (h' : Namespace.new appId' scopeKey' username' = .ok ns')
    {own own' : List Char} (heq : ns.root.toList ++ own = ns'.root.toList ++ own') :
    (appId = appId' ∧ scopeKey = scopeKey' ∧ username = username') ∧ own = own' := by
  obtain ⟨happ, hroot⟩ := new_eq_ok h
  obtain ⟨happ', hroot'⟩ := new_eq_ok h'
  rw [hroot, hroot'] at heq
  simp only [List.append_assoc, List.cons_append, List.nil_append] at heq
  have heq := List.append_cancel_left heq
  obtain ⟨hid, heq⟩ := append_cons_inj (notMem_of_validateAppId happ (by decide) (by decide))
    (notMem_of_validateAppId happ' (by decide) (by decide)) heq
  obtain ⟨hscope, heq⟩ := append_cons_inj (notMem_hexEncode _) (notMem_hexEncode _) heq
  obtain ⟨huser, heq⟩ := append_cons_inj (notMem_hexEncode _) (notMem_hexEncode _) heq
  exact ⟨⟨String.toList_inj.mp hid, hexEncode_inj (String.toList_inj.mp hscope), hexEncode_inj (String.toList_inj.mp huser)⟩,
    heq⟩

/-- The records of a namespace: its index, and an entry for every key. -/
inductive Namespace.Record (ns : Namespace) : String → Prop
  | index : Record ns ns.index
  | entry {key name : String} (h : ns.entry key = .ok name) : Record ns name

variable {name : String}

theorem Namespace.Record.eq_append {ns : Namespace} (h : ns.Record name) :
    ∃ own, name.toList = ns.root.toList ++ own := by
  cases h with
  | index => exact ⟨['i'], by simp [Namespace.index, String.toList_append]⟩
  | entry h => exact ⟨_, by rw [Namespace.entry_eq_ok h, String.append_assoc, String.toList_append]⟩

/-! ## What an operation writes -/

def KvOp.Within (ns : Namespace) : KvOp → Prop
  | .get name => ns.Record name
  | .set name _ => ns.Record name
  | .delete name => ns.Record name

section Within

open Prog (Only)

variable {ns : Namespace}

theorem only_refuseWith {α : Type} (x : Except AppKvRefusal α) : Only (KvOp.Within ns) (AppKv.refuseWith x).run := by
  cases x <;> trivial

theorem only_get (h : ns.Record name) : Only (KvOp.Within ns) (AppKv.get name).run := ⟨h, fun _ => trivial⟩

theorem only_set (h : ns.Record name) (value : Bytes) : Only (KvOp.Within ns) (AppKv.set name value).run :=
  ⟨h, fun _ => trivial⟩

theorem only_delete (h : ns.Record name) : Only (KvOp.Within ns) (AppKv.delete name).run :=
  ⟨h, fun _ => trivial⟩

theorem only_readIndex (codec : IndexCodec) : Only (KvOp.Within ns) (AppKv.readIndex codec ns).run :=
  Only.fallible (only_get .index) fun _ => only_refuseWith _

theorem only_entry (key : String) {f : String → AppKvM AppKvResult}
    (hf : ∀ name, ns.entry key = .ok name → Only (KvOp.Within ns) (f name).run) :
    Only (KvOp.Within ns) (AppKv.refuseWith (ns.entry key) >>= f).run := by
  cases h : ns.entry key with
  | error refusal => trivial
  | ok name => exact hf name h

theorem only_ite {c : Prop} [Decidable c] {x y : AppKvM AppKvResult} (hx : Only (KvOp.Within ns) x.run)
    (hy : Only (KvOp.Within ns) y.run) : Only (KvOp.Within ns) (if c then x else y).run := by
  split
  · exact hx
  · exact hy

theorem only_run (codec : IndexCodec) (op : AppKvOp) : Only (KvOp.Within ns) (AppKv.run codec ns op).run := by
  cases op with
  | get key => exact only_entry key fun name h => Only.fallible (only_get (.entry h)) fun _ => trivial
  | set key value =>
    refine only_entry key fun name h => only_ite trivial ?_
    refine Only.fallible (only_readIndex codec) fun index => only_ite trivial ?_
    exact Only.fallible (only_set .index _) fun _ => Only.fallible (only_set (.entry h) value) fun _ => trivial
  | delete key =>
    refine only_entry key fun name h => Only.fallible (only_delete (.entry h)) fun _ => ?_
    refine Only.fallible (only_readIndex codec) fun index => only_ite ?_ trivial
    exact Only.fallible (only_set .index _) fun _ => trivial
  | list start after => exact Only.fallible (only_readIndex codec) fun _ => trivial

theorem lookup_of_only {α : Type} {x : Prog KvOp KvOp.Ans α} (h : Only (KvOp.Within ns) x) (hname : ¬ ns.Record name) (kv : Kv)
    (outcomes : Outcomes) :
    (Prog.run faulty x (kv, outcomes)).2.1.lookup name = kv.lookup name := by
  induction x generalizing kv outcomes with
  | ret a => rfl
  | call o next ih =>
    obtain ⟨hwithin, hnext⟩ := h
    have hafter : ∀ written : Kv, written.lookup name = kv.lookup name →
        ((outcomes.headD .done).after kv written).lookup name = kv.lookup name := by
      intro written hwritten
      cases outcomes.headD .done with
      | done => exact hwritten
      | refused => rfl
      | lost => exact hwritten
    cases o with
    | get key => exact ih _ (hnext _) kv outcomes.tail
    | set key value =>
      have hne : name ≠ key := fun heq => hname (heq ▸ hwithin)
      exact (ih _ (hnext _) _ outcomes.tail).trans (hafter _ (AList.lookup_insert_ne hne))
    | delete key =>
      have hne : name ≠ key := fun heq => hname (heq ▸ hwithin)
      exact (ih _ (hnext _) _ outcomes.tail).trans (hafter _ (AList.lookup_erase_ne hne))

theorem lookup_runSteps (codec : IndexCodec) (hname : ¬ ns.Record name) (steps : List Step) (kv : Kv) :
    (runSteps codec ns kv steps).lookup name = kv.lookup name := by
  induction steps generalizing kv with
  | nil => rfl
  | cons step rest ih => exact (ih _).trans (lookup_of_only (only_run codec step.op) hname kv step.outcomes)

end Within

/-! ## Apart -/

/-- **Namespaces never meet**: equal records have equal components, no entry is an index, and operations on one
namespace leave the records of all others. -/
theorem namespaces_apart {appId scopeKey username appId' scopeKey' username' : String} {ns ns' : Namespace}
    (h : Namespace.new appId scopeKey username = .ok ns) (h' : Namespace.new appId' scopeKey' username' = .ok ns') :
    (∀ key key' name, ns.entry key = .ok name → ns'.entry key' = .ok name →
      (appId = appId' ∧ scopeKey = scopeKey' ∧ username = username') ∧ key = key') ∧
    (∀ key name, ns.entry key = .ok name → name ≠ ns'.index) ∧
    (ns.index = ns'.index → appId = appId' ∧ scopeKey = scopeKey' ∧ username = username') ∧
    (ns ≠ ns' → ∀ name, ns.Record name → ns'.owns name = false) ∧
    (ns ≠ ns' → ∀ codec kv steps name, ns'.Record name → (runSteps codec ns kv steps).lookup name = kv.lookup name) := by
  have hsame : ∀ {name : String} {own own' : List Char}, name.toList = ns.root.toList ++ own →
      name.toList = ns'.root.toList ++ own' →
      (appId = appId' ∧ scopeKey = scopeKey' ∧ username = username') ∧ own = own' :=
    fun hown hown' => Namespace.root_append h h' (hown.symm.trans hown')
  have hindex : ∀ ns : Namespace, ns.index.toList = ns.root.toList ++ ['i'] := by
    intro ns
    simp [Namespace.index, String.toList_append]
  have hentry : ∀ {ns : Namespace} {key name}, ns.entry key = .ok name →
      name.toList = ns.root.toList ++ ('k' :: ':' :: (hexEncode key).toList) := by
    intro ns key name hname
    rw [Namespace.entry_eq_ok hname, String.append_assoc, String.toList_append, String.toList_append]
    rfl
  have hne : ns ≠ ns' → ¬ (appId = appId' ∧ scopeKey = scopeKey' ∧ username = username') := by
    rintro hne ⟨rfl, rfl, rfl⟩
    exact hne (Except.ok.inj (h.symm.trans h'))
  refine ⟨fun key key' name hname hname' => ?_, fun key name hname heq => ?_, fun heq => ?_, fun hns name hrecord => ?_,
    fun hns codec kv steps name hrecord => ?_⟩
  · obtain ⟨hsame, hown⟩ := hsame (hentry hname) (hentry hname')
    have hkey := (List.cons.inj (List.cons.inj hown).2).2
    exact ⟨hsame, hexEncode_inj (String.toList_inj.mp hkey)⟩
  · obtain ⟨-, hown⟩ := hsame (hentry hname) (by rw [heq, hindex])
    exact absurd (List.cons.inj hown).1 (by decide)
  · exact (hsame (hindex ns) (by rw [heq, hindex])).1
  · obtain ⟨own, hown⟩ := hrecord.eq_append
    refine Bool.eq_false_iff.mpr fun howns => hne hns ?_
    obtain ⟨own', hown'⟩ := List.isPrefixOf_iff_prefix.mp howns
    exact (hsame hown hown'.symm).1
  · refine lookup_runSteps codec (fun hown => hne hns ?_) steps kv
    obtain ⟨own, hown⟩ := hown.eq_append
    obtain ⟨own', hown'⟩ := hrecord.eq_append
    exact (hsame hown hown').1

/-- The board app's namespaces of two members, whose scope keys and names hold the separator. -/
theorem namespaces_apart_board : ∃ mine other : Namespace,
    Namespace.new "com.acme.kanban" "node:a" "b:c" = .ok mine ∧ Namespace.new "com.acme.kanban" "node:a:b" "c" = .ok other ∧
    other.owns mine.index = false := by
  have hmine : Namespace.new "com.acme.kanban" "node:a" "b:c" = .ok ⟨"app:com.acme.kanban:6e6f64653a61:623a63:"⟩ := by
    decide +kernel
  have hother : Namespace.new "com.acme.kanban" "node:a:b" "c" = .ok ⟨"app:com.acme.kanban:6e6f64653a613a62:63:"⟩ := by
    decide +kernel
  obtain ⟨-, -, -, howns, -⟩ := namespaces_apart hmine hother
  exact ⟨_, _, hmine, hother, howns (by decide) _ .index⟩

end CitadelAgent.Apps
