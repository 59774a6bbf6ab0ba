import CitadelAgent.Ihttp.Sdk
import CitadelAgent.Lib.SortedMap

/-!
# Internal HTTP: a fan-out's bookkeeping

`citadel-app-sdk/src/ihttp/fanout_plan.rs`: which targets of a fan-out run, which wait and what each came to, under a
concurrency cap, a per-call and a total time budget, and a byte budget over all responses.

* `Plan.Ok` : waiting, running and settled are a partition of the targets, and the cap holds.
-/

namespace CitadelAgent.Ihttp

structure Response where
  head : ResponseHead
  via : Via
  body : List UInt8
  deriving DecidableEq

structure FanoutLimits where
  maxConcurrency : UInt32
  perCallMs : UInt32
  budgetMs : UInt32
  maxTotalBytes : UInt64

inductive Outcome
  | ok (response : Response)
  | failed (refused : Refused)
  | skipped
  deriving DecidableEq

def LIMIT_PER_CALL_MS : String := "fanout_per_call_ms"
def LIMIT_TOTAL_BYTES : String := "fanout_bytes"
def POLICY_ZERO_LIMIT : String := "fanout_zero_limit"

structure Plan where
  limits : FanoutLimits
  waiting : List Nat
  running : SortedMap Nat Nat
  settled : List (Option Outcome)
  elapsedMs : Nat
  bytes : Nat

/-- `saturating_add` of `u32` and `u64`. -/
def saturatingAdd (w a b : Nat) : Nat := min (a + b) (2 ^ w - 1)

namespace Plan

def new (targets : Nat) (limits : FanoutLimits) : Plan :=
  let zero := limits.maxConcurrency = 0 ∨ limits.perCallMs = 0 ∨ limits.budgetMs = 0 ∨ limits.maxTotalBytes = 0
  { limits
    waiting := if zero then [] else List.range targets
    running := .empty
    settled := List.replicate targets (if zero then some (.failed (.policy POLICY_ZERO_LIMIT)) else none)
    elapsedMs := 0
    bytes := 0 }

def admitFrom (p : Plan) : List Nat → Plan × List Nat
  | [] => (p, [])
  | i :: waiting =>
      if p.running.entries.length < p.limits.maxConcurrency.toNat then
        let r := { p with waiting, running := p.running.insert i 0 }.admitFrom waiting
        (r.1, i :: r.2)
      else (p, [])

def admit_ (p : Plan) : Plan × List Nat := p.admitFrom p.waiting

/-- `n` more response bytes arrived for `i`: the refusal to stop `i` with, if that takes the total past the budget. -/
def addBytes (i n : Nat) (p : Plan) : Plan × Option Refused :=
  let bytes := saturatingAdd 64 p.bytes n
  ({ p with bytes },
    if p.limits.maxTotalBytes.toNat < bytes ∧ (p.running.get i).isSome then some (.limit LIMIT_TOTAL_BYTES) else none)

/-- Record what `i` came to, once. -/
def settle (i : Nat) (outcome : Outcome) (p : Plan) : Plan × Bool :=
  match p.settled[i]? with
  | some none =>
      ({ p with
          settled := p.settled.set i (some outcome)
          running := p.running.erase i
          waiting := p.waiting.filter (· ≠ i) }, true)
  | _ => (p, false)

def stopAll (p : Plan) : Plan × List (Nat × Outcome) :=
  ({ p with waiting := [], settled := p.waiting.foldl (fun settled i => settled.set i (some .skipped)) p.settled },
    p.running.keys.map (·, .skipped))

/-- `ms` passed: the running targets to stop and what each came to. -/
def elapse (ms : UInt32) (p : Plan) : Plan × List (Nat × Outcome) :=
  let p := { p with elapsedMs := saturatingAdd 32 p.elapsedMs ms.toNat }
  if p.limits.budgetMs.toNat ≤ p.elapsedMs then p.stopAll
  else
    let running := p.running.mapValues fun ran => saturatingAdd 32 ran ms.toNat
    ({ p with running },
      (running.entries.filter fun e => p.limits.perCallMs.toNat ≤ e.2).map
        fun e => (e.1, .failed (.limit LIMIT_PER_CALL_MS)))

def isDone (p : Plan) : Bool := p.settled.all Option.isSome

/-- Every target's outcome, in target order, once `isDone`. -/
def outcomes (p : Plan) : List Outcome := p.settled.map (·.getD .skipped)

/-! ## The partition -/

structure Ok (p : Plan) : Prop where
  nodup : p.waiting.Nodup
  apart : ∀ i ∈ p.waiting, i ∉ p.running.keys
  placed : ∀ i, p.settled[i]? = some none ↔ i ∈ p.waiting ∨ i ∈ p.running.keys
  cap : p.running.keys.length ≤ p.limits.maxConcurrency.toNat

variable {p : Plan}

theorem Ok.new (targets : Nat) (limits : FanoutLimits) : (Plan.new targets limits).Ok := by
  have hempty : (SortedMap.empty : SortedMap Nat Nat).keys = [] := rfl
  unfold Plan.new
  dsimp only
  split
  · refine ⟨by simp, by simp, fun i => ?_, by simp [hempty]⟩
    simp [hempty, List.getElem?_replicate]
  · refine ⟨List.nodup_range, by simp [hempty], fun i => ?_, by simp [hempty]⟩
    simp [hempty, List.getElem?_replicate]

theorem length_new (targets : Nat) (limits : FanoutLimits) : (Plan.new targets limits).settled.length = targets := by
  simp [Plan.new]

theorem keys_length_insert (m : SortedMap Nat Nat) {i : Nat} (h : i ∉ m.keys) (ran : Nat) :
    (m.insert i ran).keys.length = m.keys.length + 1 := by
  have htotal := m.total_insert (fun _ _ => 1) i ran
  have hnone : m.get i = none := by simpa [SortedMap.mem_keys] using h
  simpa [SortedMap.total, SortedMap.keys, hnone] using htotal

/-- What `admit_` does: the first of the waiting targets run. -/
structure Admits (p p' : Plan) (ready : List Nat) : Prop where
  waiting : p.waiting = ready ++ p'.waiting
  running : ∀ i, i ∈ p'.running.keys ↔ i ∈ ready ∨ i ∈ p.running.keys
  limits : p'.limits = p.limits
  settled : p'.settled = p.settled
  bytes : p'.bytes = p.bytes
  /-- A count that is nothing for them is the same over what runs. -/
  total : ∀ f : Nat → Nat, (∀ i ∈ ready, f i = 0) →
    p'.running.total (fun i _ => f i) = p.running.total fun i _ => f i

theorem admitFrom_spec (waiting : List Nat) : ∀ {p : Plan}, p.Ok → p.waiting = waiting →
    (p.admitFrom waiting).1.Ok ∧ p.Admits (p.admitFrom waiting).1 (p.admitFrom waiting).2 := by
  induction waiting with
  | nil =>
      intro p hp hwaiting
      exact ⟨hp, by simp [admitFrom], by simp [admitFrom], rfl, rfl, rfl, fun _ _ => rfl⟩
  | cons i waiting ih =>
      intro p hp hwaiting
      have hfresh : i ∉ p.running.keys := hp.apart i (by simp [hwaiting])
      have hnodup := hp.nodup
      rw [hwaiting, List.nodup_cons] at hnodup
      simp only [admitFrom]
      split
      · rename_i hroom
        have hnext : Ok { p with waiting, running := p.running.insert i 0 } := by
          refine ⟨hnodup.2, fun j hj => ?_, fun j => ?_, ?_⟩
          · rw [SortedMap.mem_keys_insert, not_or]
            refine ⟨?_, hp.apart j (by simp [hwaiting, hj])⟩
            rintro rfl
            exact hnodup.1 hj
          · rw [hp.placed, SortedMap.mem_keys_insert, hwaiting, List.mem_cons]
            tauto
          · rw [keys_length_insert _ hfresh]
            simp only [SortedMap.keys, List.length_map]
            exact hroom
        obtain ⟨hok, hadmits⟩ := ih hnext rfl
        refine ⟨hok, ?_, fun j => ?_, hadmits.limits, hadmits.settled, hadmits.bytes, fun f hf => ?_⟩
        · rw [hwaiting, List.cons_append, ← hadmits.waiting]
        · rw [hadmits.running, SortedMap.mem_keys_insert, List.mem_cons]
          tauto
        · have hnone : p.running.get i = none := by simpa [SortedMap.mem_keys] using hfresh
          have hinsert := p.running.total_insert (fun i _ => f i) i 0
          rw [hnone, hf i (by simp)] at hinsert
          rw [hadmits.total f fun j hj => hf j (by simp [hj])]
          simpa using hinsert
      · exact ⟨hp, by simp, by simp, rfl, rfl, rfl, fun _ _ => rfl⟩

theorem Ok.admit_ (hp : p.Ok) : p.admit_.1.Ok ∧ p.Admits p.admit_.1 p.admit_.2 := admitFrom_spec _ hp rfl

theorem addBytes_spec (i n : Nat) (p : Plan) :
    ∃ bytes, (p.addBytes i n).1 = { p with bytes } ∧ bytes = saturatingAdd 64 p.bytes n ∧
      ((p.addBytes i n).2 = none → i ∈ p.running.keys → bytes ≤ p.limits.maxTotalBytes.toNat) := by
  refine ⟨_, rfl, rfl, fun hnone hrunning => ?_⟩
  simp only [addBytes] at hnone
  split at hnone
  · cases hnone
  · rename_i hnot
    rw [SortedMap.mem_keys] at hrunning
    by_contra hover
    exact hnot ⟨by omega, hrunning⟩

theorem settle_spec (i : Nat) (outcome : Outcome) (p : Plan) :
    (∃ r, p.settled[i]? = r ∧ r ≠ some none ∧ p.settle i outcome = (p, false)) ∨
      p.settled[i]? = some none ∧
        p.settle i outcome =
          ({ p with
              settled := p.settled.set i (some outcome)
              running := p.running.erase i
              waiting := p.waiting.filter (· ≠ i) }, true) := by
  unfold settle
  split
  · rename_i hnone
    exact .inr ⟨hnone, rfl⟩
  · rename_i hnot
    exact .inl ⟨_, rfl, hnot, rfl⟩

theorem length_erase_le (m : SortedMap Nat Nat) (i : Nat) : (m.erase i).keys.length ≤ m.keys.length := by
  have htotal := m.total_erase (fun _ _ => 1) i
  have hlength : ∀ m : SortedMap Nat Nat, m.total (fun _ _ => 1) = m.keys.length := by
    intro m
    simp [SortedMap.total, SortedMap.keys]
  rw [hlength, hlength] at htotal
  omega

theorem Ok.settle (hp : p.Ok) (i : Nat) (outcome : Outcome) : (p.settle i outcome).1.Ok := by
  rcases settle_spec i outcome p with ⟨r, -, -, heq⟩ | ⟨hnone, heq⟩
  · rw [heq]
    exact hp
  · rw [heq]
    refine ⟨hp.nodup.filter _, fun j hj => ?_, fun j => ?_, (length_erase_le _ _).trans hp.cap⟩
    · rw [SortedMap.mem_keys_erase]
      exact fun h => hp.apart j (List.mem_of_mem_filter hj) h.2
    · have hlt : i < p.settled.length := (List.getElem?_eq_some_iff.mp hnone).1
      simp only [List.mem_filter, SortedMap.mem_keys_erase, List.getElem?_set]
      by_cases hj : i = j
      · simp [hj, hj ▸ hlt]
      · simp only [hj, if_false, hp.placed, ne_eq, decide_not, Bool.not_eq_true', decide_eq_false_iff_not]
        tauto

theorem getElem?_skipAll (waiting : List Nat) (settled : List (Option Outcome)) (i : Nat) :
    (waiting.foldl (fun settled i => settled.set i (some .skipped)) settled)[i]? =
      if i ∈ waiting ∧ i < settled.length then some (some .skipped) else settled[i]? := by
  induction waiting generalizing settled with
  | nil => simp
  | cons j waiting ih =>
      rw [List.foldl_cons, ih, List.length_set]
      by_cases hlt : i < settled.length
      · by_cases hi : i ∈ waiting
        · simp [hi, hlt]
        · by_cases hj : j = i
          · subst hj
            simp [hlt]
          · simp [hi, hj, Ne.symm hj]
      · simp [hlt]

theorem length_skipAll (waiting : List Nat) (settled : List (Option Outcome)) :
    (waiting.foldl (fun settled i => settled.set i (some .skipped)) settled).length = settled.length := by
  induction waiting generalizing settled with
  | nil => rfl
  | cons j waiting ih => rw [List.foldl_cons, ih, List.length_set]

theorem Ok.stopAll (hp : p.Ok) :
    p.stopAll.1.Ok ∧
      ∀ i, p.stopAll.1.settled[i]? = if i ∈ p.waiting then some (some .skipped) else p.settled[i]? := by
  have hslots : ∀ i, p.stopAll.1.settled[i]? = if i ∈ p.waiting then some (some .skipped) else p.settled[i]? := by
    intro i
    have hlt : i ∈ p.waiting → i < p.settled.length := fun hi =>
      (List.getElem?_eq_some_iff.mp ((hp.placed i).mpr (.inl hi))).1
    simp only [Plan.stopAll, getElem?_skipAll]
    by_cases hi : i ∈ p.waiting
    · simp [hi, hlt hi]
    · simp [hi]
  refine ⟨⟨by simp [Plan.stopAll], by simp [Plan.stopAll], fun i => ?_, hp.cap⟩, hslots⟩
  rw [hslots]
  by_cases hi : i ∈ p.waiting
  · simp [hi, Plan.stopAll, hp.apart i hi]
  · simp [hi, Plan.stopAll, hp.placed]

theorem elapse_cases (ms : UInt32) (p : Plan) :
    (∃ elapsedMs, p.elapse ms = { p with elapsedMs }.stopAll) ∨
      ∃ elapsedMs running, running.keys = p.running.keys ∧ (p.elapse ms).1 = { p with elapsedMs, running } ∧
        ∀ e ∈ (p.elapse ms).2, e.2 = .failed (.limit LIMIT_PER_CALL_MS) := by
  unfold elapse
  dsimp only
  split
  · exact .inl ⟨_, rfl⟩
  · refine .inr ⟨_, _, SortedMap.keys_mapValues _ _, rfl, fun e he => ?_⟩
    obtain ⟨x, -, rfl⟩ := List.mem_map.mp he
    rfl

theorem Ok.timed (hp : p.Ok) {running : SortedMap Nat Nat} (elapsedMs : Nat) (h : running.keys = p.running.keys) :
    Ok { p with elapsedMs, running } := by
  refine ⟨hp.nodup, fun i hi => ?_, fun i => ?_, ?_⟩
  · rw [h]
    exact hp.apart i hi
  · rw [h]
    exact hp.placed i
  · rw [h]
    exact hp.cap

theorem isDone_iff (hp : p.Ok) : p.isDone = true ↔ p.waiting = [] ∧ p.running.keys = [] := by
  have hnone : p.isDone = true ↔ ∀ i : Nat, p.settled[i]? ≠ some none := by
    simp only [isDone, List.all_eq_true, List.mem_iff_getElem?, forall_exists_index]
    constructor
    · intro h i hi
      simpa using h none i hi
    · intro h o i hi
      cases o with
      | none => exact absurd hi (h i)
      | some o => rfl
  rw [hnone]
  constructor
  · intro h
    refine ⟨List.eq_nil_iff_forall_not_mem.mpr fun i hi => ?_, List.eq_nil_iff_forall_not_mem.mpr fun i hi => ?_⟩
    · exact h i ((hp.placed i).mpr (.inl hi))
    · exact h i ((hp.placed i).mpr (.inr hi))
  · rintro ⟨hwaiting, hrunning⟩ i hi
    simpa [hwaiting, hrunning] using (hp.placed i).mp hi

end Plan

end CitadelAgent.Ihttp
