import CitadelAgent.Lib.Machine
import CitadelAgent.Transfers.PulledReads

/-!
# Which pull a handle belongs to

`citadel-internal-service/src/kernel/revfs_correlation.rs`, `requests/file/download.rs` and `responses/object_transfer_handle.rs`
for one session: a pull's handle carries no name, so it takes the oldest registration of its scope that has not expired.

* `FifoByScope` : the registrations;
* `Pulls.InTurn` : the handles that find their own pull;
* `pulled_by_name` : with these handles alone, a file is recorded under the name it was pulled with.
-/

namespace CitadelAgent.Transfers
open Function Machine

def CORRELATION_TTL : Nat := 60 * 1000000000

def SERVER_SCOPE : Cid := 0

structure PendingPull where
  requestId : Uuid
  file : PulledKey

structure Registration where
  number : Nat
  pull : PendingPull
  registeredAt : Instant

def Registration.live (now : Instant) (r : Registration) : Bool := now - r.registeredAt < CORRELATION_TTL

abbrev FifoByScope := Cid → List Registration

namespace FifoByScope

def register (queues : FifoByScope) (scope : Cid) (r : Registration) : FifoByScope :=
  update queues scope ((queues scope).filter (·.live r.registeredAt) ++ [r])

/-- The oldest registration that has not expired leaves the queue. -/
def take (queues : FifoByScope) (scope : Cid) (now : Instant) : Option PendingPull × FifoByScope :=
  match (queues scope).filter (·.live now) with
  | [] => (none, update queues scope [])
  | r :: rest => (some r.pull, update queues scope rest)

def cancel (queues : FifoByScope) (scope : Cid) (requestId : Uuid) : FifoByScope :=
  update queues scope ((queues scope).filter fun r => r.pull.requestId ≠ requestId)

end FifoByScope

structure Stream where
  cause : PendingPull
  requestId : Option Uuid
  pulledFile : Option PulledKey
  running : Bool

structure Pulls where
  now : Instant
  registered : Nat
  queues : FifoByScope
  unsent : List (Cid × Registration)
  outstanding : Cid → List Registration
  failed : List (Cid × Registration)
  streams : List Stream
  reads : PulledReads
  /-- The files that were saved, under the name of the pull that caused them. -/
  saves : List (PulledKey × PathBuf)

inductive Act
  | download (after : Nat) (requestId : Uuid) (peerCid : Option Cid) (virtualDirectory : PathBuf)
  | send (i : Nat)
  | sendFails (i : Nat)
  | fails (scope : Cid) (i : Nat)
  | refuse (scope : Cid) (i : Nat)
  | cancel (i : Nat)
  | handle (after : Nat) (scope : Cid)
  | complete (after : Nat) (i : Nat) (filePath : PathBuf) (identity : Option FileIdentity)

namespace Pulls

def new : Pulls := ⟨0, 0, fun _ => [], [], fun _ => [], [], [], .new, []⟩

def step (s : Pulls) : Act → Pulls
  | .download after requestId peerCid virtualDirectory =>
    let scope := peerCid.getD SERVER_SCOPE
    let r : Registration := ⟨s.registered, ⟨requestId, ⟨peerCid, virtualDirectory⟩⟩, s.now + after⟩
    { s with
      now := s.now + after
      registered := s.registered + 1
      queues := s.queues.register scope r
      unsent := s.unsent ++ [(scope, r)] }
  | .send i =>
    match s.unsent[i]? with
    | some (scope, r) =>
      { s with unsent := s.unsent.eraseIdx i, outstanding := update s.outstanding scope (s.outstanding scope ++ [r]) }
    | none => s
  | .sendFails i =>
    match s.unsent[i]? with
    | some failed => { s with unsent := s.unsent.eraseIdx i, failed := s.failed ++ [failed] }
    | none => s
  | .fails scope i => { s with outstanding := update s.outstanding scope ((s.outstanding scope).eraseIdx i) }
  | .refuse scope i =>
    match (s.outstanding scope)[i]? with
    | some r =>
      { s with
        outstanding := update s.outstanding scope ((s.outstanding scope).eraseIdx i)
        failed := s.failed ++ [(scope, r)] }
    | none => s
  | .cancel i =>
    match s.failed[i]? with
    | some (scope, r) => { s with failed := s.failed.eraseIdx i, queues := s.queues.cancel scope r.pull.requestId }
    | none => s
  | .handle after scope =>
    match s.outstanding scope with
    | [] => s
    | r :: rest =>
      let (pending, queues) := s.queues.take scope (s.now + after)
      { s with
        now := s.now + after
        queues := queues
        outstanding := update s.outstanding scope rest
        streams := s.streams ++ [⟨r.pull, pending.map (·.requestId), pending.map (·.file), true⟩] }
  | .complete after i filePath identity =>
    match s.streams[i]? with
    | some ⟨cause, requestId, pulledFile, true⟩ =>
      let now := s.now + after
      { s with
        now := now
        streams := s.streams.set i ⟨cause, requestId, pulledFile, false⟩
        saves := (cause.file, filePath) :: s.saves
        reads :=
          match pulledFile, identity with
          | some file, some identity => s.reads.record file filePath identity now
          | _, _ => s.reads }
    | _ => s

/-! ## Handles that find their own pull -/

/-- When a handle arrives, every live registration of its scope is the one it answers, or is younger than that one, which is
itself live. -/
def InTurn (s : Pulls) : Act → Prop
  | .handle after scope => ∀ r, (s.outstanding scope).head? = some r →
      ∀ e ∈ s.queues scope, e.live (s.now + after) →
        e = r ∨ r ∈ s.queues scope ∧ r.live (s.now + after) ∧ r.number < e.number
  | _ => True

structure Sorted (s : Pulls) : Prop where
  below : ∀ scope, ∀ r ∈ s.queues scope, r.number < s.registered
  increasing : ∀ scope, (s.queues scope).Pairwise fun r e => r.number < e.number

structure Named (s : Pulls) : Prop where
  streams : ∀ stream ∈ s.streams, (∀ id, stream.requestId = some id → id = stream.cause.requestId) ∧
    ∀ file, stream.pulledFile = some file → file = stream.cause.file
  reads : ∀ entry ∈ s.reads.entries, (entry.1, entry.2.saved) ∈ s.saves

variable {s t : Pulls}

theorem Sorted.shrink (h : s.Sorted) {scope : Cid} {queue : List Registration}
    (hqueues : t.queues = update s.queues scope queue) (hqueue : queue.Sublist (s.queues scope))
    (hregistered : t.registered = s.registered) : t.Sorted := by
  constructor
  · intro other r hr
    rw [hqueues] at hr
    rw [hregistered]
    by_cases hsame : other = scope
    · subst hsame
      rw [update_self] at hr
      exact h.below other r (hqueue.subset hr)
    · rw [update_of_ne hsame] at hr
      exact h.below other r hr
  · intro other
    rw [hqueues]
    by_cases hsame : other = scope
    · subst hsame
      rw [update_self]
      exact (h.increasing other).sublist hqueue
    · rw [update_of_ne hsame]
      exact h.increasing other

theorem Sorted.register (h : s.Sorted) {scope : Cid} {r : Registration} (hnumber : r.number = s.registered)
    (hqueues : t.queues = s.queues.register scope r) (hregistered : t.registered = s.registered + 1) : t.Sorted := by
  constructor
  · intro other e he
    rw [hqueues, FifoByScope.register] at he
    rw [hregistered]
    by_cases hsame : other = scope
    · subst hsame
      rw [update_self, List.mem_append, List.mem_singleton] at he
      rcases he with he | rfl
      · exact Nat.lt_succ_of_lt (h.below other e (List.mem_filter.mp he).1)
      · omega
    · rw [update_of_ne hsame] at he
      exact Nat.lt_succ_of_lt (h.below other e he)
  · intro other
    rw [hqueues, FifoByScope.register]
    by_cases hsame : other = scope
    · subst hsame
      rw [update_self, List.pairwise_append]
      refine ⟨(h.increasing other).sublist List.filter_sublist, List.pairwise_singleton _ _, fun e he e' he' => ?_⟩
      obtain rfl := List.mem_singleton.mp he'
      rw [hnumber]
      exact h.below other e (List.mem_filter.mp he).1
    · rw [update_of_ne hsame]
      exact h.increasing other

theorem take_sublist (queues : FifoByScope) (scope : Cid) (now : Instant) :
    ∃ queue, (queues.take scope now).2 = update queues scope queue ∧ queue.Sublist (queues scope) := by
  unfold FifoByScope.take
  split
  · exact ⟨[], rfl, List.nil_sublist _⟩
  · rename_i r rest hlive
    have hrest : rest.Sublist ((queues scope).filter (·.live now)) := by
      rw [hlive]
      exact List.sublist_cons_self r rest
    exact ⟨rest, rfl, hrest.trans List.filter_sublist⟩

theorem take_inTurn (h : s.Sorted) {after : Nat} {scope : Cid} {r : Registration} {rest : List Registration}
    (hr : s.outstanding scope = r :: rest) :
    s.InTurn (.handle after scope) ↔
      ∀ e, ((s.queues scope).filter (·.live (s.now + after))).head? = some e → e = r := by
  have hsorted := (h.increasing scope).sublist (List.filter_sublist (p := (·.live (s.now + after))))
  constructor
  · intro hturn e he
    cases hlive : (s.queues scope).filter (·.live (s.now + after)) with
    | nil => exact nomatch hlive ▸ he
    | cons first others =>
      rw [hlive] at he hsorted
      obtain rfl := Option.some.inj he
      have hfirst : first ∈ (s.queues scope).filter (·.live (s.now + after)) := hlive ▸ List.mem_cons_self
      rcases hturn r (by rw [hr]; rfl) first (List.mem_filter.mp hfirst).1 (List.mem_filter.mp hfirst).2 with
        heq | ⟨hmem, hrlive, hlt⟩
      · exact heq
      · have hown : r ∈ first :: others := hlive ▸ List.mem_filter.mpr ⟨hmem, hrlive⟩
        rcases List.mem_cons.mp hown with heq | hlater
        · exact heq.symm
        · exact absurd ((List.pairwise_cons.mp hsorted).1 r hlater) (by omega)
  · intro hhead r' hr' e he hlive
    obtain rfl : r = r' := by rw [hr] at hr'; exact Option.some.inj hr'
    have hmem : e ∈ (s.queues scope).filter (·.live (s.now + after)) := List.mem_filter.mpr ⟨he, hlive⟩
    cases hfilter : (s.queues scope).filter (·.live (s.now + after)) with
    | nil => exact nomatch hfilter ▸ hmem
    | cons first others =>
      rw [hfilter] at hmem hhead hsorted
      obtain rfl : first = r := hhead first rfl
      rcases List.mem_cons.mp hmem with heq | hlater
      · exact .inl heq
      · have hfirst : first ∈ (s.queues scope).filter (·.live (s.now + after)) := hfilter ▸ List.mem_cons_self
        exact .inr ⟨(List.mem_filter.mp hfirst).1, (List.mem_filter.mp hfirst).2, (List.pairwise_cons.mp hsorted).1 e hlater⟩

theorem take_fst (queues : FifoByScope) (scope : Cid) (now : Instant) :
    (queues.take scope now).1 = ((queues scope).filter (·.live now)).head?.map (·.pull) := by
  unfold FifoByScope.take
  split <;> rename_i hlive <;> rw [hlive] <;> rfl

theorem sorted_step (h : s.Sorted) (act : Act) : (s.step act).Sorted := by
  cases act with
  | download after requestId peerCid virtualDirectory => exact h.register rfl rfl rfl
  | send i =>
    simp only [step]
    split
    · exact ⟨h.below, h.increasing⟩
    · exact h
  | sendFails i =>
    simp only [step]
    split
    · exact ⟨h.below, h.increasing⟩
    · exact h
  | fails scope i => exact ⟨h.below, h.increasing⟩
  | refuse scope i =>
    simp only [step]
    split
    · exact ⟨h.below, h.increasing⟩
    · exact h
  | cancel i =>
    simp only [step]
    split
    · exact h.shrink rfl List.filter_sublist rfl
    · exact h
  | handle after scope =>
    simp only [step]
    split
    · exact h
    · obtain ⟨queue, hqueue, hsub⟩ := take_sublist s.queues scope (s.now + after)
      exact h.shrink hqueue hsub rfl
  | complete after i filePath identity =>
    simp only [step]
    split
    · exact ⟨h.below, h.increasing⟩
    · exact h

theorem Named.keep (h : s.Named) (hstreams : t.streams = s.streams) (hreads : t.reads = s.reads) (hsaves : t.saves = s.saves) :
    t.Named where
  streams := by
    rw [hstreams]
    exact h.streams
  reads := by
    rw [hreads, hsaves]
    exact h.reads

theorem Named.complete (h : s.Named) {i : Nat} {cause : PendingPull} {requestId : Option Uuid} {pulledFile : Option PulledKey}
    (hi : s.streams[i]? = some ⟨cause, requestId, pulledFile, true⟩) {filePath : PathBuf}
    (hstreams : t.streams = s.streams.set i ⟨cause, requestId, pulledFile, false⟩)
    (hsaves : t.saves = (cause.file, filePath) :: s.saves)
    (hreads : ∀ entry ∈ t.reads.entries,
      pulledFile = some entry.1 ∧ entry.2.saved = filePath ∨ entry ∈ s.reads.entries) : t.Named := by
  have hown := h.streams _ (List.mem_of_getElem? hi)
  constructor
  · intro stream hstream
    rw [hstreams] at hstream
    rcases List.mem_or_eq_of_mem_set hstream with hold | rfl
    · exact h.streams stream hold
    · exact hown
  · intro entry hentry
    rw [hsaves]
    rcases hreads entry hentry with ⟨hfile, hsaved⟩ | hold
    · rw [hown.2 entry.1 hfile, hsaved]
      exact List.mem_cons_self
    · exact List.mem_cons_of_mem _ (h.reads entry hold)

theorem named_step (hsorted : s.Sorted) (h : s.Named) (act : Act) (hturn : s.InTurn act) : (s.step act).Named := by
  cases act with
  | download after requestId peerCid virtualDirectory => exact h.keep rfl rfl rfl
  | send i =>
    simp only [step]
    split
    · exact h.keep rfl rfl rfl
    · exact h
  | sendFails i =>
    simp only [step]
    split
    · exact h.keep rfl rfl rfl
    · exact h
  | fails scope i => exact h.keep rfl rfl rfl
  | refuse scope i =>
    simp only [step]
    split
    · exact h.keep rfl rfl rfl
    · exact h
  | cancel i =>
    simp only [step]
    split
    · exact h.keep rfl rfl rfl
    · exact h
  | handle after scope =>
    simp only [step]
    split
    · exact h
    · rename_i r rest hr
      have hown := (take_inTurn hsorted hr).mp hturn
      refine ⟨fun stream hstream => ?_, h.reads⟩
      rcases List.mem_append.mp hstream with hold | hnew
      · exact h.streams stream hold
      · obtain rfl := List.mem_singleton.mp hnew
        simp only [take_fst, Option.map_map, Option.map_eq_some_iff, comp_apply]
        constructor
        · rintro id ⟨e, he, rfl⟩
          rw [hown e he]
        · rintro file ⟨e, he, rfl⟩
          rw [hown e he]
  | complete after i filePath identity =>
    simp only [step]
    split
    · rename_i cause requestId pulledFile hi
      refine h.complete hi rfl rfl fun entry hentry => ?_
      cases pulledFile with
      | none => exact .inr hentry
      | some file =>
        cases identity with
        | none => exact .inr hentry
        | some identity =>
          rcases PulledReads.record_mem hentry with ⟨hfile, hsaved⟩ | hold
          · exact .inl ⟨congrArg some hfile.symm, hsaved⟩
          · exact .inr hold
    · exact h

theorem sorted_new : new.Sorted := ⟨nofun, fun _ => List.Pairwise.nil⟩

end Pulls

open Pulls in
/-- As long as every handle comes in turn, each tick stream carries the request id of its own pull or none, and a file
is recorded under its own name. A handle that comes out of turn takes another's. -/
theorem pulled_by_name (s : Pulls) :
    (Reaches step InTurn (· = new) s →
      (∀ stream ∈ s.streams, ∀ id, stream.requestId = some id → id = stream.cause.requestId) ∧
      ∀ entry ∈ s.reads.entries, (entry.1, entry.2.saved) ∈ s.saves) ∧
    (Reaches step (fun _ _ => True) (· = new) s → ∀ after scope r rest, s.outstanding scope = r :: rest →
      ¬ s.InTurn (.handle after scope) → ∃ e ∈ s.queues scope, e ≠ r ∧
        (s.step (.handle after scope)).streams = s.streams ++ [⟨r.pull, some e.pull.requestId, some e.pull.file, true⟩]) := by
  constructor
  · intro run
    have hs : s.Sorted ∧ s.Named := run.invariant (I := fun s => s.Sorted ∧ s.Named)
      (fun s hs => by rw [hs]; exact ⟨sorted_new, nofun, nofun⟩)
      fun s act h hturn => ⟨sorted_step h.1 act, named_step h.1 h.2 act hturn⟩
    exact ⟨fun stream hstream => (hs.2.streams stream hstream).1, hs.2.reads⟩
  · intro run after scope r rest hr hturn
    have hsorted : s.Sorted := run.invariant (I := Sorted) (fun s hs => by rw [hs]; exact sorted_new)
      fun s act h _ => sorted_step h act
    rw [take_inTurn hsorted hr] at hturn
    simp only [not_forall] at hturn
    obtain ⟨e, he, hne⟩ := hturn
    refine ⟨e, (List.mem_filter.mp (List.mem_of_mem_head? he)).1, hne, ?_⟩
    simp only [step, hr, take_fst, he, Option.map_some]

namespace Pulls

def onePull : List Act :=
  [.download 0 1 none ["a.txt"], .send 0, .handle 5 SERVER_SCOPE, .complete 5 0 ["transfers", "a.txt"] (some ⟨0, 0, 0, none⟩)]

end Pulls

open Pulls in
theorem pulled_by_name_onePull : ∀ entry ∈ (onePull.foldl step new).reads.entries,
    (entry.1, entry.2.saved) ∈ (onePull.foldl step new).saves := by
  have hmeets : AllMeet step InTurn new onePull := by
    refine ⟨trivial, trivial, ?_, trivial, trivial⟩
    intro r hr e he _
    obtain rfl : (⟨0, ⟨1, ⟨none, ["a.txt"]⟩⟩, 0⟩ : Registration) = r := Option.some.inj hr
    exact .inl (List.mem_singleton.mp he)
  exact ((pulled_by_name _).1 (reaches_foldl hmeets)).2

open Pulls in
/-- The remote fails the first pull, and the second is asked for within a minute: its file is recorded under the first one's name,
and its ticks carry the first one's request id. -/
theorem failed_pull_shifts_names :
    ∃ s, Reaches step (fun _ _ => True) (· = new) s ∧
      (∃ entry ∈ s.reads.entries, entry.1 = ⟨none, ["a.txt"]⟩ ∧ entry.2.saved = ["transfers", "b.txt"]) ∧
      s.saves = [(⟨none, ["b.txt"]⟩, ["transfers", "b.txt"])] ∧
      ∃ stream ∈ s.streams, stream.cause.requestId = 2 ∧ stream.requestId = some 1 :=
  ⟨[Act.download 0 1 none ["a.txt"], .send 0, .fails SERVER_SCOPE 0, .download 30000000000 2 none ["b.txt"], .send 0,
      .handle 5 SERVER_SCOPE, .complete 5 0 ["transfers", "b.txt"] (some ⟨0, 0, 0, none⟩)].foldl step new,
    reaches_foldl (allMeet_of_forall (fun _ _ => trivial) _ _), by decide +kernel, by decide +kernel, by decide +kernel⟩

end CitadelAgent.Transfers
