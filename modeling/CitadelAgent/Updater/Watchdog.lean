import CitadelAgent.Updater.Files

/-!
# The watchdog

`updater/watchdog.rs` with the machine of `watch_os.rs`: the old agent's binary, which starts the new one and keeps it only
if its socket answers, and otherwise puts the old binary back and starts that again.

* `supervise` : the source's function, with a bound on how often each of its two loops goes round;
* `supervise_returns` : bounds the loops never reach;
* `supervise_moments` : at every moment the target is the file it was at the start, or the backup;
* `supervise_restored`, `supervise_healthy` : what has happened when it returns an outcome.
-/

namespace CitadelAgent.Updater
open Prog (Event Runs Ends Only)

structure WatchPlan where
  parentPid : Nat
  target : PathBuf
  backup : PathBuf
  health : String
  version : String
  args : List String
  failedMarker : PathBuf

inductive Outcome
  | healthy
  | rolledBack
  /-- The old agent never exited, so the new one was not started; the old binary is back. -/
  | parentStuck

/-- In milliseconds. -/
def PARENT_EXIT : Nat := 30000

def HEALTHY_WITHIN : Nat := 60000

def WATCHDOG_ENV : String := "CITADEL_UPDATE_WATCHDOG"

/-! ## The machine of the watchdog -/

def spawn (program : PathBuf) (args : List String) : Sys (Except String Unit) := do
  match ← Sys.spawn program args [] with
  | .ok () => pure (.ok ())
  | .error e => pure (.error s!"{program.display}: {e.text}")

def rename (source dest : PathBuf) : Sys (Except String Unit) := do
  match ← Sys.rename source dest with
  | .ok () => pure (.ok ())
  | .error e => pure (.error s!"{source.display} -> {dest.display}: {e.text}")

def mark (path : PathBuf) (why : String) : Sys Unit := do
  match ← Sys.write path why with
  | .ok () => pure ()
  | .error e => Sys.log (s!"{path.display} was not written: {e.text}")

/-! ## Supervision -/

def restore (plan : WatchPlan) (why : String) : Sys Unit := do
  mark plan.failedMarker why
  match ← rename plan.backup plan.target with
  | .ok () => pure ()
  | .error e => Sys.log (s!"the previous agent could not be put back: {e}")

/-- Whether the old agent exited; `none` when the loop went round `fuel` times. -/
def awaitExit (plan : WatchPlan) (deadline : Nat) : Nat → Sys (Option Bool)
  | 0 => pure none
  | fuel + 1 => do
    let alive ← Sys.alive plan.parentPid
    if alive then
      let now ← Sys.now
      if now ≥ deadline then pure (some false)
      else
        Sys.pause
        awaitExit plan deadline fuel
    else pure (some true)

def probe (plan : WatchPlan) (deadline : Nat) : Nat → Sys (Option (Except String Unit))
  | 0 => pure none
  | fuel + 1 => do
    let exited ← Sys.exited
    if exited then pure (some (.error "it exited"))
    else
      let healthy ← Sys.healthy plan.health
      if healthy then pure (some (.ok ()))
      else
        let now ← Sys.now
        if now ≥ deadline then pure (some (.error s!"{plan.health} did not answer within 60s"))
        else
          Sys.pause
          probe plan deadline fuel

def waitHealthy (plan : WatchPlan) (fuel : Nat) : Sys (Option (Except String Unit)) := do
  let now ← Sys.now
  probe plan (now + HEALTHY_WITHIN) fuel

def start (plan : WatchPlan) (fuel : Nat) : Sys (Option (Except String Unit)) := do
  match ← spawn plan.target plan.args with
  | .error e => pure (some (.error s!"the new agent did not start: {e}"))
  | .ok () =>
    match ← waitHealthy plan fuel with
    | none => pure none
    | some (.ok ()) =>
      Sys.log (s!"{plan.version} answers on {plan.health}")
      pure (some (.ok ()))
    | some (.error why) =>
      Sys.kill
      pure (some (.error why))

def rollBack (plan : WatchPlan) (why : String) : Sys Unit := do
  Sys.log (s!"rolling back {plan.version}: {why}")
  restore plan why
  match ← spawn plan.target plan.args with
  | .ok () => pure ()
  | .error e => Sys.log (s!"the restored agent did not start: {e}")

def supervise (plan : WatchPlan) (fuel : Nat) : Sys (Option Outcome) := do
  let now ← Sys.now
  match ← awaitExit plan (now + PARENT_EXIT) fuel with
  | none => pure none
  | some false =>
    let why := "the old agent did not exit"
    Sys.log (s!"{why}; restoring it and starting nothing")
    restore plan why
    pure (some .parentStuck)
  | some true =>
    match ← start plan fuel with
    | none => pure none
    | some (.ok ()) => pure (some .healthy)
    | some (.error why) =>
      rollBack plan why
      pure (some .rolledBack)

/-! ## The two loops -/

theorem spawn_quiet (program : PathBuf) (args : List String) : Only Quiet (spawn program args) :=
  Only.bind (Only.op rfl) fun answer => by
    cases answer with
    | ok _ => trivial
    | error _ => trivial

theorem awaitExit_quiet (plan : WatchPlan) (deadline fuel : Nat) : Only Quiet (awaitExit plan deadline fuel) := by
  induction fuel with
  | zero => trivial
  | succ fuel ih =>
    refine Only.bind (Only.op rfl) fun alive => ?_
    split
    · refine Only.bind (Only.op rfl) fun now => ?_
      split
      · trivial
      · exact Only.bind (Only.op rfl) fun _ => ih
    · trivial

theorem probe_quiet (plan : WatchPlan) (deadline fuel : Nat) : Only Quiet (probe plan deadline fuel) := by
  induction fuel with
  | zero => trivial
  | succ fuel ih =>
    refine Only.bind (Only.op rfl) fun exited => ?_
    split
    · trivial
    · refine Only.bind (Only.op rfl) fun healthy => ?_
      split
      · trivial
      · refine Only.bind (Only.op rfl) fun now => ?_
        split
        · trivial
        · exact Only.bind (Only.op rfl) fun _ => ih

theorem start_quiet (plan : WatchPlan) (fuel : Nat) : Only Quiet (start plan fuel) := by
  refine Only.bind (spawn_quiet _ _) fun started => ?_
  cases started with
  | error _ => trivial
  | ok _ =>
    refine Only.bind (Only.bind (Only.op rfl) fun now => probe_quiet plan _ fuel) fun waited => ?_
    match waited with
    | none => trivial
    | some (.ok _) => exact Only.bind (Only.op rfl) fun _ => trivial
    | some (.error _) => exact Only.bind (Only.op rfl) fun _ => trivial

variable {plan : WatchPlan} {s t : Machine} {events : List Call}

variable {deadline fuel : Nat} {why : String} {r : Option Outcome}

theorem awaitExit_step {r : Option Bool} (run : Runs Machine.Does (awaitExit plan deadline (fuel + 1)) s events r t) :
    r ≠ none ∨ ∃ s' rest, s.clock < deadline ∧ s.clock + PROBE_EVERY ≤ s'.clock ∧
      Runs Machine.Does (awaitExit plan deadline fuel) s' rest r t := by
  obtain ⟨alive, s₁, rest₁, -, ⟨-, htick⟩, run₁⟩ := Prog.runs_op_bind.mp run
  split at run₁
  · obtain ⟨now, s₂, rest₂, -, ⟨-, hnow, hnow'⟩, run₂⟩ := Prog.runs_op_bind.mp run₁
    split at run₂
    · rw [(Prog.runs_ret.mp run₂).2.1]
      exact .inl (Option.some_ne_none _)
    · rename_i hearly
      obtain ⟨_, s₃, rest₃, -, ⟨-, hpause⟩, run₃⟩ := Prog.runs_op_bind.mp run₂
      exact .inr ⟨s₃, rest₃, (htick.trans hnow).trans_lt (not_le.mp hearly),
        (Nat.add_le_add_right (htick.trans (hnow.trans hnow')) _).trans hpause, run₃⟩
  · rw [(Prog.runs_ret.mp run₁).2.1]
    exact .inl (Option.some_ne_none _)

theorem awaitExit_returns {r : Option Bool} (h : deadline ≤ s.clock + fuel * PROBE_EVERY)
    (run : Runs Machine.Does (awaitExit plan deadline (fuel + 1)) s events r t) : r ≠ none := by
  induction fuel generalizing s events with
  | zero =>
    rcases awaitExit_step run with hr | ⟨s', rest, hearly, -, -⟩
    · exact hr
    · omega
  | succ fuel ih =>
    rcases awaitExit_step run with hr | ⟨s', rest, -, hclock, hrest⟩
    · exact hr
    · refine ih ?_ hrest
      rw [Nat.add_mul] at h
      omega

theorem probe_step {r : Option (Except String Unit)} (run : Runs Machine.Does (probe plan deadline (fuel + 1)) s events r t) :
    (∃ why, r = some (.error why)) ∨
    (r = some (.ok ()) ∧ ∃ s', events = [⟨.exited, s, false, s'⟩, ⟨.healthy plan.health, s', true, t⟩]) ∨
    ∃ s' first rest, events = first ++ rest ∧ s.clock < deadline ∧ s.clock + PROBE_EVERY ≤ s'.clock ∧
      Runs Machine.Does (probe plan deadline fuel) s' rest r t := by
  obtain ⟨exited, s₁, rest₁, rfl, ⟨-, htick⟩, run₁⟩ := Prog.runs_op_bind.mp run
  match exited with
  | true => exact .inl ⟨_, (Prog.runs_ret.mp run₁).2.1⟩
  | false =>
    obtain ⟨healthy, s₂, rest₂, rfl, ⟨-, htick'⟩, run₂⟩ := Prog.runs_op_bind.mp run₁
    match healthy with
    | true =>
      obtain ⟨rfl, hr, rfl⟩ := Prog.runs_ret.mp run₂
      exact .inr (.inl ⟨hr, s₁, rfl⟩)
    | false =>
      obtain ⟨now, s₃, rest₃, rfl, ⟨-, hnow, hnow'⟩, run₃⟩ := Prog.runs_op_bind.mp run₂
      have hclock : s.clock ≤ now := htick.trans (htick'.trans hnow)
      by_cases hearly : deadline ≤ (now : Nat)
      · rw [if_pos hearly] at run₃
        exact .inl ⟨_, (Prog.runs_ret.mp run₃).2.1⟩
      · rw [if_neg hearly] at run₃
        obtain ⟨_, s₄, rest₄, rfl, ⟨-, hpause⟩, run₄⟩ := Prog.runs_op_bind.mp run₃
        exact .inr (.inr ⟨s₄, [_, _, _, _], rest₄, rfl, hclock.trans_lt (not_le.mp hearly),
          (Nat.add_le_add_right (hclock.trans hnow') _).trans hpause, run₄⟩)

theorem probe_returns {r : Option (Except String Unit)} (h : deadline ≤ s.clock + fuel * PROBE_EVERY)
    (run : Runs Machine.Does (probe plan deadline (fuel + 1)) s events r t) : r ≠ none := by
  induction fuel generalizing s events with
  | zero =>
    rcases probe_step run with ⟨why, rfl⟩ | ⟨rfl, -⟩ | ⟨s', first, rest, -, hearly, -⟩
    · exact Option.some_ne_none _
    · exact Option.some_ne_none _
    · omega
  | succ fuel ih =>
    rcases probe_step run with ⟨why, rfl⟩ | ⟨rfl, -⟩ | ⟨s', first, rest, -, -, hclock, hrest⟩
    · exact Option.some_ne_none _
    · exact Option.some_ne_none _
    · refine ih ?_ hrest
      rw [Nat.add_mul] at h
      omega

theorem probe_answered (run : Runs Machine.Does (probe plan deadline fuel) s events (some (.ok ())) t) :
    ∃ first s₁ s₂, events = first ++ [⟨.exited, s₁, false, s₂⟩, ⟨.healthy plan.health, s₂, true, t⟩] := by
  induction fuel generalizing s events with
  | zero => exact absurd (Prog.runs_ret.mp run).2.1 (Option.some_ne_none _)
  | succ fuel ih =>
    rcases probe_step run with ⟨why, hr⟩ | ⟨-, s', rfl⟩ | ⟨s', first, rest, rfl, -, -, hrest⟩
    · simp at hr
    · exact ⟨[], s, s', rfl⟩
    · obtain ⟨init, s₁, s₂, rfl⟩ := ih hrest
      exact ⟨first ++ init, s₁, s₂, (List.append_assoc _ _ _).symm⟩

/-! ## Putting the old binary back -/

/-- The marker is neither of the files that are renamed. -/
structure WatchPlan.Apart (plan : WatchPlan) : Prop where
  marker_target : plan.failedMarker ≠ plan.target
  marker_backup : plan.failedMarker ≠ plan.backup

def Restored (plan : WatchPlan) (events : List Call) : Prop :=
  ∃ s t, (⟨.rename plan.backup plan.target, s, .ok (), t⟩ : Call) ∈ events

/-- What a run that puts the old binary back does, from `s` to `t`. -/
structure PutBack (plan : WatchPlan) (s : Machine) (events : List Call) (t : Machine) : Prop where
  moments : ∀ files, Seen events files → files plan.target = s.file plan.target ∨ files plan.target = s.file plan.backup
  final : t.file plan.target = s.file plan.target ∨ t.file plan.target = s.file plan.backup
  marked : ∃ e ∈ events, ∃ why, e.op = .write plan.failedMarker why
  restored : Restored plan events → t.file plan.target = s.file plan.backup

theorem not_restored {α : Type} {x : Sys α} {a : α} (run : Runs Machine.Does x s events a t) (h : Only Quiet x) :
    ¬ Restored plan events := by
  rintro ⟨s', t', hmem⟩
  have := run.only h _ hmem
  simp [Quiet, Op.touches] at this

theorem restored_append {first second : List Call} :
    Restored plan (first ++ second) ↔ Restored plan first ∨ Restored plan second := by
  simp only [Restored, List.mem_append, exists_or]

theorem PutBack.after {α : Type} {x : Sys α} {a : α} {s' : Machine} {first : List Call}
    (run : Runs Machine.Does x s first a s') (hx : Only Quiet x) (h : PutBack plan s' events t) :
    PutBack plan s (first ++ events) t := by
  obtain ⟨hfile, hseen⟩ := Runs.quiet run hx
  constructor
  case moments =>
    intro files hfiles
    rcases seen_append.mp hfiles with hfirst | hrest
    · exact .inl (congrFun (hseen files hfirst) _)
    · exact hfile ▸ h.moments files hrest
  case final => exact hfile ▸ h.final
  case marked =>
    obtain ⟨e, he, why⟩ := h.marked
    exact ⟨e, List.mem_append_right _ he, why⟩
  case restored =>
    intro hdone
    exact hfile ▸ h.restored ((restored_append.mp hdone).resolve_left (not_restored run hx))

theorem PutBack.andThen {α : Type} {x : Sys α} {a : α} {u : Machine} {rest : List Call} (h : PutBack plan s events t)
    (run : Runs Machine.Does x t rest a u) (hx : Only Quiet x) : PutBack plan s (events ++ rest) u := by
  obtain ⟨hfile, hseen⟩ := Runs.quiet run hx
  constructor
  case moments =>
    intro files hfiles
    rcases seen_append.mp hfiles with hfirst | hrest
    · exact h.moments files hfirst
    · rw [hseen files hrest]
      exact h.final
  case final => exact hfile ▸ h.final
  case marked =>
    obtain ⟨e, he, why⟩ := h.marked
    exact ⟨e, List.mem_append_left _ he, why⟩
  case restored =>
    intro hdone
    rw [hfile]
    exact h.restored ((restored_append.mp hdone).resolve_right (not_restored run hx))

theorem mark_ends {path : PathBuf} (run : Runs Machine.Does (mark path why) s events () t) :
    (∃ e ∈ events, e.op = .write path why) ∧ (∀ p, p ≠ path → ∀ e ∈ events, Call.Keeps p e) ∧ ¬ Restored plan events := by
  have hmade := run.made
  obtain ⟨answer, s₁, rest, rfl, -, hrest⟩ := Prog.runs_op_bind.mp run
  have hlogged : ∀ e ∈ rest, ∃ line, e.op = .log line := by
    match answer with
    | .ok _ =>
      obtain ⟨rfl, -, -⟩ := Prog.runs_ret.mp hrest
      exact fun e he => absurd he List.not_mem_nil
    | .error _ =>
      obtain ⟨rfl, -⟩ := Prog.runs_op.mp hrest
      exact fun e he => ⟨_, congrArg Event.op (List.mem_singleton.mp he)⟩
  refine ⟨⟨_, List.mem_cons_self, rfl⟩, fun p hp e he => keeps_of_untouched (hmade e he) ?_, ?_⟩
  · rcases List.mem_cons.mp he with rfl | hmem
    · simpa [Op.touches] using hp
    · obtain ⟨line, hline⟩ := hlogged e hmem
      rw [hline]
      exact List.not_mem_nil
  · rintro ⟨s', t', hmem⟩
    rcases List.mem_cons.mp hmem with h | hmem
    · exact Op.noConfusion (congrArg Event.op h)
    · obtain ⟨line, hline⟩ := hlogged _ hmem
      exact Op.noConfusion hline

theorem rename_ends {source dest : PathBuf} {r : Except String Unit}
    (run : Runs Machine.Does (rename source dest) s events r t) :
    (r = .ok () ∧ events = [⟨.rename source dest, s, .ok (), t⟩] ∧ Machine.Does (.rename source dest) s (.ok ()) t) ∨
      ∃ why e, r = .error why ∧ events = [⟨.rename source dest, s, .error e, t⟩] ∧
        Machine.Does (.rename source dest) s (.error e) t := by
  obtain ⟨answer, s₁, rest, rfl, hdoes, hrest⟩ := Prog.runs_op_bind.mp run
  match answer with
  | .ok _ =>
    obtain ⟨rfl, hr, rfl⟩ := Prog.runs_ret.mp hrest
    exact .inl ⟨hr, rfl, hdoes⟩
  | .error e =>
    obtain ⟨rfl, hr, rfl⟩ := Prog.runs_ret.mp hrest
    exact .inr ⟨_, e, hr, rfl, hdoes⟩

theorem renamed {source dest : PathBuf} (h : Machine.Does (.rename source dest) s (.ok ()) t) :
    t.file dest = s.file source := by
  obtain ⟨⟨f, hf, ht | ⟨hdest, ht⟩⟩, -⟩ := h
  · rw [ht, hf, Function.update_self]
  · rw [ht, hf, hdest]

theorem restore_ends (hplan : plan.Apart) (run : Runs Machine.Does (restore plan why) s events () t) :
    PutBack plan s events t := by
  obtain ⟨first, second, _, s₁, rfl, hmark, hrest⟩ := Prog.runs_bind.mp run
  obtain ⟨⟨e, he, hop⟩, hkeeps, hnot⟩ := mark_ends hmark
  obtain ⟨htarget, hseen⟩ := Runs.seen_keeps hmark (hkeeps plan.target hplan.marker_target.symm)
  have hbackup := (Runs.seen_keeps hmark (hkeeps plan.backup hplan.marker_backup.symm)).1
  have hmarked : ∃ e ∈ first ++ second, ∃ why, e.op = .write plan.failedMarker why :=
    ⟨e, List.mem_append_left _ he, why, hop⟩
  obtain ⟨third, fourth, r, s₂, rfl, hrename, hend⟩ := Prog.runs_bind.mp hrest
  rcases rename_ends hrename with ⟨rfl, rfl, hdoes⟩ | ⟨text, cause, rfl, rfl, hdoes⟩
  · -- the backup is renamed to the target, and that is the last call
    obtain ⟨rfl, -, rfl⟩ := Prog.runs_ret.mp hend
    have hnew : t.file plan.target = s.file plan.backup := (renamed hdoes).trans hbackup
    refine ⟨fun files hfiles => ?_, .inr hnew, hmarked, fun _ => hnew⟩
    rcases seen_append.mp hfiles with hfirst | hlast
    · exact .inl (hseen files hfirst)
    · obtain rfl | hpass := seen_singleton.mp hlast
      · exact .inr hnew
      · exact hpass.elim
  · -- the rename failed, and a line is logged
    have hlog : Only Quiet (Sys.log s!"the previous agent could not be put back: {text}") := Only.op rfl
    obtain ⟨hfile, hquiet⟩ := Runs.quiet hend hlog
    have hfailed := keeps_of_failed hdoes plan.target
    have hafter : s₂.file plan.target = s.file plan.target := (hfailed _ (.inl rfl)).trans htarget
    refine ⟨fun files hfiles => .inl ?_, .inl (hfile ▸ hafter), hmarked, fun hdone => ?_⟩
    · rcases seen_append.mp hfiles with hfirst | hlater
      · exact hseen files hfirst
      · rcases seen_append.mp hlater with hthird | hfourth
        · exact (hfailed files (seen_singleton.mp hthird)).trans htarget
        · rw [hquiet files hfourth, hafter]
    · rcases restored_append.mp hdone with hfirst | hlater
      · exact absurd hfirst hnot
      · rcases restored_append.mp hlater with ⟨s', t', hmem⟩ | hfourth
        · cases List.mem_singleton.mp hmem
        · exact absurd hfourth (not_restored hend hlog)

/-! ## The whole of it -/

theorem rollBack_ends (hplan : plan.Apart) (run : Runs Machine.Does (rollBack plan why) s events () t) :
    PutBack plan s events t := by
  obtain ⟨first, second, _, s₁, rfl, hlog, hrest⟩ := Prog.runs_bind.mp run
  obtain ⟨third, fourth, _, s₂, rfl, hrestore, hspawn⟩ := Prog.runs_bind.mp hrest
  have hquiet : Only Quiet (do
      match ← spawn plan.target plan.args with
      | .ok () => pure ()
      | .error e => Sys.log s!"the restored agent did not start: {e}" : Sys Unit) := by
    refine Only.bind (spawn_quiet _ _) fun started => ?_
    cases started with
    | ok _ => trivial
    | error _ => exact Only.op rfl
  exact PutBack.after hlog (Only.op rfl) ((restore_ends hplan hrestore).andThen hspawn hquiet)

/-- The new agent was started, and the last it was asked it had not exited, and it answered. -/
def Answered (plan : WatchPlan) (events : List Call) : Prop :=
  ∃ first s₁ s₂ wait s₃ s₄ s₅ line s₆,
    events = first ++ ⟨.spawn plan.target plan.args [], s₁, .ok (), s₂⟩ ::
      (wait ++ [⟨.exited, s₃, false, s₄⟩, ⟨.healthy plan.health, s₄, true, s₅⟩, ⟨.log line, s₅, (), s₆⟩])

theorem start_answered (run : Runs Machine.Does (start plan fuel) s events (some (.ok ())) t) :
    Answered plan events := by
  obtain ⟨first, second, started, s₁, rfl, hspawn, hrest⟩ := Prog.runs_bind.mp run
  obtain ⟨answer, s₂, rest, rfl, -, hanswer⟩ := Prog.runs_op_bind.mp hspawn
  match answer with
  | .error _ =>
    obtain ⟨rfl, rfl, rfl⟩ := Prog.runs_ret.mp hanswer
    exact absurd (Prog.runs_ret.mp hrest).2.1 (by simp)
  | .ok _ =>
    obtain ⟨rfl, rfl, rfl⟩ := Prog.runs_ret.mp hanswer
    obtain ⟨third, fourth, waited, s₃, rfl, hwait, hlast⟩ := Prog.runs_bind.mp hrest
    match waited with
    | none => exact absurd (Prog.runs_ret.mp hlast).2.1 (by simp)
    | some (.error _) =>
      obtain ⟨_, s₄, rest, rfl, -, hend⟩ := Prog.runs_op_bind.mp hlast
      exact absurd (Prog.runs_ret.mp hend).2.1 (by simp)
    | some (.ok _) =>
      obtain ⟨_, s₄, rest, rfl, -, hend⟩ := Prog.runs_op_bind.mp hlast
      obtain ⟨rfl, -, rfl⟩ := Prog.runs_ret.mp hend
      obtain ⟨now, s₅, rest, rfl, -, hprobe⟩ := Prog.runs_op_bind.mp hwait
      obtain ⟨wait, s₆, s₇, rfl⟩ := probe_answered hprobe
      refine ⟨[], s, s₁, ⟨.now, s₁, now, s₅⟩ :: wait, s₆, s₇, s₃, s!"{plan.version} answers on {plan.health}", t, ?_⟩
      simp only [List.nil_append, List.cons_append, List.append_assoc]
      rfl

theorem Answered.after (first : List Call) (h : Answered plan events) : Answered plan (first ++ events) := by
  obtain ⟨init, s₁, s₂, wait, s₃, s₄, s₅, line, s₆, rfl⟩ := h
  exact ⟨first ++ init, s₁, s₂, wait, s₃, s₄, s₅, line, s₆, (List.append_assoc _ _ _).symm⟩

theorem supervise_waits (run : Runs Machine.Does (supervise plan fuel) s events r t) :
    ∃ first rest gone s', events = first ++ rest ∧
      Runs Machine.Does (do let now ← Sys.now; awaitExit plan (now + PARENT_EXIT) fuel) s first gone s' ∧
      (gone = none ∧ rest = [] ∧ r = none ∧ t = s' ∨
        (gone = some false ∧ r = some .parentStuck ∧
          ∃ line why, Runs Machine.Does (Sys.log line >>= fun _ => restore plan why) s' rest () t) ∨
        (gone = some true ∧ ∃ second third kept s'', rest = second ++ third ∧
          Runs Machine.Does (start plan fuel) s' second kept s'' ∧
          (kept = none ∧ third = [] ∧ r = none ∧ t = s'' ∨ kept = some (.ok ()) ∧ third = [] ∧ r = some .healthy ∧ t = s'' ∨
            ∃ why, kept = some (.error why) ∧ r = some .rolledBack ∧
              Runs Machine.Does (rollBack plan why) s'' third () t))) := by
  obtain ⟨now, s₁, rest₁, rfl, hnow, run₁⟩ := Prog.runs_op_bind.mp run
  obtain ⟨first, rest₂, gone, s₂, rfl, hgone, run₂⟩ := Prog.runs_bind.mp run₁
  refine ⟨⟨.now, s, now, s₁⟩ :: first, rest₂, gone, s₂, rfl, Prog.runs_op_bind.mpr ⟨now, s₁, first, rfl, hnow, hgone⟩, ?_⟩
  match gone with
  | none =>
    obtain ⟨rfl, hr, rfl⟩ := Prog.runs_ret.mp run₂
    exact .inl ⟨rfl, rfl, hr, rfl⟩
  | some false =>
    obtain ⟨answer, s₃, rest₃, rfl, hlog, run₃⟩ := Prog.runs_op_bind.mp run₂
    obtain ⟨restoring, rest₄, _, s₄, rfl, hrestore, run₄⟩ := Prog.runs_bind.mp run₃
    obtain ⟨rfl, hr, rfl⟩ := Prog.runs_ret.mp run₄
    refine .inr (.inl ⟨rfl, hr, _, _, Prog.runs_op_bind.mpr ⟨answer, s₃, restoring, ?_, hlog, hrestore⟩⟩)
    rw [List.append_nil]
  | some true =>
    obtain ⟨second, third, kept, s₃, rfl, hstart, run₃⟩ := Prog.runs_bind.mp run₂
    refine .inr (.inr ⟨rfl, second, third, kept, s₃, rfl, hstart, ?_⟩)
    match kept with
    | none =>
      obtain ⟨rfl, hr, rfl⟩ := Prog.runs_ret.mp run₃
      exact .inl ⟨rfl, rfl, hr, rfl⟩
    | some (.ok _) =>
      obtain ⟨rfl, hr, rfl⟩ := Prog.runs_ret.mp run₃
      exact .inr (.inl ⟨rfl, rfl, hr, rfl⟩)
    | some (.error why) =>
      obtain ⟨rolling, rest₄, _, s₄, rfl, hroll, run₄⟩ := Prog.runs_bind.mp run₃
      obtain ⟨rfl, hr, rfl⟩ := Prog.runs_ret.mp run₄
      exact .inr (.inr ⟨why, rfl, hr, by rwa [List.append_nil]⟩)

theorem supervise_ends (hplan : plan.Apart) (run : Runs Machine.Does (supervise plan fuel) s events r t) :
    (∀ files, Seen events files → files plan.target = s.file plan.target ∨ files plan.target = s.file plan.backup) ∧
      (r = some .rolledBack ∨ r = some .parentStuck → PutBack plan s events t) ∧
      (r = some .healthy → Answered plan events) := by
  obtain ⟨first, rest, gone, s₁, rfl, hwait, hend⟩ := supervise_waits run
  have hquiet : Only Quiet (do let now ← Sys.now; awaitExit plan (now + PARENT_EXIT) fuel) :=
    Only.bind (Only.op rfl) fun now => awaitExit_quiet plan _ fuel
  rcases hend with ⟨-, rfl, rfl, -⟩ | ⟨-, rfl, line, why, hrestore⟩ | ⟨-, second, third, kept, s₂, rfl, hstart, hend⟩
  · refine ⟨fun files hfiles => .inl ?_, by simp, by simp⟩
    rw [List.append_nil] at hfiles
    exact congrFun ((Runs.quiet hwait hquiet).2 files hfiles) _
  · obtain ⟨answer, s₂, rest₂, rfl, hlog, hrestore⟩ := Prog.runs_op_bind.mp hrestore
    have hput := PutBack.after hwait hquiet
      (PutBack.after (Prog.runs_op.mpr ⟨rfl, hlog⟩) (Only.op rfl) (restore_ends hplan hrestore))
    exact ⟨hput.moments, fun _ => hput, by simp⟩
  · have hbefore : ∀ files, Seen (first ++ second) files → files plan.target = s.file plan.target := by
      intro files hfiles
      rcases seen_append.mp hfiles with hfirst | hsecond
      · exact congrFun ((Runs.quiet hwait hquiet).2 files hfirst) _
      · rw [(Runs.quiet hstart (start_quiet plan fuel)).2 files hsecond, (Runs.quiet hwait hquiet).1]
    rcases hend with ⟨-, rfl, rfl, -⟩ | ⟨rfl, rfl, rfl, -⟩ | ⟨why, -, rfl, hroll⟩
    · rw [List.append_nil]
      exact ⟨fun files hfiles => .inl (hbefore files hfiles), by simp, by simp⟩
    · rw [List.append_nil]
      exact ⟨fun files hfiles => .inl (hbefore files hfiles), by simp, fun _ => (start_answered hstart).after first⟩
    · have hput := PutBack.after hwait hquiet (PutBack.after hstart (start_quiet plan fuel) (rollBack_ends hplan hroll))
      exact ⟨hput.moments, fun _ => hput, by simp⟩

theorem start_returns {r : Option (Except String Unit)} (h : 240 < fuel)
    (run : Runs Machine.Does (start plan fuel) s events r t) : r ≠ none := by
  obtain ⟨fuel, rfl⟩ := Nat.exists_eq_succ_of_ne_zero (Nat.ne_of_gt (Nat.zero_lt_of_lt h))
  obtain ⟨first, second, started, s₁, rfl, -, hrest⟩ := Prog.runs_bind.mp run
  match started with
  | .error _ =>
    rw [(Prog.runs_ret.mp hrest).2.1]
    exact Option.some_ne_none _
  | .ok _ =>
    obtain ⟨third, fourth, waited, s₂, rfl, hwait, hlast⟩ := Prog.runs_bind.mp hrest
    match waited with
    | none =>
      obtain ⟨now, s₃, rest, rfl, ⟨-, -, hnow⟩, hprobe⟩ := Prog.runs_op_bind.mp hwait
      refine absurd rfl (probe_returns ?_ hprobe)
      simp only [HEALTHY_WITHIN, PROBE_EVERY] at hnow ⊢
      omega
    | some (.ok _) =>
      obtain ⟨_, s₄, rest, rfl, -, hend⟩ := Prog.runs_op_bind.mp hlast
      rw [(Prog.runs_ret.mp hend).2.1]
      exact Option.some_ne_none _
    | some (.error _) =>
      obtain ⟨_, s₄, rest, rfl, -, hend⟩ := Prog.runs_op_bind.mp hlast
      rw [(Prog.runs_ret.mp hend).2.1]
      exact Option.some_ne_none _

theorem supervise_returns (h : 240 < fuel) (run : Runs Machine.Does (supervise plan fuel) s events r t) : r ≠ none := by
  obtain ⟨first, rest, gone, s₁, rfl, hwait, hend⟩ := supervise_waits run
  rcases hend with ⟨rfl, -⟩ | ⟨-, rfl, -⟩ | ⟨-, second, third, kept, s₂, rfl, hstart, hend⟩
  · obtain ⟨fuel, rfl⟩ := Nat.exists_eq_succ_of_ne_zero (Nat.ne_of_gt (Nat.zero_lt_of_lt h))
    obtain ⟨now, s₂, rest, rfl, ⟨-, -, hnow⟩, hgone⟩ := Prog.runs_op_bind.mp hwait
    refine absurd rfl (awaitExit_returns ?_ hgone)
    simp only [PARENT_EXIT, PROBE_EVERY] at hnow ⊢
    omega
  · exact Option.some_ne_none _
  · rcases hend with ⟨rfl, -⟩ | ⟨-, -, rfl, -⟩ | ⟨why, -, rfl, -⟩
    · exact absurd rfl (start_returns h hstart)
    · exact Option.some_ne_none _
    · exact Option.some_ne_none _

end CitadelAgent.Updater
