import CitadelAgent.Updater.Watchdog

/-!
# The self-replacing installer

`updater/swap.rs`: the new file is copied beside the old one, the old one kept as a hard link, and one rename puts the
new one in place; then the old binary is started as the watchdog.

* `swapIn_ends` : `swap_in` fails with the target untouched, or has put the new file there and kept the old one;
* `working_agent_stays` : `install` and the watchdog together, over every choice of what fails.
-/

namespace CitadelAgent.Updater
open Prog (Event Runs Ends Only Fallible)

structure SelfReplace where
  target : PathBuf
  args : List String
  health : String
  stagingRoot : PathBuf
  root_apart : target.parent ≠ some stagingRoot

/-- `FsStaging::failed_marker` -/
def failedMarker (root : PathBuf) (version : String) : PathBuf := root.join (osStr s!"failed-{version}")

/-- The incoming copy and the backup. -/
def beside (target : PathBuf) : Except String (PathBuf × PathBuf) := do
  let dir ← match target.parent with
    | some dir => pure dir
    | none => throw s!"{target.display} has no directory"
  let name ← match target.fileName with
    | some name => pure (lossy name)
    | none => throw s!"{target.display} has no file name"
  pure (dir.join (osStr "." ++ name ++ osStr ".incoming"), dir.join (osStr "." ++ name ++ osStr ".previous"))

/-! ## The swap -/

def failing {α : Type} (incoming : PathBuf) (what : String) (e : IoError) : Fallible Op Op.Answer String α := do
  let _ ← Sys.removeFile incoming
  throw s!"{what}: {e.text}"

def attempt (incoming : PathBuf) (what : String) (x : Sys (Except IoError Unit)) : Fallible Op Op.Answer String Unit := do
  match ← x with
  | .ok () => pure ()
  | .error e => failing incoming what e

def removeBackup (incoming backup : PathBuf) : Fallible Op Op.Answer String Unit := do
  match ← Sys.removeFile backup with
  | .ok () => pure ()
  | .error e => if e.notFound then pure () else failing incoming "removing the last backup" e

/-- `swap_in` up to the rename. -/
def prepareSwap (staged target incoming backup : PathBuf) : Fallible Op Op.Answer String Unit := do
  attempt incoming "copying the new version in" (Sys.copy staged incoming)
  attempt incoming "making it executable" (Sys.setPermissions incoming 0o755)
  attempt incoming "flushing it" (Sys.sync incoming)
  removeBackup incoming backup
  attempt incoming "keeping the current version" (Sys.hardLink target backup)

def swapIn (staged target : PathBuf) : Fallible Op Op.Answer String PathBuf := do
  let (incoming, backup) ← Prog.ofExcept (beside target)
  prepareSwap staged target incoming backup
  attempt incoming "putting the new version in place" (Sys.rename incoming target)
  pure backup

/-! ## The install -/

def SelfReplace.watchPlan (self : SelfReplace) (pid : Nat) (backup : PathBuf) (version : Version) : WatchPlan where
  parentPid := pid
  target := self.target
  backup := backup
  health := self.health
  version := version.toText
  args := self.args
  failedMarker := failedMarker self.stagingRoot version.toText

def pathJson (path : PathBuf) : Except String Json :=
  match toStr path.bytes with
  | some text => .ok (.string text)
  | none => .error "path contains invalid UTF-8 characters"

/-- `serde_json::to_string` -/
def WatchPlan.encode (plan : WatchPlan) : Except String Json := do
  let target ← pathJson plan.target
  let backup ← pathJson plan.backup
  let failedMarker ← pathJson plan.failedMarker
  pure <| .object [("parent_pid", .number (.posInt (UInt64.ofNat plan.parentPid))), ("target", target), ("backup", backup),
    ("health", .string plan.health), ("version", .string plan.version), ("args", .array (plan.args.map Json.string)),
    ("failed_marker", failedMarker)]

/-- `Installer::install`, in the process `pid`. -/
def SelfReplace.install (self : SelfReplace) (pid : Nat) (staged : PathBuf) (version : Version) :
    Fallible Op Op.Answer String Unit := do
  let backup ← swapIn staged self.target
  let encoded ← Prog.ofExcept (self.watchPlan pid backup version).encode
  match ← Sys.spawn backup [] [(WATCHDOG_ENV, encoded)] with
  | .error e =>
    -- nothing would check the new version, so it does not stay
    match ← Sys.rename backup self.target with
    | .error r => throw s!"the watchdog did not start ({e.text}), and restoring failed: {r.text}"
    | .ok () => throw s!"the watchdog did not start: {e.text}"
  | .ok () =>
    Sys.log s!"restarting into {version.toText}; signed-in accounts will need to sign in again"
    Sys.handedOver

/-! ## The three files -/

variable {backup incoming : PathBuf} {what : String} {x : Sys (Except IoError Unit)}

theorem beside_eq {target : PathBuf} (h : beside target = .ok (incoming, backup)) :
    ∃ dir name, target.parent = some dir ∧ target = dir.join name ∧
      incoming = dir.join (osStr "." ++ lossy name ++ osStr ".incoming") ∧
      backup = dir.join (osStr "." ++ lossy name ++ osStr ".previous") := by
  unfold beside at h
  cases hdir : target.parent with
  | none => simp [hdir, bind, Except.bind, throw, throwThe, MonadExceptOf.throw] at h
  | some dir =>
    cases hname : target.fileName with
    | none => simp [hdir, hname, bind, Except.bind, throw, throwThe, MonadExceptOf.throw, pure, Except.pure] at h
    | some name =>
      simp only [hdir, hname, bind, Except.bind, pure, Except.pure, Except.ok.injEq, Prod.mk.injEq] at h
      exact ⟨dir, name, rfl, PathBuf.eq_join hdir hname, h.1.symm, h.2.symm⟩

theorem beside_apart {target : PathBuf} (h : beside target = .ok (incoming, backup)) :
    incoming ≠ target ∧ backup ≠ target ∧ incoming ≠ backup := by
  obtain ⟨dir, name, -, htarget, rfl, rfl⟩ := beside_eq h
  have hlong := length_le_lossy name
  have hlength : (osStr ".").length = 1 ∧ (osStr ".incoming").length = 9 ∧ (osStr ".previous").length = 9 := by decide
  rw [htarget, Ne, Ne, Ne, PathBuf.join_inj, PathBuf.join_inj, PathBuf.join_inj]
  refine ⟨fun ⟨_, heq⟩ => ?_, fun ⟨_, heq⟩ => ?_, fun ⟨_, heq⟩ => ?_⟩
  · have := congrArg List.length heq
    simp only [List.length_append] at this
    omega
  · have := congrArg List.length heq
    simp only [List.length_append] at this
    omega
  · exact absurd (List.append_cancel_left heq) (by decide)

theorem watchPlan_apart (self : SelfReplace) (h : beside self.target = .ok (incoming, backup))
    (pid : Nat) (version : Version) : (self.watchPlan pid backup version).Apart := by
  obtain ⟨dir, name, hdir, htarget, -, rfl⟩ := beside_eq h
  have hne : self.stagingRoot ≠ dir := fun heq => self.root_apart (heq ▸ hdir)
  constructor
  · show failedMarker self.stagingRoot version.toText ≠ self.target
    rw [htarget, failedMarker, Ne, PathBuf.join_inj]
    exact fun heq => hne heq.1
  · show failedMarker self.stagingRoot version.toText ≠ dir.join _
    rw [failedMarker, Ne, PathBuf.join_inj]
    exact fun heq => hne heq.1

/-! ## What a swap does -/

variable {staged target incoming backup : PathBuf} {s t : Machine} {events : List Call}

def newFile (s : Machine) (staged : PathBuf) : Option File := (s.file staged).map fun f => { f with mode := 0o755 }

theorem attempt_only {P : Op → Prop} (hx : Only P x) (hremove : P (.removeFile incoming)) : Only P (attempt incoming what x).run := by
  refine Only.fallible (Only.bind hx fun _ => trivial) fun answer => ?_
  match answer with
  | .ok _ => trivial
  | .error _ => exact Only.fallible (Only.bind (Only.op hremove) fun _ => trivial) fun _ => trivial

theorem prepareSwap_only {P : Op → Prop} (hcopy : P (.copy staged incoming)) (hmode : P (.setPermissions incoming 0o755))
    (hsync : P (.sync incoming)) (hremove : P (.removeFile incoming)) (hbackup : P (.removeFile backup))
    (hlink : P (.hardLink target backup)) : Only P (prepareSwap staged target incoming backup).run := by
  refine Only.fallible (attempt_only (Only.op hcopy) hremove) fun _ => ?_
  refine Only.fallible (attempt_only (Only.op hmode) hremove) fun _ => ?_
  refine Only.fallible (attempt_only (Only.op hsync) hremove) fun _ => ?_
  refine Only.fallible (Only.fallible (Only.bind (Only.op hbackup) fun _ => trivial) fun answer => ?_) fun _ =>
    attempt_only (Only.op hlink) hremove
  match answer with
  | .ok _ => trivial
  | .error e =>
    show Only P (if e.notFound then pure () else failing incoming "removing the last backup" e : Fallible Op Op.Answer String Unit).run
    split
    · trivial
    · exact Only.fallible (Only.bind (Only.op hremove) fun _ => trivial) fun _ => trivial

theorem attempt_ends {r : Except String Unit} (run : Ends Machine.Does (attempt incoming what x) s events r t) :
    (r = .ok () ∧ Runs Machine.Does x s events (.ok ()) t) ∨
      ∃ e first rest cause s' answer, r = .error e ∧ events = first ++ rest ∧ Runs Machine.Does x s first (.error cause) s' ∧
        Runs Machine.Does (Sys.removeFile incoming) s' rest answer t := by
  rcases Prog.ends_bind.mp run with ⟨e, hx, -⟩ | ⟨first, second, answer, s₁, rfl, hx, hrest⟩
  · obtain ⟨a, ha, -⟩ := Prog.ends_lift.mp hx
    simp at ha
  · obtain ⟨a, ha, hx⟩ := Prog.ends_lift.mp hx
    obtain rfl := Except.ok.inj ha
    match answer with
    | .ok _ =>
      obtain ⟨rfl, hr, rfl⟩ := Prog.ends_pure.mp hrest
      exact .inl ⟨hr, by rwa [List.append_nil]⟩
    | .error cause =>
      rcases Prog.ends_bind.mp hrest with ⟨e, hremove, -⟩ | ⟨third, fourth, removed, s₂, rfl, hremove, hthrow⟩
      · obtain ⟨a, ha, -⟩ := Prog.ends_lift.mp hremove
        simp at ha
      · obtain ⟨a, ha, hremove⟩ := Prog.ends_lift.mp hremove
        obtain ⟨rfl, hr, rfl⟩ := Prog.ends_throw.mp hthrow
        exact .inr ⟨_, first, third, cause, s₁, a, hr, by rw [List.append_nil], hx, hremove⟩

theorem attempt_ok (run : Ends Machine.Does (attempt incoming what x) s events (.ok ()) t) :
    Runs Machine.Does x s events (.ok ()) t := by
  rcases attempt_ends run with ⟨-, hx⟩ | ⟨e, -, -, -, -, -, hr, -⟩
  · exact hx
  · simp at hr

theorem removeBackup_ok (run : Ends Machine.Does (removeBackup incoming backup) s events (.ok ()) t) :
    ∀ p, p ≠ backup → t.file p = s.file p := by
  rcases Prog.ends_bind.mp run with ⟨e, -, he⟩ | ⟨first, second, answer, s₁, rfl, hx, hrest⟩
  · simp at he
  · obtain ⟨a, ha, hx⟩ := Prog.ends_lift.mp hx
    obtain rfl := Except.ok.inj ha
    obtain ⟨rfl, hdoes⟩ := Prog.runs_op.mp hx
    have hkeeps : ∀ p, p ≠ backup → s₁.file p = s.file p :=
      fun p hp => changes_frame hdoes.1 (by simpa [Op.touches] using hp)
    cases answer with
    | ok _ =>
      obtain ⟨-, -, rfl⟩ := Prog.ends_pure.mp hrest
      exact hkeeps
    | error e =>
      by_cases hnone : e.notFound = true
      · simp only [hnone, if_true] at hrest
        obtain ⟨-, -, rfl⟩ := Prog.ends_pure.mp hrest
        exact hkeeps
      · simp only [hnone] at hrest
        rcases Prog.ends_bind.mp hrest with ⟨e, -, he⟩ | ⟨third, fourth, _, s₂, rfl, -, hthrow⟩
        · simp at he
        · exact absurd (Prog.ends_throw.mp hthrow).2.1 (by simp)

theorem prepareSwap_ok (hapart : incoming ≠ target ∧ backup ≠ target ∧ incoming ≠ backup)
    (run : Ends Machine.Does (prepareSwap staged target incoming backup) s events (.ok ()) t) :
    t.file incoming = newFile s staged ∧ t.file backup = s.file target := by
  obtain ⟨_, _, _, s₁, -, hcopy, run₁⟩ := Prog.ends_bind_ok.mp run
  obtain ⟨_, _, _, s₂, -, hmode, run₂⟩ := Prog.ends_bind_ok.mp run₁
  obtain ⟨_, _, _, s₃, -, hsync, run₃⟩ := Prog.ends_bind_ok.mp run₂
  obtain ⟨_, _, _, s₄, -, hremove, hlink⟩ := Prog.ends_bind_ok.mp run₃
  obtain ⟨-, ⟨f, hf, hs₁⟩, -⟩ := Prog.runs_op.mp (attempt_ok hcopy)
  obtain ⟨-, ⟨g, hg, hs₂⟩, -⟩ := Prog.runs_op.mp (attempt_ok hmode)
  obtain ⟨-, hs₃, -⟩ := Prog.runs_op.mp (attempt_ok hsync)
  have hs₄ := removeBackup_ok hremove
  obtain ⟨-, ⟨old, hold, -, hs₅⟩, -⟩ := Prog.runs_op.mp (attempt_ok hlink)
  have hnew : s₂.file incoming = newFile s staged := by
    rw [hs₁, Function.update_self] at hg
    rw [hs₂, Function.update_self, newFile, hf, ← Option.some.inj hg]
    rfl
  have htarget : s₄.file target = s.file target := by
    rw [hs₄ target hapart.2.1.symm, hs₃, hs₂, Function.update_of_ne hapart.1.symm, hs₁, Function.update_of_ne hapart.1.symm]
  constructor
  · rw [hs₅, Function.update_of_ne hapart.2.2, hs₄ incoming hapart.2.2, hs₃, hnew]
  · rw [hs₅, Function.update_self, ← hold, htarget]

theorem swapIn_ends {r : Except String PathBuf} (run : Ends Machine.Does (swapIn staged target) s events r t) :
    (∃ e, r = .error e ∧ ∀ c ∈ events, Call.Keeps target c) ∨
      ∃ incoming backup, beside target = .ok (incoming, backup) ∧ r = .ok backup ∧ t.file target = newFile s staged ∧
        t.file backup = s.file target ∧
        ∀ files, Seen events files → files target = s.file target ∨ files target = newFile s staged := by
  rcases Prog.ends_bind.mp run with ⟨e, hnames, rfl⟩ | ⟨_, rest, ⟨incoming, backup⟩, s₁, rfl, hnames, hrest⟩
  · obtain ⟨rfl, -, rfl⟩ := Prog.ends_ofExcept.mp hnames
    exact .inl ⟨e, rfl, fun c hc => absurd hc List.not_mem_nil⟩
  obtain ⟨rfl, hbeside, rfl⟩ := Prog.ends_ofExcept.mp hnames
  rw [List.nil_append]
  have hapart := beside_apart hbeside.symm
  have hi : target ∉ [incoming] := by simpa using hapart.1.symm
  have hb : target ∉ [backup] := by simpa using hapart.2.1.symm
  have hkeeps : ∀ {events : List Call} {r : Except String Unit} {t : Machine},
      Ends Machine.Does (prepareSwap staged target incoming backup) s₁ events r t → ∀ c ∈ events, Call.Keeps target c :=
    fun hprepare c hc => keeps_of_untouched (hprepare.made c hc)
      (hprepare.only (P := fun o => target ∉ o.touches) (prepareSwap_only hi hi List.not_mem_nil hi hb hb) c hc)
  rcases Prog.ends_bind.mp hrest with ⟨e, hprepare, rfl⟩ | ⟨first, rest, _, s₂, rfl, hprepare, hrest⟩
  · exact .inl ⟨e, rfl, hkeeps hprepare⟩
  obtain ⟨hnew, hold⟩ := prepareSwap_ok hapart hprepare
  obtain ⟨hsame, hseen⟩ := Runs.seen_keeps hprepare (hkeeps hprepare)
  rcases Prog.ends_bind.mp hrest with ⟨e, hrename, rfl⟩ | ⟨second, rest, _, s₃, rfl, hrename, hend⟩
  · -- the rename failed: only the incoming copy goes
    refine .inl ⟨e, rfl, fun c hc => ?_⟩
    rcases List.mem_append.mp hc with hfirst | hrest
    · exact hkeeps hprepare c hfirst
    · rcases attempt_ends hrename with ⟨hr, -⟩ | ⟨e, third, fourth, cause, s₄, answer, -, rfl, hfail, hremove⟩
      · simp at hr
      · obtain ⟨rfl, hdoes⟩ := Prog.runs_op.mp hfail
        obtain ⟨rfl, hremoved⟩ := Prog.runs_op.mp hremove
        rcases List.mem_append.mp hrest with hthird | hfourth
        · rw [List.mem_singleton.mp hthird]
          exact keeps_of_failed hdoes target
        · rw [List.mem_singleton.mp hfourth]
          exact keeps_of_untouched hremoved hi
  · obtain ⟨rfl, hdoes⟩ := Prog.runs_op.mp (attempt_ok hrename)
    obtain ⟨rfl, hr, rfl⟩ := Prog.ends_pure.mp hend
    have hplaced : t.file target = newFile s₁ staged := (renamed hdoes).trans hnew
    have hkept : t.file backup = s₁.file target := by
      rw [← hold]
      exact changes_frame hdoes.1 (by simp [Op.touches, hapart.2.1, hapart.2.2.symm])
    refine .inr ⟨incoming, backup, hbeside.symm, hr, hplaced, hkept, fun files hfiles => ?_⟩
    rw [List.append_nil] at hfiles
    rcases seen_append.mp hfiles with hfirst | hlast
    · exact .inl (hseen files hfirst)
    · obtain rfl | hpass := seen_singleton.mp hlast
      · exact .inr hplaced
      · exact hpass.elim

/-! ## What an install does -/

def IsText (path : PathBuf) : Prop := (toStr path.bytes).isSome = true

instance (path : PathBuf) : Decidable (IsText path) := inferInstanceAs (Decidable (_ = true))

theorem encode_ok_iff {plan : WatchPlan} :
    (∃ encoded, plan.encode = .ok encoded) ↔ IsText plan.target ∧ IsText plan.backup ∧ IsText plan.failedMarker := by
  simp only [WatchPlan.encode, pathJson, IsText]
  cases toStr plan.target.bytes with
  | none => simp [bind, Except.bind]
  | some target =>
    cases toStr plan.backup.bytes with
    | none => simp [bind, Except.bind]
    | some backup =>
      cases toStr plan.failedMarker.bytes with
      | none => simp [bind, Except.bind]
      | some marker => simp [bind, Except.bind, pure, Except.pure]

def RestoreFailed (target : PathBuf) (events : List Call) : Prop :=
  ∃ incoming backup s cause t, beside target = .ok (incoming, backup) ∧
    (⟨.rename backup target, s, .error cause, t⟩ : Call) ∈ events

variable {self : SelfReplace} {pid : Nat} {version : Version}

/-- The names the swap uses and the watchdog is told are text, when there is a swap. -/
def Serialises (self : SelfReplace) (version : Version) : Prop :=
  ∀ incoming backup, beside self.target = .ok (incoming, backup) →
    IsText self.target ∧ IsText backup ∧ IsText (failedMarker self.stagingRoot version.toText)

theorem Serialises.encode (h : Serialises self version) (hbeside : beside self.target = .ok (incoming, backup)) (pid : Nat) :
    ∃ encoded, (self.watchPlan pid backup version).encode = .ok encoded :=
  encode_ok_iff.mpr (show IsText (self.watchPlan pid backup version).target ∧ _ from h incoming backup hbeside)

theorem install_ends {r : Except String Unit} (run : Ends Machine.Does (self.install pid staged version) s events r t) :
    (∀ files, Seen events files → files self.target = s.file self.target ∨ files self.target = newFile s staged) ∧
      ∀ e, r = .error e → t.file self.target = s.file self.target ∨ RestoreFailed self.target events ∨ ¬ Serialises self version := by
  rcases Prog.ends_bind.mp run with ⟨e, hswap, rfl⟩ | ⟨first, rest, backup, s₁, rfl, hswap, hrest⟩
  · rcases swapIn_ends hswap with ⟨_, -, hkeeps⟩ | ⟨_, _, -, hr, -⟩
    · obtain ⟨hsame, hseen⟩ := Runs.seen_keeps hswap hkeeps
      exact ⟨fun files hfiles => .inl (hseen files hfiles), fun _ _ => .inl hsame⟩
    · simp at hr
  rcases swapIn_ends hswap with ⟨_, hr, -⟩ | ⟨incoming, backup, hbeside, hr, hplaced, hkept, hseen⟩
  · simp at hr
  obtain rfl := Except.ok.inj hr
  rcases Prog.ends_bind.mp hrest with ⟨e, hencode, rfl⟩ | ⟨_, rest, encoded, s₂, rfl, hencode, hafter⟩
  · -- the plan does not serialise: the new file stays
    obtain ⟨rfl, hfailed, rfl⟩ := Prog.ends_ofExcept.mp hencode
    refine ⟨fun files hfiles => hseen files (by rwa [List.append_nil] at hfiles), fun _ _ => .inr (.inr fun hserial => ?_)⟩
    obtain ⟨encoded, henc⟩ := hserial.encode hbeside pid
    exact absurd (hfailed.trans henc) (by simp)
  obtain ⟨rfl, -, rfl⟩ := Prog.ends_ofExcept.mp hencode
  rw [List.nil_append]
  obtain ⟨second, rest, answer, s₃, rfl, hspawn, hanswer⟩ := Prog.ends_lift_bind.mp hafter
  obtain ⟨hfile, hquiet⟩ := Runs.quiet hspawn (Only.op rfl)
  match answer with
  | .ok _ =>
    obtain ⟨third, rest, _, s₄, rfl, hlog, hlast⟩ := Prog.ends_lift_bind.mp hanswer
    obtain ⟨hfile', hquiet'⟩ := Runs.quiet hlog (Only.op rfl)
    obtain ⟨answer, hr, hover⟩ := Prog.ends_lift.mp hlast
    obtain ⟨-, hquiet''⟩ := Runs.quiet hover (Only.op rfl)
    refine ⟨fun files hfiles => ?_, fun e he => by simp [hr] at he⟩
    rcases seen_append.mp hfiles with hfirst | hlater
    · exact hseen files hfirst
    · have hsame : files = s₂.file := by
        rcases seen_append.mp hlater with h | h
        · exact hquiet files h
        · rcases seen_append.mp h with h | h
          · exact (hquiet' files h).trans hfile
          · exact (hquiet'' files h).trans (hfile'.trans hfile)
      exact .inr (hsame ▸ hplaced)
  | .error cause =>
    obtain ⟨third, rest, renamed', s₄, rfl, hrename, hthrow⟩ := Prog.ends_lift_bind.mp hanswer
    obtain ⟨rfl, hdoes⟩ := Prog.runs_op.mp hrename
    match renamed' with
    | .ok _ =>
      obtain ⟨rfl, rfl, rfl⟩ := Prog.ends_throw.mp hthrow
      have hrestored : t.file self.target = s.file self.target := by
        rw [renamed hdoes, hfile, hkept]
      refine ⟨fun files hfiles => ?_, fun _ _ => .inl hrestored⟩
      rcases seen_append.mp hfiles with hfirst | hlater
      · exact hseen files hfirst
      · rcases seen_append.mp hlater with h | h
        · exact .inr (hquiet files h ▸ hplaced)
        · obtain rfl | hpass := seen_singleton.mp h
          · exact .inl hrestored
          · exact hpass.elim
    | .error again =>
      obtain ⟨rfl, rfl, rfl⟩ := Prog.ends_throw.mp hthrow
      refine ⟨fun files hfiles => ?_, fun _ _ => .inr (.inl ⟨incoming, backup, s₃, again, t, hbeside, by simp⟩)⟩
      rcases seen_append.mp hfiles with hfirst | hlater
      · exact hseen files hfirst
      · rcases seen_append.mp hlater with h | h
        · exact .inr (hquiet files h ▸ hplaced)
        · rw [keeps_of_failed hdoes self.target files (seen_singleton.mp h), hfile]
          exact .inr hplaced

theorem install_ok (run : Ends Machine.Does (self.install pid staged version) s events (.ok ()) t) :
    ∃ incoming backup, beside self.target = .ok (incoming, backup) ∧ t.file self.target = newFile s staged ∧
      t.file backup = s.file self.target := by
  obtain ⟨first, rest, backup, s₁, rfl, hswap, hrest⟩ := Prog.ends_bind_ok.mp run
  rcases swapIn_ends hswap with ⟨_, hr, -⟩ | ⟨incoming, backup, hbeside, hr, hplaced, hkept, -⟩
  · simp at hr
  obtain rfl := Except.ok.inj hr
  obtain ⟨_, rest, encoded, s₂, rfl, hencode, hafter⟩ := Prog.ends_bind_ok.mp hrest
  obtain ⟨rfl, -, rfl⟩ := Prog.ends_ofExcept.mp hencode
  obtain ⟨second, rest, answer, s₃, rfl, hspawn, hanswer⟩ := Prog.ends_lift_bind.mp hafter
  have hfile := (Runs.quiet hspawn (Only.op rfl)).1
  match answer with
  | .ok _ =>
    obtain ⟨third, rest, _, s₄, rfl, hlog, hlast⟩ := Prog.ends_lift_bind.mp hanswer
    obtain ⟨_, -, hover⟩ := Prog.ends_lift.mp hlast
    have hsame : t.file = s₂.file :=
      (Runs.quiet hover (Only.op rfl)).1.trans ((Runs.quiet hlog (Only.op rfl)).1.trans hfile)
    exact ⟨incoming, backup, hbeside, hsame ▸ hplaced, hsame ▸ hkept⟩
  | .error _ =>
    obtain ⟨third, rest, again, s₄, rfl, -, hthrow⟩ := Prog.ends_lift_bind.mp hanswer
    match again with
    | .ok _ => exact absurd (Prog.ends_throw.mp hthrow).2.1 (by simp)
    | .error _ => exact absurd (Prog.ends_throw.mp hthrow).2.1 (by simp)

/-! ## A swap in which nothing fails -/

theorem attempt_succeeds (hx : Runs Machine.Does x s events (.ok ()) t) :
    Ends Machine.Does (attempt incoming what x) s events (.ok ()) t := by
  have := Prog.ends_seq (f := fun answer => match answer with
    | .ok () => pure ()
    | .error e => failing incoming what e) (Prog.ends_lift.mpr ⟨_, rfl, hx⟩) (Prog.ends_pure.mpr ⟨rfl, rfl, rfl⟩)
  rwa [List.append_nil] at this

theorem removeBackup_succeeds (s : Machine) (incoming backup : PathBuf) :
    ∃ events, Ends Machine.Does (removeBackup incoming backup) s events (.ok ())
      { s with file := Function.update s.file backup none } := by
  by_cases hnone : s.file backup = none
  · have hsame : Function.update s.file backup none = s.file := by rw [← hnone, Function.update_eq_self]
    have hgone : Machine.Does (.removeFile backup) s (.error ⟨true, ""⟩) { s with file := Function.update s.file backup none } :=
      ⟨⟨fun _ => hnone, hsame⟩, le_rfl⟩
    exact ⟨_, Prog.ends_seq (Prog.ends_lift.mpr ⟨_, rfl, Prog.runs_op.mpr ⟨rfl, hgone⟩⟩) (Prog.ends_pure.mpr ⟨rfl, rfl, rfl⟩)⟩
  · have hremoved : Machine.Does (.removeFile backup) s (.ok ()) { s with file := Function.update s.file backup none } :=
      ⟨⟨hnone, rfl⟩, le_rfl⟩
    exact ⟨_, Prog.ends_seq (Prog.ends_lift.mpr ⟨_, rfl, Prog.runs_op.mpr ⟨rfl, hremoved⟩⟩) (Prog.ends_pure.mpr ⟨rfl, rfl, rfl⟩)⟩

theorem swapIn_succeeds (hbeside : beside target = .ok (incoming, backup)) {new old : File} (hnew : s.file staged = some new)
    (hold : s.file target = some old) : ∃ events t, Ends Machine.Does (swapIn staged target) s events (.ok backup) t := by
  obtain ⟨hincoming, hbackup, hboth⟩ := beside_apart hbeside
  let copied : Machine := { s with file := Function.update s.file incoming (some new) }
  let executable : Machine :=
    { s with file := Function.update copied.file incoming (some { new with mode := 0o755 }) }
  let removed : Machine := { s with file := Function.update executable.file backup none }
  let linked : Machine := { s with file := Function.update removed.file backup (some old) }
  let placed : Machine :=
    { s with file := Function.update (Function.update linked.file incoming none) target (some { new with mode := 0o755 }) }
  have hcopy : Machine.Does (.copy staged incoming) s (.ok ()) copied := ⟨⟨new, hnew, rfl⟩, le_rfl⟩
  have hmode : Machine.Does (.setPermissions incoming 0o755) copied (.ok ()) executable :=
    ⟨⟨new, Function.update_self _ _ _, rfl⟩, le_rfl⟩
  have hsync : Machine.Does (.sync incoming) executable (.ok ()) executable := ⟨rfl, le_rfl⟩
  obtain ⟨removing, hremove⟩ := removeBackup_succeeds executable incoming backup
  have htarget : removed.file target = some old := by
    simp [removed, executable, copied, Function.update_of_ne hbackup.symm, Function.update_of_ne hincoming.symm, hold]
  have hlink : Machine.Does (.hardLink target backup) removed (.ok ()) linked :=
    ⟨⟨old, htarget, Function.update_self _ _ _, rfl⟩, le_rfl⟩
  have hincomingFile : linked.file incoming = some { new with mode := 0o755 } := by
    simp [linked, removed, executable, Function.update_of_ne hboth]
  have hrename : Machine.Does (.rename incoming target) linked (.ok ()) placed :=
    ⟨⟨_, hincomingFile, .inl rfl⟩, le_rfl⟩
  have hrun {o : Op} {s t : Machine} {answer : o.Answer} (h : Machine.Does o s answer t) :
      Runs Machine.Does (Prog.op o) s [⟨o, s, answer, t⟩] answer t := Prog.runs_op.mpr ⟨rfl, h⟩
  obtain ⟨preparing, hprepare⟩ :
      ∃ events, Ends Machine.Does (prepareSwap staged target incoming backup) s events (.ok ()) linked :=
    ⟨_, Prog.ends_seq (attempt_succeeds (hrun hcopy)) (Prog.ends_seq (attempt_succeeds (hrun hmode))
      (Prog.ends_seq (attempt_succeeds (hrun hsync)) (Prog.ends_seq hremove (attempt_succeeds (hrun hlink)))))⟩
  exact ⟨_, placed, Prog.ends_seq (Prog.ends_ofExcept.mpr ⟨rfl, hbeside.symm, rfl⟩) (Prog.ends_seq hprepare
    (Prog.ends_seq (attempt_succeeds (hrun hrename)) (Prog.ends_pure.mpr ⟨rfl, rfl, rfl⟩)))⟩

theorem swapIn_not_restoring {r : Except String PathBuf} (run : Ends Machine.Does (swapIn staged target) s events r t) :
    ¬ RestoreFailed target events := by
  rintro ⟨incoming, backup, s', cause, t', hbeside, hmem⟩
  have hne : Op.rename incoming target ≠ .rename backup target := fun h => (beside_apart hbeside).2.2 (Op.rename.inj h).1
  have heq : swapIn staged target = (do
      prepareSwap staged target incoming backup
      attempt incoming "putting the new version in place" (Sys.rename incoming target)
      pure backup) := by
    rw [swapIn, hbeside]
    rfl
  rw [heq] at run
  refine run.only (P := fun o => o ≠ .rename backup target) (Only.fallible (prepareSwap_only ?_ ?_ ?_ ?_ ?_ ?_) fun _ =>
    Only.fallible (attempt_only (Only.op hne) ?_) fun _ => trivial) _ hmem rfl
  all_goals exact Op.noConfusion

theorem install_strands (h : ¬ Serialises self version) (pid : Nat) (staged : PathBuf) :
    ∃ s events e t, Ends Machine.Does (self.install pid staged version) s events (.error e) t ∧
      ¬ RestoreFailed self.target events ∧ t.file self.target ≠ s.file self.target := by
  simp only [Serialises, not_forall] at h
  obtain ⟨incoming, backup, hbeside, hnot⟩ := h
  let s : Machine := ⟨fun _ => some ⟨[], 0⟩, 0⟩
  obtain ⟨events, t, hswap⟩ : ∃ events t, Ends Machine.Does (swapIn staged self.target) s events (.ok backup) t :=
    swapIn_succeeds hbeside rfl rfl
  have hplaced : t.file self.target = some ⟨[], 0o755⟩ := by
    rcases swapIn_ends hswap with ⟨_, hr, -⟩ | ⟨_, _, -, -, hplaced, -⟩
    · simp at hr
    · exact hplaced
  obtain ⟨e, he⟩ : ∃ e, (self.watchPlan pid backup version).encode = .error e := by
    cases hencode : (self.watchPlan pid backup version).encode with
    | error e => exact ⟨e, rfl⟩
    | ok encoded => exact absurd (encode_ok_iff.mp ⟨encoded, hencode⟩) hnot
  have hstop : Ends Machine.Does (Prog.ofExcept (self.watchPlan pid backup version).encode) t [] (.error e) t :=
    Prog.ends_ofExcept.mpr ⟨rfl, he.symm, rfl⟩
  refine ⟨s, events ++ [], e, t, Prog.ends_seq hswap (Prog.ends_bind.mpr (.inl ⟨e, hstop, rfl⟩)), ?_, ?_⟩
  · rw [List.append_nil]
    exact swapIn_not_restoring hswap
  · rw [hplaced]
    exact (by decide : some (⟨[], 0o755⟩ : File) ≠ some ⟨[], 0⟩)

/-! ## Both processes -/

/-- At every moment of an install and of the watchdog the target is the old file or the new one; and an install that
fails has left or restored the old one, exactly when the names the watchdog is told are text. -/
theorem working_agent_stays (self : SelfReplace) (pid : Nat) (staged : PathBuf) (version : Version) :
    (∀ s events r t, Ends Machine.Does (self.install pid staged version) s events r t → ∀ files, Seen events files →
      files self.target = s.file self.target ∨ files self.target = newFile s staged) ∧
    ((∀ s events e t, Ends Machine.Does (self.install pid staged version) s events (.error e) t →
        ¬ RestoreFailed self.target events → t.file self.target = s.file self.target) ↔ Serialises self version) ∧
    (∀ s events t, Ends Machine.Does (self.install pid staged version) s events (.ok ()) t →
      ∃ incoming backup, beside self.target = .ok (incoming, backup) ∧ t.file self.target = newFile s staged ∧
        t.file backup = s.file self.target) ∧
    ∀ incoming backup, beside self.target = .ok (incoming, backup) → ∀ fuel s events r t,
      Runs Machine.Does (supervise (self.watchPlan pid backup version) fuel) s events r t →
        (∀ files, Seen events files → files self.target = s.file self.target ∨ files self.target = s.file backup) ∧
        (r = some .rolledBack ∨ r = some .parentStuck →
          (∃ e ∈ events, ∃ why, e.op = .write (failedMarker self.stagingRoot version.toText) why) ∧
          (Restored (self.watchPlan pid backup version) events → t.file self.target = s.file backup)) ∧
        (r = some .healthy → Answered (self.watchPlan pid backup version) events) ∧ (240 < fuel → r ≠ none) := by
  refine ⟨fun s events r t run => (install_ends run).1, ⟨fun h => ?_, fun h s events e t run hrestore => ?_⟩,
    fun s events t run => install_ok run, fun incoming backup hbeside fuel s events r t run => ?_⟩
  · by_contra hnot
    obtain ⟨s, events, e, t, run, hrestore, hne⟩ := install_strands hnot pid staged
    exact hne (h s events e t run hrestore)
  · rcases (install_ends run).2 e rfl with hsame | hfailed | hnot
    · exact hsame
    · exact absurd hfailed hrestore
    · exact absurd h hnot
  · obtain ⟨hmoments, hput, hanswered⟩ := supervise_ends (watchPlan_apart self hbeside pid version) run
    exact ⟨hmoments, fun hr => ⟨(hput hr).marked, (hput hr).restored⟩, hanswered, fun h => supervise_returns h run⟩

/-- `/a/citadel-agent`, staged under `/c`. -/
def agentInA : SelfReplace where
  target := ⟨true, [.normal (osStr "a"), .normal (osStr "citadel-agent")]⟩
  args := []
  health := "127.0.0.1:12345"
  stagingRoot := ⟨true, [.normal (osStr "c")]⟩
  root_apart := by decide

def stagedInC : PathBuf := ⟨true, [.normal (osStr "c"), .normal (osStr "0.9.0"), .normal (osStr "citadel-agent")]⟩

/-- The first copy fails. -/
theorem working_agent_stays_copy :
    ∃ s events e t, Ends Machine.Does (agentInA.install 42 stagedInC ⟨0, 9, 0, "", ""⟩) s events (.error e) t ∧
      t.file agentInA.target = s.file agentInA.target := by
  let s : Machine := ⟨fun path => if path = agentInA.target then some ⟨[1], 0o755⟩ else none, 0⟩
  let incoming : PathBuf := ⟨true, [.normal (osStr "a"), .normal (osStr ".citadel-agent.incoming")]⟩
  let backup : PathBuf := ⟨true, [.normal (osStr "a"), .normal (osStr ".citadel-agent.previous")]⟩
  have hbeside : beside agentInA.target = .ok (incoming, backup) := by decide +kernel
  have hserial : Serialises agentInA ⟨0, 9, 0, "", ""⟩ := by
    intro i b h
    obtain ⟨rfl, rfl⟩ := Prod.mk.inj (Except.ok.inj (hbeside.symm.trans h))
    exact ⟨by decide +kernel, by decide +kernel, by decide +kernel⟩
  have hcopy : Machine.Does (.copy stagedInC incoming) s (.error ⟨true, "no such file"⟩) s := ⟨fun _ _ => rfl, le_rfl⟩
  have hremove : Machine.Does (.removeFile incoming) s (.error ⟨true, "no such file"⟩) s :=
    ⟨⟨fun _ => by decide +kernel, rfl⟩, le_rfl⟩
  have hlift {o : Op} {answer : o.Answer} (h : Machine.Does o s answer s) :
      Ends Machine.Does (liftM (Prog.op o) : Fallible Op Op.Answer String o.Answer) s [⟨o, s, answer, s⟩] (.ok answer) s :=
    Prog.ends_lift.mpr ⟨_, rfl, Prog.runs_op.mpr ⟨rfl, h⟩⟩
  obtain ⟨events, e, hfail⟩ : ∃ events e, Ends Machine.Does
      (attempt incoming "copying the new version in" (Sys.copy stagedInC incoming)) s events (.error e) s :=
    ⟨_, _, Prog.ends_seq (hlift hcopy) (Prog.ends_seq (hlift hremove) (Prog.ends_throw.mpr ⟨rfl, rfl, rfl⟩))⟩
  have hswap : Ends Machine.Does (swapIn stagedInC agentInA.target) s ([] ++ events) (.error e) s :=
    Prog.ends_seq (Prog.ends_ofExcept.mpr ⟨rfl, hbeside.symm, rfl⟩)
      (Prog.ends_bind.mpr (.inl ⟨e, Prog.ends_bind.mpr (.inl ⟨e, hfail, rfl⟩), rfl⟩))
  have run : Ends Machine.Does (agentInA.install 42 stagedInC ⟨0, 9, 0, "", ""⟩) s ([] ++ events) (.error e) s :=
    Prog.ends_bind.mpr (.inl ⟨e, hswap, rfl⟩)
  exact ⟨s, _, e, s, run, (working_agent_stays agentInA 42 stagedInC ⟨0, 9, 0, "", ""⟩).2.1.mpr hserial s _ e s run
    (swapIn_not_restoring hswap)⟩

/-- In a directory whose name is the byte `FF`. -/
def agentInBytes : SelfReplace where
  target := ⟨true, [.normal [0xFF], .normal (osStr "citadel-agent")]⟩
  args := []
  health := "127.0.0.1:12345"
  stagingRoot := ⟨true, [.normal (osStr "c")]⟩
  root_apart := by decide

theorem failed_install_leaves_the_new_file :
    ¬ ∀ s events e t, Ends Machine.Does (agentInBytes.install 42 stagedInC ⟨0, 9, 0, "", ""⟩) s events (.error e) t →
      ¬ RestoreFailed agentInBytes.target events → t.file agentInBytes.target = s.file agentInBytes.target := by
  intro h
  have hnot : ¬ Serialises agentInBytes ⟨0, 9, 0, "", ""⟩ := by
    intro hserial
    have hbeside : beside agentInBytes.target =
        .ok (⟨true, [.normal [0xFF], .normal (osStr ".citadel-agent.incoming")]⟩,
          ⟨true, [.normal [0xFF], .normal (osStr ".citadel-agent.previous")]⟩) := by decide +kernel
    have hfalse : ¬ IsText agentInBytes.target := by decide +kernel
    exact hfalse (hserial _ _ hbeside).1
  obtain ⟨s, events, e, t, run, hrestore, hne⟩ := install_strands hnot 42 stagedInC
  exact hne (h s events e t run hrestore)

end CitadelAgent.Updater
