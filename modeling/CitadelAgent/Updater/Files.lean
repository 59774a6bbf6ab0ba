import CitadelAgent.Lib.Json
import CitadelAgent.Lib.ProgRuns
import CitadelAgent.Updater.Version

/-!
# Files and processes, as the updater uses them

* `OsStr`, `toStr`, `lossy` : names as bytes, the text of those that are text, and text for the others;
* `PathBuf` : a path's components, `parent`, `fileName`, `join`;
* `Op`, `Machine.Does` : what the installer and the watchdog ask of the machine, and every way it may answer: any
  operation may fail, and one that fails has changed nothing, except that a file being written may be part-written.
-/

namespace CitadelAgent.Updater

/-! ## Names -/

abbrev OsStr := List UInt8

def osStr (text : String) : OsStr := text.toByteArray.data.toList

/-- `OsStr::to_str` -/
def toStr (name : OsStr) : Option String := String.fromUTF8? ⟨name.toArray⟩

def continues (b : UInt8) : Bool := 0x80 ≤ b && b ≤ 0xBF

/-- The second bytes that may follow `b`, and the bytes of the whole character; none when `b` starts none. -/
def startsWide (b : UInt8) : Option (Nat × UInt8 × UInt8) :=
  if 0xC2 ≤ b && b ≤ 0xDF then some (2, 0x80, 0xBF)
  else if b = 0xE0 then some (3, 0xA0, 0xBF)
  else if b = 0xED then some (3, 0x80, 0x9F)
  else if 0xE1 ≤ b && b ≤ 0xEF then some (3, 0x80, 0xBF)
  else if b = 0xF0 then some (4, 0x90, 0xBF)
  else if 0xF1 ≤ b && b ≤ 0xF3 then some (4, 0x80, 0xBF)
  else if b = 0xF4 then some (4, 0x80, 0x8F)
  else none

/-- How many bytes after `b` are part of its character, valid or cut short, and whether it is valid. -/
def chunk (b : UInt8) (rest : OsStr) : Nat × Bool :=
  if b < 0x80 then (0, true)
  else match startsWide b, rest with
    | some (width, low, high), second :: more =>
      if low ≤ second && second ≤ high then
        let following := 1 + ((more.take (width - 2)).takeWhile continues).length
        (following, following = width - 1)
      else (0, false)
    | _, _ => (0, false)

def REPLACEMENT : OsStr := [0xEF, 0xBF, 0xBD]

/-- `to_string_lossy`: each cut-short or stray sequence becomes one U+FFFD. -/
def lossyFrom : Nat → OsStr → OsStr
  | 0, _ => []
  | _ + 1, [] => []
  | fuel + 1, b :: rest =>
    let (following, valid) := chunk b rest
    (if valid then b :: rest.take following else REPLACEMENT) ++ lossyFrom fuel (rest.drop following)

def lossy (name : OsStr) : OsStr := lossyFrom name.length name

theorem chunk_le (b : UInt8) (rest : OsStr) : (chunk b rest).1 ≤ rest.length ∧ ((chunk b rest).2 = false → (chunk b rest).1 ≤ 2) := by
  unfold chunk
  split
  · exact ⟨Nat.zero_le _, nofun⟩
  · split
    · rename_i width low high second more hwide
      split
      · have htake : ((more.take (width - 2)).takeWhile continues).length ≤ (more.take (width - 2)).length :=
          (List.takeWhile_prefix _).length_le
        rw [List.length_take] at htake
        have hwidth : width ≤ 4 := by
          unfold startsWide at hwide
          grind
        simp only [List.length_cons, decide_eq_false_iff_not]
        omega
      · exact ⟨Nat.zero_le _, fun _ => Nat.zero_le _⟩
    · exact ⟨Nat.zero_le _, fun _ => Nat.zero_le _⟩

theorem length_le_lossyFrom (fuel : Nat) (name : OsStr) (h : name.length ≤ fuel) : name.length ≤ (lossyFrom fuel name).length := by
  induction fuel generalizing name with
  | zero => simpa [lossyFrom] using h
  | succ fuel ih =>
    cases name with
    | nil => exact Nat.zero_le _
    | cons b rest =>
      obtain ⟨hle, htwo⟩ := chunk_le b rest
      rw [List.length_cons] at h
      have hrest := ih (rest.drop (chunk b rest).1) (by rw [List.length_drop]; omega)
      rw [List.length_drop] at hrest
      rw [lossyFrom, List.length_append, List.length_cons]
      split
      · rw [List.length_cons, List.length_take]
        omega
      · rename_i hvalid
        have := htwo (Bool.not_eq_true _ ▸ hvalid)
        simp only [REPLACEMENT, List.length_cons, List.length_nil]
        omega

theorem length_le_lossy (name : OsStr) : name.length ≤ (lossy name).length := length_le_lossyFrom _ name le_rfl

/-! ## Paths -/

inductive Component
  | curDir
  | parentDir
  | normal (name : OsStr)
  deriving DecidableEq

structure PathBuf where
  absolute : Bool
  components : List Component
  deriving DecidableEq

variable {path : PathBuf}

namespace PathBuf

def parent (path : PathBuf) : Option PathBuf :=
  if path.components = [] then none else some { path with components := path.components.dropLast }

def fileName (path : PathBuf) : Option OsStr :=
  match path.components.getLast? with
  | some (.normal name) => some name
  | _ => none

/-- `join` with a name. -/
def join (path : PathBuf) (name : OsStr) : PathBuf := { path with components := path.components ++ [.normal name] }

def Component.bytes : Component → OsStr
  | .curDir => osStr "."
  | .parentDir => osStr ".."
  | .normal name => name

def bytes (path : PathBuf) : OsStr :=
  (if path.absolute then osStr "/" else []) ++ (osStr "/").intercalate (path.components.map Component.bytes)

/-- `Path::display` -/
def display (path : PathBuf) : String := (toStr (lossy path.bytes)).getD ""

theorem join_inj {p q : PathBuf} {m n : OsStr} : p.join m = q.join n ↔ p = q ∧ m = n := by
  cases p
  cases q
  simp [join, List.append_eq_append_iff_of_size_eq_right, and_assoc]

theorem eq_join {dir : PathBuf} {name : OsStr} (hdir : path.parent = some dir) (hname : path.fileName = some name) :
    path = dir.join name := by
  unfold parent at hdir
  unfold fileName at hname
  split at hdir
  · simp at hdir
  · rename_i hne
    obtain ⟨init, last, hlast⟩ := List.eq_nil_or_concat path.components |>.resolve_left hne |>.imp fun _ h => h
    simp only [Option.some.injEq] at hdir
    subst hdir
    split at hname
    · rename_i name' hget
      simp only [Option.some.injEq] at hname
      subst hname
      simp [join, hlast] at hget ⊢
      cases path
      simp_all
    · simp at hname

end PathBuf

/-! ## The machine -/

structure File where
  bytes : List UInt8
  mode : Nat
  deriving DecidableEq

abbrev Files := PathBuf → Option File

/-- `std::io::Error`: what the source looks at. -/
structure IoError where
  notFound : Bool
  text : String

inductive Op
  | copy (source dest : PathBuf)
  | setPermissions (path : PathBuf) (mode : Nat)
  | sync (path : PathBuf)
  | removeFile (path : PathBuf)
  | hardLink (original link : PathBuf)
  | rename (source dest : PathBuf)
  | write (path : PathBuf) (text : String)
  | spawn (program : PathBuf) (args : List String) (env : List (String × Json))
  | alive (pid : Nat)
  | exited
  | kill
  | healthy (addr : String)
  | now
  | pause
  | log (line : String)
  | handedOver

def Op.Answer : Op → Type
  | .copy _ _ | .setPermissions _ _ | .sync _ | .removeFile _ | .hardLink _ _ | .rename _ _ | .write _ _ => Except IoError Unit
  | .spawn _ _ _ => Except IoError Unit
  | .alive _ | .exited | .healthy _ => Bool
  | .now => Nat
  | .kill | .pause | .log _ | .handedOver => Unit

abbrev Sys (α : Type) := Prog Op Op.Answer α

namespace Sys

abbrev copy (source dest : PathBuf) : Sys (Except IoError Unit) := Prog.op (Op.copy source dest)
abbrev setPermissions (path : PathBuf) (mode : Nat) : Sys (Except IoError Unit) := Prog.op (Op.setPermissions path mode)
abbrev sync (path : PathBuf) : Sys (Except IoError Unit) := Prog.op (Op.sync path)
abbrev removeFile (path : PathBuf) : Sys (Except IoError Unit) := Prog.op (Op.removeFile path)
abbrev hardLink (original link : PathBuf) : Sys (Except IoError Unit) := Prog.op (Op.hardLink original link)
abbrev rename (source dest : PathBuf) : Sys (Except IoError Unit) := Prog.op (Op.rename source dest)
abbrev write (path : PathBuf) (text : String) : Sys (Except IoError Unit) := Prog.op (Op.write path text)
abbrev spawn (program : PathBuf) (args : List String) (env : List (String × Json)) : Sys (Except IoError Unit) :=
  Prog.op (Op.spawn program args env)
abbrev alive (pid : Nat) : Sys Bool := Prog.op (Op.alive pid)
abbrev exited : Sys Bool := Prog.op Op.exited
abbrev kill : Sys Unit := Prog.op Op.kill
abbrev healthy (addr : String) : Sys Bool := Prog.op (Op.healthy addr)
abbrev now : Sys Nat := Prog.op Op.now
abbrev pause : Sys Unit := Prog.op Op.pause
abbrev log (line : String) : Sys Unit := Prog.op (Op.log line)
abbrev handedOver : Sys Unit := Prog.op Op.handedOver

end Sys

/-- `s` and `t` differ at most at `path`. -/
def SameBut (path : PathBuf) (s t : Files) : Prop := ∀ p, p ≠ path → t p = s p

/-- What an operation answered `answer` does to the files. -/
def Op.Changes : (o : Op) → Files → o.Answer → Files → Prop
  | .copy source dest, s, .ok (), t => ∃ f, s source = some f ∧ t = Function.update s dest (some f)
  | .copy _ dest, s, .error _, t => SameBut dest s t
  | .setPermissions path mode, s, .ok (), t => ∃ f, s path = some f ∧ t = Function.update s path (some { f with mode })
  | .removeFile path, s, .ok (), t => s path ≠ none ∧ t = Function.update s path none
  | .removeFile path, s, .error e, t => (e.notFound = true → s path = none) ∧ t = s
  | .hardLink original link, s, .ok (), t =>
      ∃ f, s original = some f ∧ s link = none ∧ t = Function.update s link (some f)
  -- nothing happens to two names of one file
  | .rename source dest, s, .ok (), t =>
      ∃ f, s source = some f ∧ (t = Function.update (Function.update s source none) dest (some f) ∨ s dest = some f ∧ t = s)
  | .write path text, s, .ok (), t => ∃ mode, t = Function.update s path (some ⟨osStr text, mode⟩)
  | .write path _, s, .error _, t => SameBut path s t
  | _, s, _, t => t = s

/-- The files as they may be seen while an operation that started from `s` is running. -/
def Op.Passes : Op → Files → Files → Prop
  | .copy _ dest, s, files => SameBut dest s files
  | .write path _, s, files => SameBut path s files
  | _, _, _ => False

structure Machine where
  file : Files
  clock : Nat

/-- Between two probes of the watchdog, in milliseconds. -/
def PROBE_EVERY : Nat := 250

def Op.Ticks : (o : Op) → Machine → o.Answer → Machine → Prop
  | .pause, s, _, t => s.clock + PROBE_EVERY ≤ t.clock
  | .now, s, (answer : Nat), t => s.clock ≤ answer ∧ answer ≤ t.clock
  | _, s, _, t => s.clock ≤ t.clock

def Machine.Does (o : Op) (s : Machine) (answer : o.Answer) (t : Machine) : Prop :=
  o.Changes s.file answer t.file ∧ o.Ticks s answer t

open Prog (Event Runs Ends)

abbrev Call := Event Op Op.Answer Machine

def Call.Moment (e : Call) (files : Files) : Prop := files = e.after.file ∨ e.op.Passes e.before.file files

/-- The files at some moment of the run after its start. -/
def Seen (events : List Call) (files : Files) : Prop := ∃ e ∈ events, Call.Moment e files

/-! ## What a call leaves alone -/

def Call.Keeps (path : PathBuf) (e : Call) : Prop := ∀ files, Call.Moment e files → files path = e.before.file path

def Op.touches : Op → List PathBuf
  | .copy _ path | .setPermissions path _ | .removeFile path | .hardLink _ path | .write path _ => [path]
  | .rename source dest => [source, dest]
  | _ => []

variable {o : Op} {files : Files} {e : Call} {s t : Machine}

theorem changes_frame {s t : Files} {answer : o.Answer} (h : o.Changes s answer t) (hp : path ∉ o.touches) : t path = s path := by
  unfold Op.Changes at h
  split at h
  case h_1 =>
    obtain ⟨f, -, rfl⟩ := h
    exact Function.update_of_ne (by simpa [Op.touches] using hp) _ _
  case h_2 => exact h path (by simpa [Op.touches] using hp)
  case h_3 =>
    obtain ⟨f, -, rfl⟩ := h
    exact Function.update_of_ne (by simpa [Op.touches] using hp) _ _
  case h_4 =>
    rw [h.2]
    exact Function.update_of_ne (by simpa [Op.touches] using hp) _ _
  case h_5 => rw [h.2]
  case h_6 =>
    obtain ⟨f, -, -, rfl⟩ := h
    exact Function.update_of_ne (by simpa [Op.touches] using hp) _ _
  case h_7 =>
    obtain ⟨hsource, hdest⟩ : path ≠ _ ∧ path ≠ _ := by simpa [Op.touches] using hp
    obtain ⟨f, -, rfl | ⟨-, rfl⟩⟩ := h
    · rw [Function.update_of_ne hdest, Function.update_of_ne hsource]
    · rfl
  case h_8 =>
    obtain ⟨mode, rfl⟩ := h
    exact Function.update_of_ne (by simpa [Op.touches] using hp) _ _
  case h_9 => exact h path (by simpa [Op.touches] using hp)
  case h_10 => rw [h]

theorem passes_frame {s : Files} (h : o.Passes s files) (hp : path ∉ o.touches) :
    files path = s path := by
  unfold Op.Passes at h
  unfold Op.touches at hp
  split at h
  · exact h path (by simpa [Op.touches] using hp)
  · exact h path (by simpa [Op.touches] using hp)
  · exact h.elim

theorem keeps_of_untouched (h : Machine.Does e.op e.before e.answer e.after) (hp : path ∉ e.op.touches) : Call.Keeps path e := by
  rintro files (rfl | hpass)
  · exact changes_frame h.1 hp
  · exact passes_frame hpass hp

theorem keeps_of_failed {source dest : PathBuf} {why : IoError} (h : Machine.Does (.rename source dest) s (.error why) t)
    (path : PathBuf) :
    Call.Keeps path ⟨.rename source dest, s, .error why, t⟩ := by
  rintro files (rfl | hpass)
  · exact congrFun h.1 path
  · exact hpass.elim

theorem seen_append {first second : List Call} :
    Seen (first ++ second) files ↔ Seen first files ∨ Seen second files := by
  simp only [Seen, List.mem_append, or_and_right, exists_or]

theorem seen_singleton : Seen [e] files ↔ Call.Moment e files := by
  simp only [Seen, List.mem_singleton, exists_eq_left]

def Quiet (o : Op) : Prop := o.touches = []

theorem quiet_keeps (h : Quiet o) (he : e.op = o) (made : Machine.Does e.op e.before e.answer e.after)
    (path : PathBuf) : Call.Keeps path e :=
  keeps_of_untouched made (by rw [he, h]; exact List.not_mem_nil)

theorem Runs.seen_keeps {α : Type} {x : Sys α} {events : List Call} {a : α} (run : Runs Machine.Does x s events a t)
    (h : ∀ e ∈ events, Call.Keeps path e) :
    t.file path = s.file path ∧ ∀ files, Seen events files → files path = s.file path := by
  induction run with
  | ret a s => exact ⟨rfl, fun _ hseen => by simp [Seen] at hseen⟩
  | call made rest ih =>
    obtain ⟨hend, hseen⟩ := ih fun e he => h e (List.mem_cons_of_mem _ he)
    have hfirst := h _ List.mem_cons_self
    have hafter := hfirst _ (.inl rfl)
    refine ⟨hend.trans hafter, fun files hfiles => ?_⟩
    obtain ⟨e, he, hm⟩ := hfiles
    rcases List.mem_cons.mp he with rfl | he
    · exact hfirst files hm
    · exact (hseen files ⟨e, he, hm⟩).trans hafter

theorem Runs.quiet {α : Type} {x : Sys α} {events : List Call} {a : α} (run : Runs Machine.Does x s events a t)
    (h : Prog.Only Quiet x) :
    t.file = s.file ∧ ∀ files, Seen events files → files = s.file := by
  have hkeeps : ∀ path, ∀ e ∈ events, Call.Keeps path e :=
    fun path e he => quiet_keeps (run.only h e he) rfl (run.made e he) path
  exact ⟨funext fun path => (Runs.seen_keeps run (hkeeps path)).1,
    fun files hseen => funext fun path => (Runs.seen_keeps run (hkeeps path)).2 files hseen⟩

end CitadelAgent.Updater
