import CitadelAgent.Updater.Verify
import CitadelAgent.Updater.Swap

/-!
# The updater's engine

`updater/engine.rs`, `fetch.rs` and `engine_status.rs` over the seams of `io.rs`, and the staging directory of
`staging.rs` behind them.

* `IoOp`, `Engine.Exact` : what the engine asks, and every answer it may get;
* `Env` : what else may happen to it, `Interleaved` : a call with such things before it.
-/

namespace CitadelAgent.Updater
open Prog (Event Runs Fallible)

/-! ## State -/

structure Offer where
  version : Version
  notesUrl : String
  downloadUrl : String
  staged : Option PathBuf
  /-- Nothing more to do for this version until a newer one. False after a transient failure. -/
  settled : Bool

structure EngineState where
  etag : Option String := none
  release : Option Release := none
  offer : Option Offer := none
  autoInstall : Option Bool := none
  lastChecked : Option Nat := none
  lastError : Option String := none

def AUTO_INSTALL_UNSET : Bool := true

def EngineState.automatic (s : EngineState) : Bool := s.autoInstall.getD AUTO_INSTALL_UNSET

/-- The hash, the reader of release JSON and `tar`: what is not the agent's own code. -/
structure Libraries where
  mlDsa : MlDsa
  sha256 : List UInt8 → Sha256
  parse : List UInt8 → Except String Release
  /-- The `citadel-agent` an archive holds, when it holds one. -/
  untar : List UInt8 → Option (List UInt8)

structure Engine where
  current : Version
  plan : Plan
  releaseKey : String
  root : PathBuf
  lib : Libraries

structure World where
  files : Files
  state : EngineState
  signedIn : Nat

structure UpdateAvailable where
  current : String
  latest : String
  notesUrl : String
  downloadUrl : String
  ready : Bool
  mldsaVerified : Bool

/-! ## The staging directory -/

def Within (dir path : PathBuf) : Prop :=
  path.absolute = dir.absolute ∧ ∃ rest, rest ≠ [] ∧ path.components = dir.components ++ rest

def Engine.versionDir (e : Engine) (version : Version) : PathBuf := e.root.join (osStr version.toText)

def Engine.marker (e : Engine) (version : Version) : PathBuf := failedMarker e.root version.toText

/-- `with_file_name` of a path that has one. -/
def PathBuf.withFileName (path : PathBuf) (name : OsStr) : PathBuf := { path with components := path.components.dropLast }.join name

/-- The name up to its last dot, unless it starts with that one. -/
def fileStem (name : OsStr) : OsStr :=
  match (name.reverse.dropWhile (· ≠ 0x2E)).tail with
  | [] => name
  | stem => stem.reverse

def launchLog (staged : PathBuf) : PathBuf :=
  match staged.fileName with
  | some name => staged.withFileName (fileStem name ++ osStr ".check-launch.stderr")
  | none => staged

/-! ## What the engine asks -/

inductive Fetched
  | notModified
  | release (body : List UInt8) (etag : Option String)

inductive IoOp
  | latest (etag : Option String)
  | text (url : String) (maxBytes : Nat)
  | download (url : String) (dest : PathBuf) (size : Nat)
  | attestations (sha256 : String)
  | verify (sha256 : String) (bundles : List String) (tag : String)
  | downloadPath (version : Version) (asset : String)
  | sha256 (path : PathBuf)
  | stage (method : Method) (download : PathBuf)
  | versionOf (runnable : PathBuf)
  | discard (version : Version)
  | failed (version : Version)
  | markFailed (version : Version) (why : String)
  | canInstall (staged : PathBuf)
  | install (staged : PathBuf) (version : Version)
  | announce (update : UpdateAvailable)
  | getAuto
  | setAuto (automatic : Bool)
  | signedIn
  | now
  | read
  | modify (f : EngineState → EngineState)
  /-- What a check does to the state once the release was read, and the release to go on with. -/
  | noteFetched (now : Nat) (fetched : Except String Fetched)

def IoOp.Answer : IoOp → Type
  | .latest _ => Except String Fetched
  | .text _ _ | .sha256 _ | .versionOf _ => Except String String
  | .download _ _ _ | .canInstall _ | .install _ _ | .setAuto _ => Except String Unit
  | .attestations _ => Except String (List String)
  | .verify _ _ _ => Provenance
  | .downloadPath _ _ | .stage _ _ => Except String PathBuf
  | .failed _ => Option String
  | .getAuto => Except String (Option Bool)
  | .signedIn | .now => Nat
  | .read => EngineState
  | .noteFetched _ _ => Option Release
  | .discard _ | .markFailed _ _ | .announce _ | .modify _ => Unit

abbrev Io (α : Type) := Prog IoOp IoOp.Answer α

abbrev IoCall := Event IoOp IoOp.Answer World

namespace Io

abbrev latest (etag : Option String) : Io (Except String Fetched) := Prog.op (IoOp.latest etag)
abbrev text (url : String) (maxBytes : Nat) : Io (Except String String) := Prog.op (IoOp.text url maxBytes)
abbrev download (url : String) (dest : PathBuf) (size : Nat) : Io (Except String Unit) := Prog.op (IoOp.download url dest size)
abbrev attestations (sha256 : String) : Io (Except String (List String)) := Prog.op (IoOp.attestations sha256)
abbrev verify (sha256 : String) (bundles : List String) (tag : String) : Io Provenance := Prog.op (IoOp.verify sha256 bundles tag)
abbrev downloadPath (version : Version) (asset : String) : Io (Except String PathBuf) := Prog.op (IoOp.downloadPath version asset)
abbrev sha256 (path : PathBuf) : Io (Except String String) := Prog.op (IoOp.sha256 path)
abbrev stage (method : Method) (download : PathBuf) : Io (Except String PathBuf) := Prog.op (IoOp.stage method download)
abbrev versionOf (runnable : PathBuf) : Io (Except String String) := Prog.op (IoOp.versionOf runnable)
abbrev discard (version : Version) : Io Unit := Prog.op (IoOp.discard version)
abbrev failed (version : Version) : Io (Option String) := Prog.op (IoOp.failed version)
abbrev markFailed (version : Version) (why : String) : Io Unit := Prog.op (IoOp.markFailed version why)
abbrev canInstall (staged : PathBuf) : Io (Except String Unit) := Prog.op (IoOp.canInstall staged)
abbrev install (staged : PathBuf) (version : Version) : Io (Except String Unit) := Prog.op (IoOp.install staged version)
abbrev announce (update : UpdateAvailable) : Io Unit := Prog.op (IoOp.announce update)
abbrev getAuto : Io (Except String (Option Bool)) := Prog.op IoOp.getAuto
abbrev setAuto (automatic : Bool) : Io (Except String Unit) := Prog.op (IoOp.setAuto automatic)
abbrev signedIn : Io Nat := Prog.op IoOp.signedIn
abbrev now : Io Nat := Prog.op IoOp.now
abbrev read : Io EngineState := Prog.op IoOp.read
abbrev modify (f : EngineState → EngineState) : Io Unit := Prog.op (IoOp.modify f)
abbrev noteFetched (now : Nat) (fetched : Except String Fetched) : Io (Option Release) := Prog.op (IoOp.noteFetched now fetched)

end Io

def noteFetched (lib : Libraries) (now : Nat) (fetched : Except String Fetched) (s : EngineState) : Option Release × EngineState :=
  let s := { s with lastChecked := some now }
  match fetched with
  | .error e => (none, { s with lastError := some s!"The update check failed: {e}" })
  | .ok .notModified => (s.release, s)
  | .ok (.release body etag) =>
    match lib.parse body with
    | .ok release => (some release, { s with etag, release := some release })
    | .error e => (none, { s with lastError := some s!"the release JSON did not parse: {e}" })

def StagedFrom (lib : Libraries) (downloaded : File) : Method → File → Prop
  | .macApp, file => file = downloaded
  | .appImage, file => file = { downloaded with mode := 0o755 }
  | .tarball, file => ∃ content, lib.untar downloaded.bytes = some content ∧ file = ⟨content, 0o755⟩

/-- The ways a call may be answered, and what it leaves. Any call may fail; only a file being written, or a directory
being removed, is left in part. An install writes beside the executable, not in the updater's directory. -/
def Engine.Exact (e : Engine) : (o : IoOp) → World → o.Answer → World → Prop
  | .download _ dest size, w, .ok (), t =>
      ∃ f, f.bytes.length = size ∧ t = { w with files := Function.update w.files dest (some f) }
  | .download _ dest _, w, .error _, t => ∃ files, SameBut dest w.files files ∧ t = { w with files }
  -- every other version's directory goes, as far as it can be removed
  | .downloadPath version asset, w, answer, t =>
      (∀ path, answer = .ok path → path = (e.versionDir version).join (osStr asset)) ∧
      ∃ files, t = { w with files } ∧ ∀ p, files p = w.files p ∨
        files p = none ∧ ∃ name, name ≠ osStr version.toText ∧ Within (e.root.join name) p
  | .sha256 path, w, answer, t =>
      t = w ∧ ∀ text, answer = .ok text → ∃ f, w.files path = some f ∧ text = (e.lib.sha256 f.bytes).hex
  | .stage .macApp download, w, answer, t => answer = .ok download ∧ t = w
  | .stage .appImage download, w, .ok path, t =>
      path = download ∧
        ∃ f, w.files download = some f ∧ t = { w with files := Function.update w.files download (some { f with mode := 0o755 }) }
  | .stage .appImage _, w, .error _, t => t = w
  | .stage .tarball download, w, answer, t =>
      let dir := download.withFileName (osStr "staged")
      ∃ files, t = { w with files } ∧ (∀ p, ¬ Within dir p → files p = w.files p) ∧
        ∀ path, answer = .ok path → path = dir.join (osStr "citadel-agent") ∧
          ∃ f content, w.files download = some f ∧ e.lib.untar f.bytes = some content ∧ files path = some ⟨content, 0o755⟩
  | .discard version, w, _, t =>
      ∃ files, t = { w with files } ∧ ∀ p, files p = w.files p ∨ files p = none ∧ Within (e.versionDir version) p
  -- only a marker that is not there is no failure
  | .failed version, w, answer, t => t = w ∧ (answer = none → w.files (e.marker version) = none)
  | .markFailed version _, w, _, t => ∃ files, SameBut (e.marker version) w.files files ∧ t = { w with files }
  | .canInstall staged, w, _, t => ∃ files, SameBut (launchLog staged) w.files files ∧ t = { w with files }
  | .signedIn, w, answer, t => answer = w.signedIn ∧ t = w
  | .read, w, answer, t => answer = w.state ∧ t = w
  | .modify f, w, _, t => t = { w with state := f w.state }
  | .noteFetched now fetched, w, answer, t =>
      answer = (noteFetched e.lib now fetched w.state).1 ∧ t = { w with state := (noteFetched e.lib now fetched w.state).2 }
  | _, w, _, t => t = w

/-! ## Download, verify and stage -/

def MAX_ASSET_BYTES : Nat := 512 * 1024 * 1024

def MAX_CHECKSUM_BYTES : Nat := 4096

def MAX_SIGNATURE_BYTES : Nat := SIGNATURE_LEN * 2 + 2

inductive Refusal
  /-- The network or the disk failed: try again at the next check. -/
  | transient (why : String)
  /-- Not unsafe, but not to be installed automatically. -/
  | linkOnly (why : String)
  /-- Failed verification: never this file. -/
  | refused (why : String)
  deriving DecidableEq

abbrev Step (α : Type) := Fallible IoOp IoOp.Answer Refusal α

def failAs {α : Type} (f : String → Refusal) : Except String α → Step α
  | .ok a => pure a
  | .error why => throw (f why)

def callAs {α : Type} (f : String → Refusal) (x : Io (Except String α)) : Step α := do failAs f (← x)

def settle : Verdict → Step Unit
  | .accept => pure ()
  | .linkOnly why => throw (.linkOnly why)
  | .refuse why => throw (.refused why)

/-- The attestations of a download whose signature and checksum are right. -/
def consult (release : Release) (actual : String) (consulted : Bool) : Step Provenance :=
  if consulted then do
    let bundles ← callAs .transient (Io.attestations actual)
    Io.verify actual bundles release.tagName
  else pure .absent

def printedBy (method : Method) (runnable : PathBuf) : Step (Option String) :=
  match method with
  | .macApp => pure none
  | .tarball | .appImage => do
    let line ← callAs .refused (Io.versionOf runnable)
    pure (some line)

def assetsOf (release : Release) (name : String) : Except Refusal (Asset × Asset × Asset) := do
  let refused {α : Type} (r : Except String α) : Except Refusal α := r.mapError .refused
  let asset ← refused (release.asset name)
  if !release.assets.any (fun a => a.name = name ++ SIGNATURE_SUFFIX) then throw (.refused MISSING_SIGNATURE)
  let signature ← refused (release.asset (name ++ SIGNATURE_SUFFIX))
  let checksum ← refused (release.asset (name ++ ".sha256"))
  if asset.size > MAX_ASSET_BYTES then
    throw (.refused s!"{name} is {asset.size} bytes, over the {MAX_ASSET_BYTES} the updater accepts")
  pure (asset, signature, checksum)

def fetchAndVerify (e : Engine) (release : Release) (version : Version) (name : String) (method : Method) : Step PathBuf := do
  let (asset, signature, checksum) ← Prog.ofExcept (assetsOf release name)
  let text ← callAs .transient (Io.text checksum.browserDownloadUrl MAX_CHECKSUM_BYTES)
  let expected ← failAs .refused (expectedSha256 text name)
  let signature ← callAs .transient (Io.text signature.browserDownloadUrl MAX_SIGNATURE_BYTES)
  let path ← callAs .transient (Io.downloadPath version name)
  callAs .transient (Io.download asset.browserDownloadUrl path asset.size)
  let actual ← callAs .transient (Io.sha256 path)
  let signature := checkSignature e.lib.mlDsa e.releaseKey release.tagName name actual (some signature)
  let provenance ← consult release actual (signature = .verified && eqIgnoreCase expected actual)
  settle (judgeDownload e.current version signature expected actual provenance method)
  let runnable ← callAs .refused (Io.stage method path)
  let printed ← printedBy method runnable
  settle (judgeStaged version printed method)
  pure runnable

/-! ## Check and consider -/

def ready (offer : Offer) : Io Bool :=
  match offer.staged with
  | none => pure false
  | some staged => do
    match ← Io.canInstall staged with
    | .ok () => pure true
    | .error _ => pure false

def available (e : Engine) (offer : Offer) : Io UpdateAvailable := do
  let ready ← ready offer
  pure ⟨e.current.toText, offer.version.toText, offer.notesUrl, offer.downloadUrl, ready, offer.staged.isSome⟩

def link (release : Release) (asset : Option String) : String :=
  match asset.map release.asset with
  | some (.ok a) => a.browserDownloadUrl
  | _ => notesUrl release

def prepare (e : Engine) (release : Release) (version : Version) : Io Offer :=
  let offer (url : String) (staged : Option PathBuf) (settled : Bool) : Offer := ⟨version, notesUrl release, url, staged, settled⟩
  match e.plan with
  | .linkOnly asset _ => pure (offer (link release asset) none true)
  | .apply asset method => do
    match ← (fetchAndVerify e release version asset method).run with
    | .ok staged =>
      Io.modify fun s => { s with lastError := none }
      pure (offer (link release (some asset)) (some staged) true)
    | .error refusal =>
      Io.discard version
      let (why, url, settled) := match refusal with
        | .transient why => (why, link release (some asset), false)
        | .linkOnly why => (why, link release (some asset), true)
        | .refused why => (why, notesUrl release, true)
      Io.modify fun s => { s with lastError := some why }
      pure (offer url none settled)

def failedBefore (version : Version) (why : String) : String :=
  let why := if why = "" then "no reason was recorded" else why
  s!"Installing {version.toText} failed before, so it is not installed automatically: {why}"

def offerFor (e : Engine) (release : Release) (version : Version) : Io Offer := do
  let state ← Io.read
  match state.offer.filter fun o => o.version = version && o.settled with
  | some offer => pure offer
  | none =>
    let offer ← prepare e release version
    Io.modify fun s => { s with offer := some offer }
    pure offer

def noteFailure (version : Version) : Io Unit := do
  match ← Io.failed version with
  | some why => Io.modify fun s => { s with lastError := some (failedBefore version why) }
  | none => pure ()

def tell (e : Engine) (offer : Offer) : Io Unit := do
  noteFailure offer.version
  let update ← available e offer
  Io.announce update

def weigh (e : Engine) (release : Release) : Io Unit :=
  match candidate release e.current with
  | .none _ => Io.modify fun s => { s with offer := none, lastError := none }
  | .upgrade version => do
    let offer ← offerFor e release version
    tell e offer

def check (e : Engine) : Io Unit := do
  let state ← Io.read
  let fetched ← Io.latest state.etag
  let now ← Io.now
  match ← Io.noteFetched now fetched with
  | none => pure ()
  | some release => weigh e release

def failedFor : Option (Offer × PathBuf) → Io Bool
  | some (o, _) => do
    let why ← Io.failed o.version
    pure why.isSome
  | none => pure false

/-- Asked once: for a self-replacing install it runs the staged agent. -/
def installable : Option (Offer × PathBuf) → Io (Option (Except String Unit))
  | some (_, path) => do
    let answer ← Io.canInstall path
    pure (some answer)
  | none => pure none

/-- Install the staged release if `trigger` and the situation call for it. -/
def consider (trigger : Trigger) : Io (Except String Unit) := do
  let state ← Io.read
  let staged := state.offer.bind fun o => o.staged.map fun path => (o, path)
  let failed ← failedFor staged
  let installable ← installable staged
  let signedIn ← Io.signedIn
  let ready := match installable with
    | some (.ok ()) => true
    | _ => false
  match decide ⟨trigger, ready, signedIn, state.automatic, failed⟩, staged with
  | .install, some (offer, path) =>
    match ← Io.install path offer.version with
    | .ok () => pure (.ok ())
    | .error e =>
      Io.modify fun s => { s with lastError := some e }
      pure (.error e)
  | .wait why, _ =>
    if trigger = .userAsked then
      let why := match installable with
        | some (.error cannot) => cannot
        | _ => why
      pure (.error s!"Nothing was installed: {why}")
    else pure (.ok ())
  | .install, none => pure (.ok ())

/-! ## What else happens -/

def setAutoInstall (automatic : Bool) : Io (Except String Unit) := do
  match ← Io.setAuto automatic with
  | .error e => pure (.error e)
  | .ok () =>
    Io.modify fun s => { s with autoInstall := some automatic }
    pure (.ok ())

def loadSettings : Io Unit := do
  let automatic := match ← Io.getAuto with
    | .ok value => value.getD AUTO_INSTALL_UNSET
    | .error _ => AUTO_INSTALL_UNSET
  Io.modify fun s => { s with autoInstall := some automatic }

def status (e : Engine) : Io (Option UpdateAvailable) := do
  let state ← Io.read
  match state.offer with
  | none => pure none
  | some offer => do
    let update ← available e offer
    pure (some update)

def markText (version why : String) : Io Unit :=
  match Version.parse version with
  | some version => Io.markFailed version why
  | none => pure ()

/-- The menu-bar app could not install `version`. -/
def installFailed (e : Engine) (version why : String) : Io Unit := do
  markText version why
  Io.modify fun s => { s with lastError := some s!"Installing {version} failed: {why}" }
  let state ← Io.read
  match state.offer with
  | none => pure ()
  | some offer => do
    let update ← available e offer
    Io.announce update

/-- What takes no lock but the state's, so that it may happen while a check is waiting. -/
inductive Env (e : Engine) : World → World → Prop
  | setAutoInstall {w t : World} {events : List IoCall} {r : Except String Unit} (automatic : Bool)
      (run : Runs e.Exact (setAutoInstall automatic) w events r t) : Env e w t
  | loadSettings {w t : World} {events : List IoCall} (run : Runs e.Exact loadSettings w events () t) : Env e w t
  | status {w t : World} {events : List IoCall} {r : Option UpdateAvailable} (run : Runs e.Exact (status e) w events r t) : Env e w t
  | installFailed {w t : World} {events : List IoCall} (version why : String)
      (run : Runs e.Exact (installFailed e version why) w events () t) : Env e w t
  | signedIn (w : World) (n : Nat) : Env e w { w with signedIn := n }

def Interleaved (e : Engine) (o : IoOp) (w : World) (answer : o.Answer) (t : World) : Prop :=
  ∃ m, Relation.ReflTransGen (Env e) w m ∧ e.Exact o m answer t

end CitadelAgent.Updater
