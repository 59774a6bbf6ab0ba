import CitadelAgent.Updater.Files

/-!
# The release the updater reads

`updater/release.rs`, with the install methods of `platform.rs` and the decision of `policy.rs`.
-/

namespace CitadelAgent.Updater

def DOWNLOAD_PREFIX : String := "https://github.com/Avarok-Cybersecurity/citadel-workspace/releases/download/"

def RELEASE_PAGE_PREFIX : String := "https://github.com/Avarok-Cybersecurity/citadel-workspace/releases/tag/"

structure Asset where
  name : String
  browserDownloadUrl : String
  size : Nat
  deriving DecidableEq

structure Release where
  tagName : String
  draft : Bool
  prerelease : Bool
  assets : List Asset

inductive Candidate
  | none (why : String)
  | upgrade (version : Version)
  deriving DecidableEq

def candidate (release : Release) (current : Version) : Candidate :=
  if release.draft || release.prerelease then .none s!"{release.tagName} is a draft or prerelease"
  else match versionOfTag release.tagName with
    | none => .none s!"{release.tagName} is not an agent release tag"
    | some version =>
      if !isUpgrade current version then .none s!"{version.toText} is not newer than {current.toText}"
      else .upgrade version

/-- Built from the tag rather than taken from the JSON. -/
def notesUrl (release : Release) : String := RELEASE_PAGE_PREFIX ++ release.tagName

/-- The asset `name`, provided its URL is exactly where this release's `name` lives. -/
def Release.asset (release : Release) (name : String) : Except String Asset :=
  match release.assets.find? fun a => a.name = name with
  | none => .error s!"{release.tagName} has no asset {name}"
  | some asset =>
    let expected := s!"{DOWNLOAD_PREFIX}{release.tagName}/{name}"
    if asset.browserDownloadUrl ≠ expected then .error s!"{name} points at {asset.browserDownloadUrl}, not {expected}"
    else .ok asset

theorem candidate_upgrade {release : Release} {current version : Version} (h : candidate release current = .upgrade version) :
    versionOfTag release.tagName = some version ∧ isUpgrade current version = true := by
  unfold candidate at h
  split at h
  · simp at h
  · split at h
    · simp at h
    · rename_i version' hversion
      split at h
      · simp at h
      · rename_i hup
        obtain rfl := Candidate.upgrade.inj h
        exact ⟨hversion, by simpa using hup⟩

inductive Method
  /-- Handed to the menu-bar app (the .dmg). -/
  | macApp
  /-- The tarball's `citadel-agent` replaces the executable. -/
  | tarball
  | appImage
  deriving DecidableEq

inductive Plan
  | apply (asset : String) (method : Method)
  /-- Offer `asset` (or, with none, the release page) to download by hand, and say why. -/
  | linkOnly (asset : Option String) (why : String)

/-! ## When a verified update is installed -/

inductive Trigger
  | userAsked
  /-- A check finished, or the idle re-check came round. -/
  | idle
  deriving DecidableEq

inductive Decision
  | install
  | wait (why : String)

structure Situation where
  trigger : Trigger
  ready : Bool
  signedIn : Nat
  autoInstall : Bool
  /-- Installing this version failed before; only the user may try it again. -/
  failedBefore : Bool

def decide (s : Situation) : Decision :=
  if !s.ready then .wait "no update is ready to install"
  else match s.trigger with
    | .userAsked => .install
    | .idle =>
      if !s.autoInstall then .wait "automatic installs are off"
      else if s.signedIn > 0 then .wait "an account is signed in"
      else if s.failedBefore then .wait "installing this version failed before"
      else .install

theorem decide_install {s : Situation} (h : decide s = .install) :
    s.ready = true ∧ (s.trigger = .idle → s.autoInstall = true ∧ s.signedIn = 0 ∧ s.failedBefore = false) := by
  unfold decide at h
  split at h
  · simp at h
  · rename_i hready
    refine ⟨by simpa using hready, fun hidle => ?_⟩
    simp only [hidle] at h
    split at h
    · simp at h
    · split at h
      · simp at h
      · split at h
        · simp at h
        · rename_i hauto hsigned hfailed
          exact ⟨by simpa using hauto, by omega, by simpa using hfailed⟩

end CitadelAgent.Updater
