import CitadelAgent.Apps.Spaces
import CitadelAgent.Updater.Cache

/-!
# What a publisher's signature is over

`citadel-app-signature/src/lib.rs`, `citadel-app-id/src/lib.rs`: the bytes signed for a version of an app, beside those
of an agent release.

* `message_inj` : fields without a NUL, each ended by one, and digests of a fixed length are told apart;
* `signature_fixed` : so a signature is over one id, version and digests, or over one release file.
-/

namespace CitadelAgent.Apps.Signature
open Conversations (digits digits_ne_nil isDigit_of_mem_digits)
open Ihttp.Wire (MAX_APP_ID_CHARS)
open Result
open Updater (Sha256 osStr osStr_ofList osStr_injective)

inductive IdentityRefusal
  | appId (why : String)
  | version (why : String)

def IdentityRefusal.toText : IdentityRefusal → String
  | .appId why => s!"not an app id: {why}"
  | .version why => s!"not an app version: {why}"

/-! ## The id and the version -/

def labelRefusal : List Char → Option String
  | [] => some "it has an empty label"
  | first :: rest =>
    if (first.isLower || first.isDigit) = false then some "a label starts with something other than a-z or 0-9"
    else if (rest.all fun c => c.isLower || c.isDigit || c = '-') = false then
      some "a label holds something other than a-z, 0-9 and '-'"
    else none

def validateAppId (id : String) : Except IdentityRefusal Unit :=
  if id = "" then .error (.appId "it is empty")
  else if MAX_APP_ID_CHARS < id.utf8ByteSize then .error (.appId "it is longer than 64 characters")
  else match (id.toList.splitOn '.').findSome? labelRefusal with
    | some why => .error (.appId why)
    | none => if (id.toList.splitOn '.').length < 2 then .error (.appId "it needs at least two dot-separated labels")
      else .ok ()

structure AppVersion where
  major : UInt32
  minor : UInt32
  patch : UInt32

def parsePart (text name : String) (part : List Char) : Except IdentityRefusal UInt32 :=
  let refuse (why : String) := Except.error (.version s!"{text.quote}: the {name} {why}")
  if part = [] then refuse "part is empty"
  else if part.all Char.isDigit = false then refuse "part is not decimal digits"
  else if 1 < part.length ∧ part.head? = some '0' then refuse "part has a leading zero"
  else if Nat.ofDigitChars 10 part 0 < 2 ^ 32 then .ok (.ofNat (Nat.ofDigitChars 10 part 0))
  else refuse "part does not fit in 32 bits"

/-- `next`: the part called `name`, and the parts that are left. -/
def nextPart (text name : String) : List (List Char) → Except IdentityRefusal (UInt32 × List (List Char))
  | [] => .error (.version s!"{text.quote} has no {name} part")
  | part :: parts => do return (← parsePart text name part, parts)

def AppVersion.parse (text : String) : Except IdentityRefusal AppVersion := do
  let (major, parts) ← nextPart text "major" (text.toList.splitOn '.')
  let (minor, parts) ← nextPart text "minor" parts
  let (patch, parts) ← nextPart text "patch" parts
  if parts ≠ [] then throw (.version s!"{text.quote} has more than three parts")
  return ⟨major, minor, patch⟩

def AppVersion.toText (v : AppVersion) : String := s!"{v.major}.{v.minor}.{v.patch}"

/-! ## The message -/

def DOMAIN : String := "citadel-app-v1\x00"

inductive Refusal
  | malformedKey (why : String)
  | malformedSignature (why : String)
  | badField (why : String)
  | invalid

structure ArtifactDigests where
  manifest : Sha256
  wasm : Sha256

def signedMessage (id version : String) (digests : ArtifactDigests) : Except Refusal (List UInt8) :=
  match validateAppId id, AppVersion.parse version with
  | .error why, _ | .ok (), .error why => .error (.badField why.toText)
  | .ok (), .ok _ =>
    .ok (osStr DOMAIN ++ osStr id ++ [0] ++ osStr version ++ [0] ++ digests.manifest.val ++ digests.wasm.val)

/-! ## A version is written one way -/

theorem digitChar_of_isDigit {c : Char} (h : c.isDigit = true) :
    c.toNat - '0'.toNat < 10 ∧ (c.toNat - '0'.toNat).digitChar = c := by
  have hrange : '0'.toNat ≤ c.toNat ∧ c.toNat ≤ '9'.toNat := Char.isDigit_iff_toNat.mp h
  have hzero : '0'.toNat = 48 := rfl
  have hnine : '9'.toNat = 57 := rfl
  have hlt : c.toNat - '0'.toNat < 10 := by omega
  refine ⟨hlt, Char.toNat_inj.mp ?_⟩
  rw [Nat.toNat_digitChar_of_lt_ten hlt]
  omega

theorem toDigits_ofDigitChars {part : List Char} (hne : part ≠ []) (hall : ∀ c ∈ part, c.isDigit = true)
    (hzero : 1 < part.length → part.head? ≠ some '0') : Nat.toDigits 10 (Nat.ofDigitChars 10 part 0) = part := by
  induction part using List.reverseRecOn with
  | nil => exact absurd rfl hne
  | append_singleton front c ih =>
    obtain ⟨hlt, hchar⟩ := digitChar_of_isDigit (hall c (by simp))
    rw [Nat.ofDigitChars_append, Nat.ofDigitChars_cons, Nat.ofDigitChars_nil]
    match front, ih with
    | [], _ =>
      rw [Nat.ofDigitChars_nil, Nat.mul_zero, Nat.zero_add, Nat.toDigits_of_lt_base hlt, hchar]
      rfl
    | first :: rest, ih =>
      have hfirst : first ≠ '0' := by simpa using hzero (by simp)
      have hfront := ih (by simp) (fun d hd => hall d (List.mem_append_left _ hd)) fun _ => by simpa using hfirst
      have hpos : 0 < Nat.ofDigitChars 10 (first :: rest) 0 := by
        rw [Nat.pos_iff_ne_zero]
        intro h
        rw [h, Nat.toDigits_zero] at hfront
        exact hfirst (List.cons.inj hfront).1.symm
      rw [← Nat.toDigits_append_toDigits (by decide) hpos hlt, hfront, Nat.toDigits_of_lt_base hlt, hchar]

variable {text : String}

theorem parsePart_ok {name : String} {part : List Char} {n : UInt32} (h : parsePart text name part = .ok n) :
    part = digits n.toNat := by
  unfold parsePart at h
  split_ifs at h with hempty hdigits hzero hfits
  rw [← Except.ok.inj h, UInt32.toNat_ofNat_of_lt' hfits, digits, Nat.toString_eq_repr, Nat.toList_repr]
  refine (toDigits_ofDigitChars hempty (by simpa using hdigits) fun hlong hhead => hzero ⟨hlong, hhead⟩).symm

theorem nextPart_ok {name : String} {n : UInt32} {parts rest : List (List Char)}
    (h : nextPart text name parts = .ok (n, rest)) : parts = digits n.toNat :: rest := by
  cases parts with
  | nil => cases h
  | cons part parts =>
    obtain ⟨m, hm, h⟩ := bind_eq_ok.mp h
    cases h
    rw [parsePart_ok hm]

theorem AppVersion.toList_toText (v : AppVersion) : v.toText.toList =
    digits v.major.toNat ++ '.' :: (digits v.minor.toNat ++ '.' :: digits v.patch.toNat) := by
  simp [toText, digits, toString]

theorem AppVersion.parse_ok {v : AppVersion} (h : parse text = .ok v) : v.toText = text := by
  obtain ⟨⟨major, parts⟩, hmajor, h⟩ := bind_eq_ok.mp h
  obtain ⟨⟨minor, parts'⟩, hminor, h⟩ := bind_eq_ok.mp h
  obtain ⟨⟨patch, parts''⟩, hpatch, h⟩ := bind_eq_ok.mp h
  have hend : parts'' = [] := by
    by_contra hne
    simp [hne] at h
  subst hend
  cases h
  have hparts : text.toList.splitOn '.' = [digits major.toNat, digits minor.toNat, digits patch.toNat] := by
    rw [nextPart_ok hmajor, nextPart_ok hminor, nextPart_ok hpatch]
  have hjoin : ['.'].intercalate (text.toList.splitOn '.') = text.toList := List.intercalate_splitOn '.'
  rw [hparts] at hjoin
  refine String.toList_inj.mp (Eq.trans ?_ hjoin)
  rw [toList_toText]
  simp [List.intercalate]

/-! ## Fields ended by a NUL -/

theorem zero_notMem_osStr (h : '\x00' ∉ text.toList) : 0 ∉ osStr text := by
  rw [← String.ofList_toList (s := text), osStr_ofList]
  intro hmem
  obtain ⟨c, hc, hzero⟩ := List.mem_flatMap.mp hmem
  have hbyte (n : Nat) : (0 : UInt8) = .ofNat n ↔ n % 256 = 0 := by
    rw [← UInt8.toNat_inj, UInt8.toNat_ofNat']
    exact eq_comm
  have hnul : c.val.toNat = 0 := by
    simp only [String.utf8EncodeChar] at hzero
    split_ifs at hzero
    all_goals
      simp only [List.mem_cons, List.not_mem_nil, or_false, hbyte] at hzero
      omega
  obtain rfl : c = '\x00' := Char.toNat_inj.mp hnul
  exact h hc

theorem message_inj {domain first second first' second' : String} {rest rest' : List UInt8}
    (h₁ : '\x00' ∉ first.toList) (h₁' : '\x00' ∉ first'.toList) (h₂ : '\x00' ∉ second.toList)
    (h₂' : '\x00' ∉ second'.toList)
    (h : osStr domain ++ osStr first ++ [0] ++ osStr second ++ [0] ++ rest =
      osStr domain ++ osStr first' ++ [0] ++ osStr second' ++ [0] ++ rest') :
    first = first' ∧ second = second' ∧ rest = rest' := by
  simp only [List.append_assoc, List.cons_append, List.nil_append] at h
  have h := List.append_cancel_left h
  obtain ⟨hfirst, h⟩ := append_cons_inj (zero_notMem_osStr h₁) (zero_notMem_osStr h₁') h
  obtain ⟨hsecond, h⟩ := append_cons_inj (zero_notMem_osStr h₂) (zero_notMem_osStr h₂') h
  exact ⟨osStr_injective hfirst, osStr_injective hsecond, h⟩

theorem validateAppId_ok {id : String} (h : validateAppId id = .ok ()) : Ihttp.Wire.validateAppId id = true := by
  unfold validateAppId at h
  split_ifs at h with hempty hlong hcount
  · split at h <;> cases h
  · split at h
    · cases h
    rename_i hlabels
    simp only [Ihttp.Wire.validateAppId, Bool.and_eq_true, decide_eq_true_eq]
    refine ⟨⟨⟨hempty, by omega⟩, List.all_eq_true.mpr fun label hlabel => ?_⟩, by omega⟩
    have hnone := List.findSome?_eq_none_iff.mp hlabels label hlabel
    cases label with
    | nil => cases hnone
    | cons first rest =>
      simp only [labelRefusal] at hnone
      split_ifs at hnone with hfirst hrest
      simp only [Ihttp.Wire.labelOk, Bool.and_eq_true]
      exact ⟨Bool.of_not_eq_false hfirst, Bool.of_not_eq_false hrest⟩

theorem AppVersion.notMem_of_parse {v : AppVersion} (h : parse text = .ok v) : '\x00' ∉ text.toList := by
  have hdigits (n : Nat) : '\x00' ∉ digits n := fun hmem => absurd (isDigit_of_mem_digits hmem) (by decide)
  rw [← parse_ok h, toList_toText]
  simp [hdigits]

theorem signedMessage_ok {id version : String} {digests : ArtifactDigests} {message : List UInt8}
    (h : signedMessage id version digests = .ok message) : '\x00' ∉ id.toList ∧ '\x00' ∉ version.toList ∧
      message = osStr DOMAIN ++ osStr id ++ [0] ++ osStr version ++ [0] ++ (digests.manifest.val ++ digests.wasm.val) := by
  unfold signedMessage at h
  split at h
  · cases h
  · cases h
  · rename_i hid hversion
    refine ⟨notMem_of_validateAppId (validateAppId_ok hid) (by decide) (by decide), AppVersion.notMem_of_parse hversion, ?_⟩
    rw [← Except.ok.inj h, List.append_assoc _ digests.manifest.val]

theorem release_signedMessage_ok {tag assetName : String} {sha256 : Sha256} {message : List UInt8}
    (h : Updater.signedMessage tag assetName sha256 = .ok message) : '\x00' ∉ tag.toList ∧ '\x00' ∉ assetName.toList ∧
      message = osStr Updater.DOMAIN ++ osStr tag ++ [0] ++ osStr assetName ++ [0] ++ sha256.val := by
  have hfield {what value : String} (h : Updater.badField what value = none) : '\x00' ∉ value.toList := by
    unfold Updater.badField at h
    split_ifs at h with hbad
    simp only [Bool.or_eq_true, List.contains_iff_mem, not_or] at hbad
    exact hbad.2
  unfold Updater.signedMessage at h
  split at h
  · cases h
  · cases h
  · rename_i htag hname
    exact ⟨hfield htag, hfield hname, (Except.ok.inj h).symm⟩

/-- **A signature is over one id, version and digests, or over one release file.** -/
theorem signature_fixed :
    (∀ id version digests id' version' digests' message, signedMessage id version digests = .ok message →
      signedMessage id' version' digests' = .ok message → id = id' ∧ version = version' ∧ digests = digests') ∧
    (∀ tag assetName sha256 tag' assetName' sha256' message, Updater.signedMessage tag assetName sha256 = .ok message →
      Updater.signedMessage tag' assetName' sha256' = .ok message → tag = tag' ∧ assetName = assetName' ∧ sha256 = sha256') ∧
    (∀ id version digests tag assetName sha256 message, signedMessage id version digests = .ok message →
      Updater.signedMessage tag assetName sha256 ≠ .ok message) ∧
    (∀ text v, AppVersion.parse text = .ok v → v.toText = text) ∧
    ∀ text text' v id digests, AppVersion.parse text = .ok v → AppVersion.parse text' = .ok v →
      signedMessage id text digests = signedMessage id text' digests := by
  refine ⟨?_, ?_, ?_, fun text v => AppVersion.parse_ok, ?_⟩
  · intro id version digests id' version' digests' message h h'
    obtain ⟨hid, hversion, rfl⟩ := signedMessage_ok h
    obtain ⟨hid', hversion', heq⟩ := signedMessage_ok h'
    obtain ⟨rfl, rfl, hrest⟩ := message_inj hid hid' hversion hversion' heq
    obtain ⟨hmanifest, hwasm⟩ := List.append_inj hrest (by rw [digests.manifest.2, digests'.manifest.2])
    obtain ⟨manifest, wasm⟩ := digests
    obtain ⟨manifest', wasm'⟩ := digests'
    obtain rfl : manifest = manifest' := Subtype.ext hmanifest
    obtain rfl : wasm = wasm' := Subtype.ext hwasm
    exact ⟨rfl, rfl, rfl⟩
  · intro tag assetName sha256 tag' assetName' sha256' message h h'
    obtain ⟨htag, hname, rfl⟩ := release_signedMessage_ok h
    obtain ⟨htag', hname', heq⟩ := release_signedMessage_ok h'
    obtain ⟨rfl, rfl, hrest⟩ := message_inj htag htag' hname hname' heq
    exact ⟨rfl, rfl, Subtype.ext hrest⟩
  · intro id version digests tag assetName sha256 message h h'
    obtain ⟨-, -, rfl⟩ := signedMessage_ok h
    obtain ⟨-, -, heq⟩ := release_signedMessage_ok h'
    -- `citadel-app` and `citadel-agent` differ at this byte
    have hbyte := congrArg (·[9]?) heq
    simp only [List.append_assoc] at hbyte
    rw [List.getElem?_append_left (by decide), List.getElem?_append_left (by decide)] at hbyte
    exact absurd hbyte (by decide)
  · intro text text' v id digests h h'
    rw [← AppVersion.parse_ok h, AppVersion.parse_ok h']

end CitadelAgent.Apps.Signature
