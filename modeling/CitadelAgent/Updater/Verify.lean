import CitadelAgent.Updater.Release

/-!
# Whether a download may replace this agent

`updater/verify.rs`, with the signed message and the checks of the release-signature crate. The signature scheme itself is
a parameter.

* `expectedSha256` : the digest a checksum file gives for a name;
* `decodeHex_hexChars`, `sha256FromHex_hex` : a digest read back from its hexadecimal text;
* `checkSignature_verified`, `judgeDownload_accept`, `judgeStaged_accept` : what an acceptance says.
-/

namespace CitadelAgent.Updater

/-! ## Text -/

/-- `str::len` -/
def byteLen (text : List Char) : Nat := (text.map Char.utf8Size).sum

/-- The White_Space property of Unicode. -/
def isSpace (c : Char) : Bool :=
  let n := c.toNat
  (9 ≤ n && n ≤ 13) || n = 0x20 || n = 0x85 || n = 0xA0 || n = 0x1680 || (0x2000 ≤ n && n ≤ 0x200A) || n = 0x2028 ||
    n = 0x2029 || n = 0x202F || n = 0x205F || n = 0x3000

def trimEnd (text : List Char) : List Char := (text.reverse.dropWhile isSpace).reverse

def trim (text : List Char) : List Char := trimEnd (text.dropWhile isSpace)

/-- `str::lines` -/
def lines (text : List Char) : List (List Char) :=
  let parts := text.splitOn '\n'
  let ended := if parts.getLast? = some [] then parts.dropLast else parts
  ended.map fun line => if line.getLast? = some '\r' then line.dropLast else line

/-- `str::split_once` -/
def splitOnce (c : Char) (text : List Char) : Option (List Char × List Char) :=
  match text.dropWhile (· ≠ c) with
  | [] => none
  | _ :: rest => some (text.takeWhile (· ≠ c), rest)

def hexValue (c : Char) : Option Nat :=
  if '0' ≤ c ∧ c ≤ '9' then some (c.toNat - 48)
  else if 'a' ≤ c ∧ c ≤ 'f' then some (c.toNat - 87)
  else if 'A' ≤ c ∧ c ≤ 'F' then some (c.toNat - 55)
  else none

def hexDigit (n : Nat) : Char := if n < 10 then Char.ofNat (48 + n) else Char.ofNat (87 + n)

def hexChars (bytes : List UInt8) : List Char :=
  bytes.flatMap fun b => [hexDigit (b.toNat / 16), hexDigit (b.toNat % 16)]

def decodeHex : List Char → Option (List UInt8)
  | [] => some []
  | [_] => none
  | a :: b :: rest => do
    let high ← hexValue a
    let low ← hexValue b
    let bytes ← decodeHex rest
    some (UInt8.ofNat (high * 16 + low) :: bytes)

/-- `eq_ignore_ascii_case` -/
def eqIgnoreCase (a b : String) : Bool := a.toList.map Char.toLower = b.toList.map Char.toLower

abbrev Sha256 := { bytes : List UInt8 // bytes.length = 32 }

def Sha256.hex (digest : Sha256) : String := String.ofList (hexChars digest.val)

/-! ## The release signature -/

def DOMAIN : String := "citadel-agent-release-v1\x00"

def SIGNATURE_SUFFIX : String := ".mldsa.sig"

def PUBLIC_KEY_LEN : Nat := 1952

def SIGNATURE_LEN : Nat := 3309

namespace Signature

inductive Refusal
  | placeholderKey
  | malformedKey (why : String)
  | malformedSignature (why : String)
  | badField (why : String)
  | invalid

def Refusal.toText : Refusal → String
  | .placeholderKey => "this build has no release public key (it is the placeholder)"
  | .malformedKey why => s!"the release public key is malformed: {why}"
  | .malformedSignature why => s!"the ML-DSA signature is malformed: {why}"
  | .badField why => why
  | .invalid => "the ML-DSA signature does not verify against the release key for this tag, file and digest"

end Signature

open Signature (Refusal)

structure MlDsa where
  /-- Whether bytes of the right number are a signature. -/
  decodes : List UInt8 → Bool
  verifies : (key message signature : List UInt8) → Bool

def badField (what value : String) : Option Refusal :=
  if value = "" || value.toList.contains '\x00' then some (.badField s!"the {what} {value.quote} is empty or contains NUL")
  else none

def signedMessage (tag assetName : String) (sha256 : Sha256) : Except Refusal (List UInt8) :=
  match badField "tag" tag, badField "asset name" assetName with
  | some why, _ => .error why
  | none, some why => .error why
  | none, none => .ok (osStr DOMAIN ++ osStr tag ++ [0] ++ osStr assetName ++ [0] ++ sha256.val)

def decodeExact (n : Nat) (text : List Char) : Except String { bytes : List UInt8 // bytes.length = n } :=
  if byteLen text ≠ n * 2 then .error s!"{byteLen text} hex characters, not the {n * 2} of {n} bytes"
  else match decodeHex text with
    | none => .error "Invalid character"
    | some bytes => if h : bytes.length = n then .ok ⟨bytes, h⟩ else .error "Invalid string length"

def sha256FromHex (text : String) : Except Refusal Sha256 :=
  match decodeExact 32 (trim text.toList) with
  | .ok digest => .ok digest
  | .error why => .error (.badField s!"{text.quote} is not a sha256: {why}")

def parsePublicKey (text : String) : Except Refusal (List UInt8) :=
  if (osStr "PLACEHOLDER").isPrefixOf (osStr (String.ofList (trim text.toList))) then .error .placeholderKey
  else match decodeExact PUBLIC_KEY_LEN (trim text.toList) with
    | .ok key => .ok key.val
    | .error why => .error (.malformedKey why)

def verify (mlDsa : MlDsa) (publicKey tag assetName : String) (sha256 : Sha256) (signature : String) : Except Refusal Unit := do
  let key ← parsePublicKey publicKey
  let message ← signedMessage tag assetName sha256
  let bytes ← match decodeExact SIGNATURE_LEN (trim signature.toList) with
    | .ok bytes => .ok bytes.val
    | .error why => .error (.malformedSignature why)
  if !mlDsa.decodes bytes then .error (.malformedSignature "it does not decode")
  else if mlDsa.verifies key message bytes then .ok ()
  else .error .invalid

/-! ## The checks -/

inductive Provenance
  | verified
  | absent
  | failed (why : String)

inductive ReleaseSignature
  | verified
  | missing
  | refused (why : String)
  deriving DecidableEq

def MISSING_SIGNATURE : String := "ML-DSA: the release has no ML-DSA signature for this file, so it is not installed"

def checkSignature (mlDsa : MlDsa) (releaseKey tag assetName actualSha : String) : Option String → ReleaseSignature
  | none => .missing
  | some signature =>
    match sha256FromHex actualSha >>= fun digest => verify mlDsa releaseKey tag assetName digest signature with
    | .ok () => .verified
    | .error why => .refused why.toText

inductive Verdict
  | accept
  | linkOnly (why : String)
  | refuse (why : String)
  deriving DecidableEq

/-- The lines of `sha256sum`: the digest, a space, a space or a star, and the name. -/
def expectedFrom (name : String) : List (List Char) → Except String String
  | [] => .error s!"the checksum file names no {name}"
  | line :: rest =>
    match splitOnce ' ' line with
    | none => expectedFrom name rest
    | some (digest, after) =>
      let file := match after with
        | ' ' :: file => some file
        | '*' :: file => some file
        | _ => none
      if file.map trimEnd ≠ some name.toList then expectedFrom name rest
      else if byteLen digest = 64 && digest.all (fun c => (hexValue c).isSome) then
        .ok (String.ofList (digest.map Char.toLower))
      else .error s!"the checksum for {name} is not a sha256: {(String.ofList digest).quote}"

def expectedSha256 (text name : String) : Except String String := expectedFrom name (lines text.toList)

def judgeDownload (current version : Version) (signature : ReleaseSignature) (expectedSha actualSha : String)
    (provenance : Provenance) (method : Method) : Verdict :=
  match signature with
  | .missing => .refuse MISSING_SIGNATURE
  | .refused why => .refuse s!"ML-DSA: {why}"
  | .verified =>
    if !isUpgrade current version then .refuse s!"{version.toText} would not upgrade {current.toText}"
    else if !eqIgnoreCase expectedSha actualSha then
      .refuse s!"the download's sha256 is {actualSha}, the release says {expectedSha}"
    else match provenance with
      | .verified => .accept
      | .failed why => .refuse s!"the attestation did not verify: {why}"
      | .absent =>
        if method = .macApp then .accept
        else .linkOnly "the release has no attestation for this file, so it is not installed automatically"

/-- The staged copy: what it printed for `--version`, when it is runnable here. -/
def judgeStaged (version : Version) (printed : Option String) (method : Method) : Verdict :=
  match printed, method with
  | none, .macApp => .accept
  | none, _ => .refuse "the staged agent was not run"
  | some line, _ =>
    if trim line.toList = (versionLine version).toList then .accept
    else .refuse s!"the staged agent says {(String.ofList (trim line.toList)).quote}, the release is {version.toText}"

/-! ## A digest and its text -/

theorem hexValue_hexDigit {n : Nat} (h : n < 16) : hexValue (hexDigit n) = some n := by
  have : ∀ n : Fin 16, hexValue (hexDigit n) = some n.val := by decide
  exact this ⟨n, h⟩

variable (bytes : List UInt8)

theorem decodeHex_hexChars : decodeHex (hexChars bytes) = some bytes := by
  induction bytes with
  | nil => rfl
  | cons b bytes ih =>
    have hb := b.toNat_lt
    show decodeHex (hexDigit (b.toNat / 16) :: hexDigit (b.toNat % 16) :: hexChars bytes) = some (b :: bytes)
    rw [decodeHex, hexValue_hexDigit (by omega), hexValue_hexDigit (by omega), ih]
    show some (UInt8.ofNat (b.toNat / 16 * 16 + b.toNat % 16) :: bytes) = some (b :: bytes)
    rw [Nat.div_add_mod', UInt8.ofNat_toNat]

theorem isSpace_hexDigit {n : Nat} (h : n < 16) : isSpace (hexDigit n) = false := by
  have : ∀ n : Fin 16, isSpace (hexDigit n) = false := by decide
  exact this ⟨n, h⟩

theorem not_isSpace_of_mem_hexChars {bytes : List UInt8} {c : Char} (h : c ∈ hexChars bytes) : isSpace c = false := by
  obtain ⟨b, -, hc⟩ := List.mem_flatMap.mp h
  have hb := b.toNat_lt
  rcases List.mem_cons.mp hc with rfl | hc
  · exact isSpace_hexDigit (by omega)
  · rw [List.mem_singleton.mp hc]
    exact isSpace_hexDigit (by omega)

theorem trim_eq_self {text : List Char} (h : ∀ c ∈ text, isSpace c = false) : trim text = text := by
  have hfront : ∀ l : List Char, (∀ c ∈ l, isSpace c = false) → l.dropWhile isSpace = l := by
    intro l hl
    cases l with
    | nil => rfl
    | cons c l => rw [List.dropWhile_cons, if_neg (by simp [hl c List.mem_cons_self])]
  rw [trim, trimEnd, hfront text h, hfront _ (fun c hc => h c (List.mem_reverse.mp hc)), List.reverse_reverse]

theorem byteLen_hexChars : byteLen (hexChars bytes) = bytes.length * 2 := by
  have hone : ∀ n : Fin 16, (hexDigit n).utf8Size = 1 := by decide
  induction bytes with
  | nil => rfl
  | cons b bytes ih =>
    have hb := b.toNat_lt
    have h₁ : (hexDigit (b.toNat / 16)).utf8Size = 1 := hone ⟨b.toNat / 16, by omega⟩
    have h₂ : (hexDigit (b.toNat % 16)).utf8Size = 1 := hone ⟨b.toNat % 16, by omega⟩
    show ((hexDigit (b.toNat / 16)).utf8Size + ((hexDigit (b.toNat % 16)).utf8Size + byteLen (hexChars bytes))) = _
    rw [h₁, h₂, ih, List.length_cons]
    omega

theorem trim_hexChars : trim (hexChars bytes) = hexChars bytes :=
  trim_eq_self fun _ hc => not_isSpace_of_mem_hexChars hc

theorem decodeExact_hexChars (n : Nat) (bytes : List UInt8) (h : bytes.length = n) :
    decodeExact n (hexChars bytes) = .ok ⟨bytes, h⟩ := by
  rw [decodeExact, if_neg (by rw [byteLen_hexChars, h]; simp), decodeHex_hexChars]
  simp only [h, dif_pos]

theorem sha256FromHex_hex (digest : Sha256) : sha256FromHex digest.hex = .ok digest := by
  rw [sha256FromHex, Sha256.hex, String.toList_ofList, trim_hexChars, decodeExact_hexChars 32 digest.val digest.property]

theorem osStr_ofList (text : List Char) : osStr (String.ofList text) = text.flatMap String.utf8EncodeChar := by
  rw [osStr, String.bytes_ofList, List.utf8Encode, List.data_toByteArray]

theorem parsePublicKey_hexChars (h : bytes.length = PUBLIC_KEY_LEN) :
    parsePublicKey (String.ofList (hexChars bytes)) = .ok bytes := by
  have hdigit : ∀ n : Fin 16, (String.utf8EncodeChar (hexDigit n)).head? ≠ (osStr "PLACEHOLDER").head? ∧
      (String.utf8EncodeChar (hexDigit n)) ≠ [] := by decide
  have hplace : (osStr "PLACEHOLDER").isPrefixOf (osStr (String.ofList (hexChars bytes))) = false := by
    cases bytes with
    | nil => exact nomatch h
    | cons b bytes =>
      have hb := b.toNat_lt
      obtain ⟨hhead, hne⟩ := hdigit ⟨b.toNat / 16, by omega⟩
      rw [osStr_ofList (hexChars _), Bool.eq_false_iff, ne_eq, List.isPrefixOf_iff_prefix]
      rintro ⟨rest, hrest⟩
      refine hhead ?_
      have htext := congrArg List.head? hrest
      rw [List.head?_append_of_ne_nil _ (by decide)] at htext
      rw [htext, show hexChars (b :: bytes) = hexDigit (b.toNat / 16) :: (hexDigit (b.toNat % 16) :: hexChars bytes) from rfl,
        List.flatMap_cons, List.head?_append_of_ne_nil _ hne]
  rw [parsePublicKey, String.toList_ofList, trim_hexChars, hplace, decodeExact_hexChars PUBLIC_KEY_LEN bytes h]
  rfl

/-! ## What an acceptance says -/

theorem verify_ok {mlDsa : MlDsa} {publicKey tag assetName signature : String} {digest : Sha256}
    (h : verify mlDsa publicKey tag assetName digest signature = .ok ()) :
    ∃ key message bytes, parsePublicKey publicKey = .ok key ∧ signedMessage tag assetName digest = .ok message ∧
      decodeExact SIGNATURE_LEN (trim signature.toList) = .ok bytes ∧ mlDsa.verifies key message bytes.val = true := by
  obtain ⟨key, hkey, h⟩ := Result.bind_eq_ok.mp h
  obtain ⟨message, hmessage, h⟩ := Result.bind_eq_ok.mp h
  cases hbytes : decodeExact SIGNATURE_LEN (trim signature.toList) with
  | error why =>
    rw [hbytes] at h
    exact nomatch h
  | ok bytes =>
    rw [hbytes] at h
    simp only [Result.ok_bind] at h
    split at h
    · simp at h
    · split at h
      · rename_i hverifies
        exact ⟨key, message, bytes, hkey, hmessage, rfl, hverifies⟩
      · simp at h

theorem checkSignature_verified {mlDsa : MlDsa} {releaseKey tag assetName : String} {digest : Sha256} {signature : Option String}
    (h : checkSignature mlDsa releaseKey tag assetName digest.hex signature = .verified) :
    ∃ text key message bytes, signature = some text ∧ parsePublicKey releaseKey = .ok key ∧
      signedMessage tag assetName digest = .ok message ∧ decodeExact SIGNATURE_LEN (trim text.toList) = .ok bytes ∧
      mlDsa.verifies key message bytes.val = true := by
  unfold checkSignature at h
  split at h
  · simp at h
  · rename_i text
    split at h
    · rename_i hok
      rw [sha256FromHex_hex, Result.ok_bind] at hok
      obtain ⟨key, message, bytes, hrest⟩ := verify_ok hok
      exact ⟨text, key, message, bytes, rfl, hrest⟩
    · simp at h

theorem judgeDownload_accept {current version : Version} {signature : ReleaseSignature} {expectedSha actualSha : String}
    {provenance : Provenance} {method : Method}
    (h : judgeDownload current version signature expectedSha actualSha provenance method = .accept) :
    signature = .verified ∧ isUpgrade current version = true ∧ eqIgnoreCase expectedSha actualSha = true ∧
      (provenance = .verified ∨ provenance = .absent ∧ method = .macApp) := by
  unfold judgeDownload at h
  split at h
  · simp at h
  · simp at h
  · split at h
    · simp at h
    · split at h
      · simp at h
      · rename_i hup hsha
        refine ⟨rfl, by simpa using hup, by simpa using hsha, ?_⟩
        split at h
        · exact .inl rfl
        · simp at h
        · split at h
          · rename_i hmethod
            exact .inr ⟨rfl, hmethod⟩
          · simp at h

theorem judgeStaged_accept {version : Version} {printed : Option String} {method : Method}
    (h : judgeStaged version printed method = .accept) :
    (printed = none ∧ method = .macApp) ∨ ∃ line, printed = some line ∧ trim line.toList = (versionLine version).toList := by
  unfold judgeStaged at h
  split at h
  · exact .inl ⟨rfl, rfl⟩
  · simp at h
  · split at h
    · rename_i hline
      exact .inr ⟨_, rfl, hline⟩
    · simp at h

end CitadelAgent.Updater
