import Mathlib

/-!
# Release tags and the versions they name

`updater/version.rs`, over a semantic version as its parser and its order have it.

* `Version.parse` : the text of a version, `none` when it is not one;
* `Version.cmp` : by number, then by prerelease, then by build metadata;
* `versionOfTag`, `isUpgrade`, `versionLine` : the source's three questions.
-/

namespace CitadelAgent.Updater

structure Version where
  major : Nat
  minor : Nat
  patch : Nat
  pre : String
  build : String
  deriving DecidableEq

namespace Version

/-! ## Text -/

/-- `Display`. -/
def toText (v : Version) : String :=
  s!"{v.major}.{v.minor}.{v.patch}" ++ (if v.pre = "" then "" else "-" ++ v.pre) ++
    (if v.build = "" then "" else "+" ++ v.build)

def isIdentifierChar (c : Char) : Bool := c.isAlphanum || c = '-' || c = '.'

def isNumeric (segment : List Char) : Bool := segment.all Char.isDigit

/-- A number without leading zeros that fits in 64 bits, and what follows it. -/
def numericIdentifier (text : List Char) : Option (Nat × List Char) :=
  let digits := text.takeWhile Char.isDigit
  let value := digits.foldl (fun n c => n * 10 + (c.toNat - '0'.toNat)) 0
  if digits = [] || (digits.head? = some '0' && digits.length > 1) || value ≥ 2 ^ 64 then none
  else some (value, text.dropWhile Char.isDigit)

def dot : List Char → Option (List Char)
  | '.' :: rest => some rest
  | _ => none

/-- A `-pre` or `+build` part that starts with `mark`; `leadingZeros` when its numbers may have them. -/
def identifier (mark : Char) (leadingZeros : Bool) : List Char → Option (String × List Char)
  | [] => some ("", [])
  | c :: text =>
    if c ≠ mark then some ("", c :: text)
    else
      let named := text.takeWhile isIdentifierChar
      let refused (segment : List Char) : Bool :=
        segment = [] || (!leadingZeros && isNumeric segment && segment.length > 1 && segment.head? = some '0')
      if (named.splitOn '.').any refused then none
      else some (String.ofList named, text.dropWhile isIdentifierChar)

def parse (text : String) : Option Version := do
  let (major, text) ← numericIdentifier text.toList
  let text ← dot text
  let (minor, text) ← numericIdentifier text
  let text ← dot text
  let (patch, text) ← numericIdentifier text
  let (pre, text) ← identifier '-' false text
  let (build, text) ← identifier '+' true text
  if text = [] then some ⟨major, minor, patch, pre, build⟩ else none

/-! ## Order -/

def cmpDigits (a b : List Char) : Ordering :=
  let value (digits : List Char) := digits.dropWhile (· = '0')
  (compare (value a).length (value b).length).then
    ((compareOfLessAndEq (value a) (value b)).then (compare a.length b.length))

def cmpSegment (a b : List Char) : Ordering :=
  match isNumeric a, isNumeric b with
  | true, true => cmpDigits a b
  | true, false => .lt
  | false, true => .gt
  | false, false => compareOfLessAndEq a b

def cmpSegments : List (List Char) → List (List Char) → Ordering
  | [], [] => .eq
  | [], _ :: _ => .lt
  | _ :: _, [] => .gt
  | a :: as, b :: bs => (cmpSegment a b).then (cmpSegments as bs)

def cmpBuild (a b : String) : Ordering := cmpSegments (a.toList.splitOn '.') (b.toList.splitOn '.')

/-- A version without a prerelease part comes after those with one. -/
def cmpPre (a b : String) : Ordering :=
  if a = "" && b = "" then .eq else if a = "" then .gt else if b = "" then .lt else cmpBuild a b

def cmp (a b : Version) : Ordering :=
  (compare a.major b.major).then <| (compare a.minor b.minor).then <| (compare a.patch b.patch).then <|
    (cmpPre a.pre b.pre).then (cmpBuild a.build b.build)

end Version

/-! ## Tags -/

def TAG_PREFIX : String := "agent-v"

/-- `str::strip_prefix` -/
def stripPrefix (start text : String) : Option String :=
  (start.toList.isPrefixOf? text.toList).map String.ofList

def versionOfTag (tag : String) : Option Version := do
  let version ← Version.parse (← stripPrefix TAG_PREFIX tag)
  if version.pre = "" && version.build = "" then some version else none

def isUpgrade (current candidate : Version) : Bool := candidate.cmp current = .gt

def versionLine (version : Version) : String := s!"citadel-agent {version.toText}"

example : versionOfTag "agent-v10.0.1" = some ⟨10, 0, 1, "", ""⟩ ∧ versionOfTag "agent-v0.8.8-rc.1" = none ∧
    isUpgrade ⟨0, 8, 9, "", ""⟩ ⟨0, 10, 0, "", ""⟩ = true := by decide +kernel

end CitadelAgent.Updater
