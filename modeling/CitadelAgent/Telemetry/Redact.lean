import CitadelAgent.Requests.Request
import CitadelAgent.Updater.Verify

/-!
# Redaction of one message

`citadel-internal-service/src/telemetry/redact/{mod,rules}.rs`: the ranges that the rules would replace, over the original text,
merged and then rewritten. Positions count bytes.

* `digitRuns`, `cidTokens` : the numbers a text names;
* `knownValueHits`, `sessionCidHits`, `merge`, `redactWithSessions` : the redaction;
* `redact_runs` : what a redacted text names, and that there is one.
-/

namespace CitadelAgent.Telemetry
open Requests (parseU64)
open Updater (byteLen trim hexChars)
open Conversations (Cid)

/-! ## Positions in a text -/

def splitBytes : Nat → List Char → Option (List Char × List Char)
  | 0, text => some ([], text)
  | _ + 1, [] => none
  | n + 1, c :: text =>
    if c.utf8Size ≤ n + 1 then (splitBytes (n + 1 - c.utf8Size) text).map fun (before, after) => (c :: before, after) else none

theorem byteLen_nil : byteLen [] = 0 := rfl

theorem byteLen_cons (c : Char) (text : List Char) : byteLen (c :: text) = c.utf8Size + byteLen text := by
  simp [byteLen]

theorem byteLen_append (a b : List Char) : byteLen (a ++ b) = byteLen a + byteLen b := by
  simp [byteLen]

variable {text a b run input : List Char} {offset cursor : Nat}

theorem byteLen_eq_zero (h : byteLen text = 0) : text = [] := by
  cases text with
  | nil => rfl
  | cons c text =>
    have := c.utf8Size_pos
    rw [byteLen_cons] at h
    omega

theorem splitBytes_append (a b : List Char) : splitBytes (byteLen a) (a ++ b) = some (a, b) := by
  induction a with
  | nil => rw [byteLen_nil, List.nil_append, splitBytes]
  | cons c a ih =>
    have hpos := c.utf8Size_pos
    obtain ⟨n, hn⟩ : ∃ n, byteLen (c :: a) = n + 1 := ⟨byteLen (c :: a) - 1, by rw [byteLen_cons]; omega⟩
    have hrest : n + 1 - c.utf8Size = byteLen a := by
      rw [← hn, byteLen_cons]
      omega
    rw [hn, List.cons_append, splitBytes, if_pos (by rw [← hn, byteLen_cons]; omega), hrest, ih]
    rfl

/-! ## Runs of digits -/

/-- The matches of `[0-9]+`, with the positions where they start. -/
def digitRuns : Nat → List Char → List (Nat × List Char)
  | _, [] => []
  | offset, c :: text =>
    if c.isDigit then
      match digitRuns (offset + c.utf8Size) text with
      | (start, run) :: runs =>
        if start = offset + c.utf8Size then (offset, c :: run) :: runs else (offset, [c]) :: (start, run) :: runs
      | [] => [(offset, [c])]
    else digitRuns (offset + c.utf8Size) text

/-- Every run of digits that fits a `u64`. -/
def cidTokens (text : List Char) : List Cid := (digitRuns 0 text).filterMap fun run => parseU64 run.2

def startsDigit (text : List Char) : Bool := text.head?.any Char.isDigit

def endsDigit (text : List Char) : Bool := text.getLast?.any Char.isDigit

theorem le_of_mem_digitRuns {r : Nat × List Char} (h : r ∈ digitRuns offset text) :
    offset ≤ r.1 ∧ (startsDigit text = false → offset < r.1) := by
  induction text generalizing offset r with
  | nil => exact absurd h List.not_mem_nil
  | cons c text ih =>
    have hpos := c.utf8Size_pos
    rw [digitRuns] at h
    split at h
    · rename_i hdigit
      have hlater : ∀ r ∈ digitRuns (offset + c.utf8Size) text, offset ≤ r.1 := fun r hr => by
        have := (ih hr).1
        omega
      refine ⟨?_, fun hstart => absurd hdigit (by simpa [startsDigit] using hstart)⟩
      split at h
      · rename_i start run runs hruns
        rw [hruns] at hlater
        split at h
        · rcases List.mem_cons.mp h with rfl | h
          · exact le_rfl
          · exact hlater r (List.mem_cons_of_mem _ h)
        · rcases List.mem_cons.mp h with rfl | h
          · exact le_rfl
          · exact hlater r h
      · rw [List.mem_singleton.mp h]
    · have := (ih h).1
      exact ⟨by omega, fun _ => by omega⟩

theorem digitRuns_append (h : endsDigit a = false ∨ startsDigit b = false) :
    digitRuns offset (a ++ b) = digitRuns offset a ++ digitRuns (offset + byteLen a) b := by
  induction a generalizing offset with
  | nil => rfl
  | cons c a ih =>
    have hoffset : offset + byteLen (c :: a) = offset + c.utf8Size + byteLen a := by
      rw [byteLen_cons]
      omega
    have hrest : digitRuns (offset + c.utf8Size) (a ++ b) =
        digitRuns (offset + c.utf8Size) a ++ digitRuns (offset + c.utf8Size + byteLen a) b := by
      cases a with
      | nil => rfl
      | cons d a => exact ih (h.imp_left fun he => by simpa [endsDigit] using he)
    rw [List.cons_append, digitRuns, digitRuns, hrest, hoffset]
    split
    · rename_i hdigit
      cases hruns : digitRuns (offset + c.utf8Size) a with
      | cons r runs =>
        obtain ⟨start, run⟩ := r
        simp only [List.cons_append]
        split
        · rfl
        · rfl
      | nil =>
        -- no run of `b` goes on where `c` stands
        have hapart : ∀ r ∈ digitRuns (offset + c.utf8Size + byteLen a) b, r.1 ≠ offset + c.utf8Size := by
          intro r hr heq
          cases a with
          | nil =>
            have hstart : startsDigit b = false := h.resolve_left (by simp [endsDigit, hdigit])
            have := (le_of_mem_digitRuns hr).2 hstart
            rw [byteLen_nil] at this
            omega
          | cons d a =>
            have hpos := d.utf8Size_pos
            have := (le_of_mem_digitRuns hr).1
            rw [byteLen_cons] at this
            omega
        rw [List.nil_append]
        cases hb : digitRuns (offset + c.utf8Size + byteLen a) b with
        | nil => rfl
        | cons r runs =>
          obtain ⟨start, run⟩ := r
          rw [hb] at hapart
          simp only
          rw [if_neg (hapart _ List.mem_cons_self)]
          rfl
    · rfl

theorem digitRuns_shift (k : Nat) (offset : Nat) (text : List Char) :
    digitRuns (offset + k) text = (digitRuns offset text).map fun r => (r.1 + k, r.2) := by
  induction text generalizing offset with
  | nil => rfl
  | cons c text ih =>
    have hrest : digitRuns (offset + k + c.utf8Size) text =
        (digitRuns (offset + c.utf8Size) text).map fun r => (r.1 + k, r.2) := by
      rw [← ih, Nat.add_right_comm]
    rw [digitRuns, digitRuns, hrest]
    split
    · cases digitRuns (offset + c.utf8Size) text with
      | nil => rfl
      | cons r runs =>
        obtain ⟨start, run⟩ := r
        have hiff : start + k = offset + k + c.utf8Size ↔ start = offset + c.utf8Size := by omega
        simp only [List.map_cons, hiff]
        split
        · rfl
        · rfl
    · rfl

theorem digitRuns_digits (hnil : run ≠ []) (h : ∀ c ∈ run, c.isDigit = true) :
    digitRuns offset run = [(offset, run)] := by
  induction run generalizing offset with
  | nil => exact absurd rfl hnil
  | cons c run ih =>
    rw [digitRuns, if_pos (h c List.mem_cons_self)]
    cases run with
    | nil => rfl
    | cons d run =>
      rw [ih (List.cons_ne_nil _ _) fun c hc => h c (List.mem_cons_of_mem _ hc)]
      simp only [if_true]

theorem endsDigit_append (h : b ≠ []) : endsDigit (a ++ b) = endsDigit b := by
  rw [endsDigit, List.getLast?_append_of_ne_nil _ h]
  rfl

theorem mem_digitRuns {start : Nat} (h : (start, run) ∈ digitRuns offset text) :
    ∃ a b, text = a ++ run ++ b ∧ start = offset + byteLen a ∧ run ≠ [] ∧ (∀ c ∈ run, c.isDigit = true) ∧
      endsDigit a = false ∧ startsDigit b = false := by
  induction hlen : text.length using Nat.strong_induction_on generalizing offset text with
  | _ n ih =>
    cases text with
    | nil => exact absurd h List.not_mem_nil
    | cons c text =>
      by_cases hdigit : c.isDigit = true
      · -- the run that starts here, and the rest
        set first := (c :: text).takeWhile Char.isDigit with hfirst
        set rest := (c :: text).dropWhile Char.isDigit with hrest
        have hsplit : c :: text = first ++ rest := (List.takeWhile_append_dropWhile ..).symm
        have hdigits : ∀ d ∈ first, d.isDigit = true := fun d hd => List.mem_takeWhile_imp hd
        have hnil : first ≠ [] := by simp [hfirst, hdigit]
        have hapart : startsDigit rest = false := by
          have hhead := List.head?_dropWhile_not Char.isDigit (c :: text)
          rw [← hrest] at hhead
          rw [startsDigit]
          cases hr : rest.head? with
          | none => rfl
          | some d => simpa [hr] using hhead
        rw [hsplit, digitRuns_append (.inr hapart), digitRuns_digits hnil hdigits] at h
        rcases List.mem_cons.mp h with heq | h
        · obtain ⟨rfl, rfl⟩ := Prod.mk.inj heq
          exact ⟨[], rest, hsplit, rfl, hnil, hdigits, rfl, hapart⟩
        · have hshort : rest.length < n := by
            have := congrArg List.length hsplit
            have := List.length_pos_iff.mpr hnil
            simp only [List.length_append] at *
            omega
          obtain ⟨a, b, hab, rfl, hrun, hall, ha, hb⟩ := ih _ hshort h rfl
          refine ⟨first ++ a, b, ?_, by rw [byteLen_append]; omega, hrun, hall, ?_, hb⟩
          · rw [hsplit, hab, List.append_assoc, List.append_assoc, List.append_assoc]
          · cases a with
            | cons d a => rw [endsDigit_append (List.cons_ne_nil _ _), ha]
            | nil =>
              -- the rest does not start with a digit
              obtain ⟨d, run, rfl⟩ := List.exists_cons_of_ne_nil hrun
              rw [hab] at hapart
              have := hall d List.mem_cons_self
              simp [startsDigit, this] at hapart
      · rw [digitRuns, if_neg hdigit] at h
        have hshort : text.length < n := by
          rw [← hlen]
          exact Nat.lt_succ_self _
        obtain ⟨a, b, rfl, rfl, hrun, hall, ha, hb⟩ := ih _ hshort h rfl
        refine ⟨c :: a, b, rfl, by rw [byteLen_cons]; omega, hrun, hall, ?_, hb⟩
        cases a with
        | nil => simpa [endsDigit] using hdigit
        | cons d a => simpa [endsDigit] using ha

/-! ## The rules -/

inductive RedactionKind
  | username | fullName | secret | email | host | path | file | ip
  | session
  deriving DecidableEq

namespace RedactionKind

def label : RedactionKind → String
  | username => "user"
  | fullName => "name"
  | secret => "secret"
  | email => "email"
  | host => "host"
  | path => "path"
  | file => "file"
  | ip => "ip"
  | session => "session"

def foldsCase (kind : RedactionKind) : Bool := kind ∈ [username, fullName, email, host]

end RedactionKind

structure KnownValue where
  kind : RedactionKind
  value : List Char

/-- The key for one batch's placeholders. -/
abbrev Salt := Vector UInt8 32

/-- A range of the input that one rule wants replaced. -/
structure Hit where
  start : Nat
  end_ : Nat
  kind : RedactionKind
  deriving DecidableEq

structure Crates where
  isAlphanumeric : Char → Bool
  patternHits : List Char → List Hit
  mac : List UInt8 → List UInt8 → List UInt8

section
variable (crates : Crates)

def placeholder (kind : RedactionKind) (value : List Char) (salt : Salt) : List Char :=
  let value := if kind.foldsCase then value.map Char.toLower else value
  let digest := crates.mac salt.toList (Conversations.Cbor.utf8 kind.label ++ [0] ++ Conversations.Cbor.utf8 (String.ofList value))
  '<' :: kind.label.toList ++ ':' :: hexChars (digest.take 6) ++ ['>']

def isWord (c : Char) : Bool := crates.isAlphanumeric c || c = '_'

def bounded (input : List Char) (start end_ : Nat) : Option Bool := do
  let (before, _) ← splitBytes start input
  let (_, after) ← splitBytes end_ input
  return before.getLast?.all (fun c => !isWord crates c) && after.head?.all (fun c => !isWord crates c)

/-- `str::match_indices`: where the needle starts, from left to right and without overlap; `skip` characters are part of the last
match. -/
def matchIndices (needle : List Char) : Nat → Nat → List Char → List Nat
  | _, _, [] => []
  | skip + 1, offset, c :: text => matchIndices needle skip (offset + c.utf8Size) text
  | 0, offset, c :: text =>
    if needle.isPrefixOf (c :: text) then offset :: matchIndices needle (needle.length - 1) (offset + c.utf8Size) text
    else matchIndices needle 0 (offset + c.utf8Size) text

def boundedHits (input : List Char) (len : Nat) (kind : RedactionKind) : List Nat → Option (List Hit)
  | [] => some []
  | start :: starts => do
    let standsAlone ← bounded crates input start (start + len)
    let hits ← boundedHits input len kind starts
    return if standsAlone then ⟨start, start + len, kind⟩ :: hits else hits

def valueHits (input : List Char) (known : KnownValue) : Option (List Hit) :=
  let needle := (trim known.value).map Char.toLower
  if needle = [] then some []
  else boundedHits crates input (byteLen needle) known.kind (matchIndices needle 0 0 (input.map Char.toLower))

def knownValueHits (input : List Char) : List KnownValue → Option (List Hit)
  | [] => some []
  | known :: rest => do
    let mine ← valueHits crates input known
    let hits ← knownValueHits input rest
    return mine ++ hits

/-- Every run of digits that names one of `cids`. -/
def sessionCidHits (input : List Char) (cids : List Cid) : List Hit :=
  (digitRuns 0 input).filterMap fun run =>
    if (parseU64 run.2).any (· ∈ cids) then some ⟨run.1, run.1 + byteLen run.2, .session⟩ else none

/-! ## Merging and rewriting -/

def Hit.before (a b : Hit) : Prop := a.start < b.start ∨ a.start = b.start ∧ b.end_ ≤ a.end_

instance : DecidableRel Hit.before := fun a b => inferInstanceAs (Decidable (a.start < b.start ∨ a.start = b.start ∧ b.end_ ≤ a.end_))

def mergeFrom (last : Hit) : List Hit → List Hit
  | [] => [last]
  | hit :: hits =>
    if hit.start < last.end_ then mergeFrom { last with end_ := max last.end_ hit.end_ } hits else last :: mergeFrom hit hits

def merge (hits : List Hit) : List Hit :=
  match hits.insertionSort Hit.before with
  | [] => []
  | hit :: hits => mergeFrom hit hits

def rewrite (salt : Salt) (cursor : Nat) (rest : List Char) : List Hit → Option (List Char)
  | [] => some rest
  | hit :: hits =>
    if hit.start < cursor then none
    else do
      let (before, rest) ← splitBytes (hit.start - cursor) rest
      let (value, rest) ← splitBytes (hit.end_ - hit.start) rest
      let out ← rewrite salt hit.end_ rest hits
      return before ++ placeholder crates hit.kind value salt ++ out

/-- The input with every identifying value, and every cid of the other sessions, replaced; `none` where a slice would be off a
character boundary. -/
def redactWithSessions (input : List Char) (known : List KnownValue) (otherSessions : List Cid) (salt : Salt) :
    Option (List Char) := do
  let hits ← knownValueHits crates input known
  rewrite crates salt 0 input (merge (hits ++ crates.patternHits input ++ sessionCidHits input otherSessions))

end

/-! ## Ranges that cut no run of digits -/

/-- The text goes on from its start at `offset`, and can be cut at the position without cutting a run of digits. -/
def CutAt (offset : Nat) (text : List Char) (position : Nat) : Prop :=
  ∃ a b, text = a ++ b ∧ offset + byteLen a = position ∧ (endsDigit a = false ∨ startsDigit b = false)

structure Whole (offset : Nat) (text : List Char) (hit : Hit) : Prop where
  start : CutAt offset text hit.start
  end_ : CutAt offset text hit.end_
  lt : hit.start < hit.end_

structure Crates.Sound (crates : Crates) : Prop where
  digit : ∀ c : Char, c.isDigit = true → crates.isAlphanumeric c = true
  whole : ∀ input, ∀ hit ∈ crates.patternHits input, Whole 0 input hit

variable {hit : Hit}

theorem whole_session {cids : List Cid} (h : hit ∈ sessionCidHits input cids) :
    Whole 0 input hit := by
  obtain ⟨⟨start, run⟩, hrun, heq⟩ := List.mem_filterMap.mp h
  split at heq
  · obtain rfl := Option.some.inj heq
    obtain ⟨a, b, rfl, rfl, hnil, hdigits, ha, hb⟩ := mem_digitRuns hrun
    refine ⟨⟨a, run ++ b, List.append_assoc .., rfl, .inl ha⟩, ⟨a ++ run, b, rfl, ?_, .inr hb⟩, ?_⟩
    · show 0 + byteLen (a ++ run) = 0 + byteLen a + byteLen run
      rw [byteLen_append]
      omega
    · show 0 + byteLen a < 0 + byteLen a + byteLen run
      have : byteLen run ≠ 0 := fun h0 => hnil (byteLen_eq_zero h0)
      omega
  · exact nomatch heq

theorem utf8Size_toLower (c : Char) : c.toLower.utf8Size = c.utf8Size := by
  have small : ∀ d : Char, d.toNat ≤ 127 → d.utf8Size = 1 := fun d hd =>
    Char.utf8Size_eq_one_iff.mpr (UInt32.le_iff_toNat_le.mpr hd)
  by_cases h : c.val ≥ 'A'.val ∧ c.val ≤ 'Z'.val
  · have hle : c.toNat ≤ 90 := UInt32.le_iff_toNat_le.mp h.2
    have hval : c.toLower.toNat = c.toNat + 32 := by
      unfold Char.toLower
      rw [dif_pos h]
      show (c.val + ('a'.val - 'A'.val)).toNat = _
      rw [UInt32.toNat_add]
      show (c.toNat + 32) % 2 ^ 32 = _
      omega
    rw [small c (by omega), small c.toLower (by omega)]
  · unfold Char.toLower
    rw [dif_neg h]

theorem byteLen_map_toLower (text : List Char) : byteLen (text.map Char.toLower) = byteLen text := by
  induction text with
  | nil => rfl
  | cons c text ih => rw [List.map_cons, byteLen_cons, byteLen_cons, ih, utf8Size_toLower]

theorem mem_matchIndices {needle : List Char} {skip start : Nat} (h : start ∈ matchIndices needle skip offset text) :
    ∃ a b, text = a ++ needle ++ b ∧ start = offset + byteLen a := by
  induction text generalizing skip offset with
  | nil => simp [matchIndices] at h
  | cons c text ih =>
    have hlater : ∀ skip, start ∈ matchIndices needle skip (offset + c.utf8Size) text →
        ∃ a b, c :: text = a ++ needle ++ b ∧ start = offset + byteLen a := by
      intro skip h
      obtain ⟨a, b, rfl, rfl⟩ := ih h
      exact ⟨c :: a, b, rfl, by rw [byteLen_cons]; omega⟩
    cases skip with
    | succ skip => exact hlater skip h
    | zero =>
      rw [matchIndices] at h
      split at h
      · rename_i hmatch
        rcases List.mem_cons.mp h with rfl | h
        · obtain ⟨b, hb⟩ := List.isPrefixOf_iff_prefix.mp hmatch
          exact ⟨[], b, hb.symm, rfl⟩
        · exact hlater _ h
      · exact hlater _ h

section
variable {crates : Crates}

theorem endsDigit_of_notWord (hs : crates.Sound) (h : text.getLast?.all (fun c => !isWord crates c) = true) : endsDigit text = false := by
  rw [endsDigit]
  cases hlast : text.getLast? with
  | none => rfl
  | some c =>
    rw [Option.any_some, ← Bool.not_eq_true]
    intro hdigit
    simp [hlast, isWord, hs.digit c hdigit] at h

theorem startsDigit_of_notWord (hs : crates.Sound) (h : text.head?.all (fun c => !isWord crates c) = true) : startsDigit text = false := by
  rw [startsDigit]
  cases hhead : text.head? with
  | none => rfl
  | some c =>
    rw [Option.any_some, ← Bool.not_eq_true]
    intro hdigit
    simp [hhead, isWord, hs.digit c hdigit] at h

/-- A known value in the text, and no part of a longer word. -/
def Occurs (crates : Crates) (input : List Char) (known : KnownValue) (a m b : List Char) : Prop :=
  input = a ++ m ++ b ∧ m ≠ [] ∧ m.map Char.toLower = (trim known.value).map Char.toLower ∧
    a.getLast?.all (fun c => !isWord crates c) = true ∧ b.head?.all (fun c => !isWord crates c) = true

/-- One that the search finds, from left to right and without overlap. -/
def Found (crates : Crates) (input : List Char) (known : KnownValue) (hit : Hit) : Prop := ∃ a m b, Occurs crates input known a m b ∧
  byteLen a ∈ matchIndices ((trim known.value).map Char.toLower) 0 0 (input.map Char.toLower) ∧
  hit = ⟨byteLen a, byteLen a + byteLen m, known.kind⟩

theorem bounded_eq {a m b : List Char} (h : input = a ++ m ++ b) : bounded crates input (byteLen a) (byteLen a + byteLen m) =
    some (a.getLast?.all (fun c => !isWord crates c) && b.head?.all (fun c => !isWord crates c)) := by
  have hstart : splitBytes (byteLen a) input = some (a, m ++ b) := by
    rw [h, List.append_assoc, splitBytes_append]
  have hend : splitBytes (byteLen a + byteLen m) input = some (a ++ m, b) := by
    rw [h, ← byteLen_append, splitBytes_append]
  rw [bounded, hstart, hend]
  rfl

theorem boundedHits_mem {len : Nat} (kind : RedactionKind) {starts : List Nat}
    (h : ∀ start ∈ starts, ∃ a m b, input = a ++ m ++ b ∧ byteLen a = start ∧ byteLen m = len) :
    ∃ hits, boundedHits crates input len kind starts = some hits ∧ ∀ hit, hit ∈ hits ↔
      ∃ start ∈ starts, bounded crates input start (start + len) = some true ∧ hit = ⟨start, start + len, kind⟩ := by
  induction starts with
  | nil => exact ⟨[], rfl, by simp⟩
  | cons start starts ih =>
    obtain ⟨hits, hhits, hmem⟩ := ih fun s hs => h s (List.mem_cons_of_mem _ hs)
    obtain ⟨a, m, b, hinput, rfl, rfl⟩ := h start List.mem_cons_self
    simp only [boundedHits, bounded_eq hinput, hhits, Option.bind_eq_bind, Option.bind_some, Option.pure_def]
    refine ⟨_, rfl, fun hit => ?_⟩
    rw [List.exists_mem_cons_iff, bounded_eq hinput, ← hmem hit]
    split
    · rename_i halone
      simp [halone]
    · rename_i halone
      simp [halone]

theorem valueHits_mem (input : List Char) (known : KnownValue) :
    ∃ hits, valueHits crates input known = some hits ∧ ∀ hit, hit ∈ hits ↔ Found crates input known hit := by
  rw [valueHits]
  split
  · rename_i hnil
    refine ⟨[], rfl, fun hit => ⟨nofun, fun ⟨a, m, b, ⟨_, hne, hm, _⟩, _⟩ => ?_⟩⟩
    rw [hnil, List.map_eq_nil_iff] at hm
    exact absurd hm hne
  · rename_i hnil
    have hplace : ∀ start ∈ matchIndices ((trim known.value).map Char.toLower) 0 0 (input.map Char.toLower),
        ∃ a m b, input = a ++ m ++ b ∧ byteLen a = start ∧ m.map Char.toLower = (trim known.value).map Char.toLower := by
      intro start hstart
      obtain ⟨a, b, heq, rfl⟩ := mem_matchIndices hstart
      obtain ⟨am, b', rfl, ham, rfl⟩ := List.map_eq_append_iff.mp heq
      obtain ⟨a', m, rfl, rfl, hm⟩ := List.map_eq_append_iff.mp ham
      exact ⟨a', m, b', rfl, by rw [byteLen_map_toLower, Nat.zero_add], hm⟩
    have hlen : ∀ {m : List Char}, m.map Char.toLower = (trim known.value).map Char.toLower →
        byteLen m = byteLen ((trim known.value).map Char.toLower) := fun hm => by rw [← hm, byteLen_map_toLower]
    obtain ⟨hits, hhits, hmem⟩ := @boundedHits_mem _ crates _ known.kind _ fun start hstart => by
      obtain ⟨a, m, b, hinput, ha, hm⟩ := hplace start hstart
      exact ⟨a, m, b, hinput, ha, hlen hm⟩
    refine ⟨hits, hhits, fun hit => (hmem hit).trans ⟨?_, ?_⟩⟩
    · rintro ⟨start, hstart, halone, rfl⟩
      obtain ⟨a, m, b, hinput, rfl, hm⟩ := hplace start hstart
      rw [← hlen hm] at halone ⊢
      rw [bounded_eq hinput, Option.some.injEq, Bool.and_eq_true] at halone
      refine ⟨a, m, b, ⟨hinput, ?_, hm, halone⟩, hstart, rfl⟩
      rintro rfl
      exact hnil hm.symm
    · rintro ⟨a, m, b, ⟨hinput, -, hm, halone⟩, hstart, rfl⟩
      refine ⟨byteLen a, hstart, ?_, by rw [hlen hm]⟩
      rw [← hlen hm, bounded_eq hinput, halone.1, halone.2]
      rfl

theorem knownValueHits_mem (input : List Char) (known : List KnownValue) :
    ∃ hits, knownValueHits crates input known = some hits ∧ ∀ hit, hit ∈ hits ↔ ∃ k ∈ known, Found crates input k hit := by
  induction known with
  | nil => exact ⟨[], rfl, by simp⟩
  | cons value known ih =>
    obtain ⟨hits, hhits, hmem⟩ := ih
    obtain ⟨mine, hmine, hmemMine⟩ := valueHits_mem input value
    rw [knownValueHits, hmine, hhits]
    exact ⟨mine ++ hits, rfl, fun hit => by rw [List.mem_append, hmem, hmemMine, List.exists_mem_cons_iff]⟩

theorem Found.whole (hs : crates.Sound) {known : KnownValue} (h : Found crates input known hit) : Whole 0 input hit := by
  obtain ⟨a, m, b, ⟨hinput, hne, -, hbefore, hafter⟩, -, rfl⟩ := h
  have hlen : byteLen m ≠ 0 := fun h0 => hne (byteLen_eq_zero h0)
  refine ⟨⟨a, m ++ b, ?_, Nat.zero_add _, .inl (endsDigit_of_notWord hs hbefore)⟩,
    ⟨a ++ m, b, hinput, ?_, .inr (startsDigit_of_notWord hs hafter)⟩, ?_⟩
  · rw [hinput, List.append_assoc]
  · rw [byteLen_append, Nat.zero_add]
  · show byteLen a < byteLen a + byteLen m
    omega

end

/-! ## Merged hits -/

def Ordered : Nat → List Hit → Prop
  | _, [] => True
  | cursor, hit :: hits => cursor ≤ hit.start ∧ hit.start < hit.end_ ∧ Ordered hit.end_ hits

variable {hits : List Hit} {last : Hit}

theorem Ordered.le (h : Ordered cursor hits) : ∀ hit ∈ hits, cursor ≤ hit.start := by
  induction hits generalizing cursor with
  | nil => exact fun hit hhit => absurd hhit List.not_mem_nil
  | cons first hits ih =>
    intro hit hhit
    rcases List.mem_cons.mp hhit with rfl | hhit
    · exact h.1
    · exact (h.1.trans h.2.1.le).trans (ih h.2.2 hit hhit)

theorem Ordered.lt (h : Ordered cursor hits) : ∀ hit ∈ hits, hit.start < hit.end_ := by
  induction hits generalizing cursor with
  | nil => exact fun hit hhit => absurd hhit List.not_mem_nil
  | cons first hits ih =>
    intro hit hhit
    rcases List.mem_cons.mp hhit with rfl | hhit
    · exact h.2.1
    · exact ih h.2.2 hit hhit

theorem mergeFrom_ordered (hcursor : cursor ≤ last.start) (hlast : last.start < last.end_)
    (hits_lt : ∀ hit ∈ hits, hit.start < hit.end_) : Ordered cursor (mergeFrom last hits) := by
  induction hits generalizing cursor last with
  | nil => exact ⟨hcursor, hlast, trivial⟩
  | cons hit hits ih =>
    have hrest : ∀ h ∈ hits, h.start < h.end_ := fun h hh => hits_lt h (List.mem_cons_of_mem _ hh)
    rw [mergeFrom]
    split
    · exact ih hcursor (lt_max_of_lt_left hlast) hrest
    · rename_i hapart
      exact ⟨hcursor, hlast, ih (not_lt.mp hapart) (hits_lt hit List.mem_cons_self) hrest⟩

theorem mergeFrom_ends {m : Hit} (h : m ∈ mergeFrom last hits) :
    (∃ hit ∈ last :: hits, m.start = hit.start) ∧ ∃ hit ∈ last :: hits, m.end_ = hit.end_ := by
  induction hits generalizing last with
  | nil =>
    rw [List.mem_singleton.mp h]
    exact ⟨⟨last, List.mem_cons_self, rfl⟩, ⟨last, List.mem_cons_self, rfl⟩⟩
  | cons hit hits ih =>
    have hwider : ∀ x, x ∈ hit :: hits → x ∈ last :: hit :: hits := fun x hx => List.mem_cons_of_mem _ hx
    rw [mergeFrom] at h
    split at h
    · obtain ⟨⟨x, hx, hstart⟩, ⟨y, hy, hend⟩⟩ := ih h
      constructor
      · rcases List.mem_cons.mp hx with rfl | hx
        · exact ⟨last, List.mem_cons_self, hstart⟩
        · exact ⟨x, hwider x (List.mem_cons_of_mem _ hx), hstart⟩
      · rcases List.mem_cons.mp hy with rfl | hy
        · rcases max_choice last.end_ hit.end_ with hmax | hmax
          · exact ⟨last, List.mem_cons_self, hend.trans hmax⟩
          · exact ⟨hit, hwider hit List.mem_cons_self, hend.trans hmax⟩
        · exact ⟨y, hwider y (List.mem_cons_of_mem _ hy), hend⟩
    · rcases List.mem_cons.mp h with rfl | h
      · exact ⟨⟨m, List.mem_cons_self, rfl⟩, ⟨m, List.mem_cons_self, rfl⟩⟩
      · obtain ⟨⟨x, hx, hstart⟩, ⟨y, hy, hend⟩⟩ := ih h
        exact ⟨⟨x, hwider x hx, hstart⟩, ⟨y, hwider y hy, hend⟩⟩

theorem mergeFrom_covers (hlast : ∀ hit ∈ hits, last.start ≤ hit.start) (hsorted : hits.Pairwise fun a b => a.start ≤ b.start)
    (h : hit ∈ last :: hits) :
    ∃ m ∈ mergeFrom last hits, m.start ≤ hit.start ∧ hit.end_ ≤ m.end_ := by
  induction hits generalizing last hit with
  | nil =>
    rw [List.mem_singleton.mp h]
    exact ⟨last, List.mem_singleton_self _, le_rfl, le_rfl⟩
  | cons next hits ih =>
    obtain ⟨hnext, hrest⟩ := List.pairwise_cons.mp hsorted
    rw [mergeFrom]
    split
    · have hwide : ∀ x, x ∈ hits → ({ last with end_ := max last.end_ next.end_ } : Hit).start ≤ x.start :=
        fun x hx => hlast x (List.mem_cons_of_mem _ hx)
      have hfirst := ih hwide hrest (List.mem_cons_self (a := { last with end_ := max last.end_ next.end_ }))
      obtain ⟨m, hm, hstart, hend⟩ := hfirst
      rcases List.mem_cons.mp h with rfl | h
      · exact ⟨m, hm, hstart, (le_max_left _ _).trans hend⟩
      · rcases List.mem_cons.mp h with rfl | h
        · exact ⟨m, hm, hstart.trans (hlast _ List.mem_cons_self), (le_max_right _ _).trans hend⟩
        · exact ih hwide hrest (List.mem_cons_of_mem _ h)
    · rcases List.mem_cons.mp h with rfl | h
      · exact ⟨hit, List.mem_cons_self, le_rfl, le_rfl⟩
      · obtain ⟨m, hm, hbounds⟩ := ih hnext hrest h
        exact ⟨m, List.mem_cons_of_mem _ hm, hbounds⟩

theorem pairwise_before (hits : List Hit) : (hits.insertionSort Hit.before).Pairwise fun a b => a.start ≤ b.start := by
  have htotal : Std.Total Hit.before := ⟨fun a b => by unfold Hit.before; omega⟩
  have htrans : IsTrans Hit Hit.before := ⟨fun a b c hab hbc => by unfold Hit.before at *; omega⟩
  exact (List.pairwise_insertionSort Hit.before hits).imp fun hab => by unfold Hit.before at hab; omega

theorem mergeFrom_inside (hlast : ∀ hit ∈ hits, last.start ≤ hit.start) (hsorted : hits.Pairwise fun a b => a.start ≤ b.start)
    {m : Hit} (hm : m ∈ mergeFrom last hits) {p : Nat} (hp : m.start ≤ p ∧ p < m.end_) :
    ∃ hit ∈ last :: hits, hit.start ≤ p ∧ p < hit.end_ := by
  induction hits generalizing last with
  | nil => exact ⟨last, List.mem_cons_self, List.mem_singleton.mp hm ▸ hp⟩
  | cons next hits ih =>
    obtain ⟨hnext, hrest⟩ := List.pairwise_cons.mp hsorted
    rw [mergeFrom] at hm
    split at hm
    · rename_i hmeet
      have hwide : ∀ x ∈ hits, ({ last with end_ := max last.end_ next.end_ } : Hit).start ≤ x.start :=
        fun x hx => hlast x (List.mem_cons_of_mem _ hx)
      obtain ⟨hit, hmem, hin⟩ := ih hwide hrest hm
      rcases List.mem_cons.mp hmem with rfl | hmem
      · -- up to where the last one ended, or after where the next one starts
        by_cases hlate : p < last.end_
        · exact ⟨last, List.mem_cons_self, hin.1, hlate⟩
        · exact ⟨next, by simp, by omega, (lt_max_iff.mp hin.2).resolve_left hlate⟩
      · exact ⟨hit, by simp [hmem], hin⟩
    · rcases List.mem_cons.mp hm with rfl | hm
      · exact ⟨m, List.mem_cons_self, hp⟩
      · obtain ⟨hit, hmem, hin⟩ := ih hnext hrest hm
        exact ⟨hit, List.mem_cons_of_mem _ hmem, hin⟩

theorem merge_spec {P : Nat → Prop} (h : ∀ hit ∈ hits, P hit.start ∧ P hit.end_ ∧ hit.start < hit.end_) :
    Ordered 0 (merge hits) ∧ (∀ m ∈ merge hits, P m.start ∧ P m.end_ ∧ m.start < m.end_) ∧
      (∀ hit ∈ hits, ∃ m ∈ merge hits, m.start ≤ hit.start ∧ hit.end_ ≤ m.end_) ∧
      ∀ m ∈ merge hits, ∀ p, m.start ≤ p ∧ p < m.end_ → ∃ hit ∈ hits, hit.start ≤ p ∧ p < hit.end_ := by
  have hmem : ∀ hit, hit ∈ hits.insertionSort Hit.before ↔ hit ∈ hits := fun hit => List.mem_insertionSort _
  have hsorted := pairwise_before hits
  rw [merge]
  cases hsort : hits.insertionSort Hit.before with
  | nil =>
    rw [hsort] at hmem
    exact ⟨trivial, nofun, fun hit hhit => absurd ((hmem hit).mpr hhit) List.not_mem_nil, nofun⟩
  | cons first rest =>
    rw [hsort] at hmem hsorted
    have hends : ∀ hit ∈ first :: rest, P hit.start ∧ P hit.end_ ∧ hit.start < hit.end_ := fun hit hhit => h hit ((hmem hit).mp hhit)
    obtain ⟨hfirst, hrest⟩ := List.pairwise_cons.mp hsorted
    have hordered : Ordered 0 (mergeFrom first rest) := mergeFrom_ordered (Nat.zero_le _)
      (hends first List.mem_cons_self).2.2 fun hit hhit => (hends hit (List.mem_cons_of_mem _ hhit)).2.2
    refine ⟨hordered, fun m hm => ?_, fun hit hhit => mergeFrom_covers hfirst hrest ((hmem hit).mpr hhit), fun m hm p hp => ?_⟩
    · obtain ⟨⟨x, hx, hstart⟩, ⟨y, hy, hend⟩⟩ := mergeFrom_ends hm
      exact ⟨hstart ▸ (hends x hx).1, hend ▸ (hends y hy).2.1, Ordered.lt hordered m hm⟩
    · obtain ⟨hit, hhit, hin⟩ := mergeFrom_inside hfirst hrest hm hp
      exact ⟨hit, (hmem hit).mp hhit, hin⟩

/-! ## What a redacted text names -/

def runsOf (text : List Char) : List (List Char) := (digitRuns 0 text).map Prod.snd

theorem cidTokens_eq (text : List Char) : cidTokens text = (runsOf text).filterMap parseU64 := by
  rw [cidTokens, runsOf, List.filterMap_map]
  rfl

theorem map_snd_digitRuns (offset : Nat) (text : List Char) : (digitRuns offset text).map Prod.snd = runsOf text := by
  have h := digitRuns_shift offset 0 text
  rw [Nat.zero_add] at h
  rw [h, List.map_map]
  rfl

theorem runsOf_append (h : endsDigit a = false ∨ startsDigit b = false) :
    runsOf (a ++ b) = runsOf a ++ runsOf b := by
  rw [runsOf, digitRuns_append h, List.map_append, map_snd_digitRuns, map_snd_digitRuns]

theorem CutAt.drop {position : Nat} (h : CutAt offset (a ++ b) position)
    (hle : offset + byteLen a ≤ position) : CutAt (offset + byteLen a) b position := by
  obtain ⟨x, y, htext, rfl, happart⟩ := h
  rcases List.append_eq_append_iff.mp htext with ⟨z, rfl, rfl⟩ | ⟨z, rfl, rfl⟩
  · refine ⟨z, y, rfl, by rw [byteLen_append]; omega, happart.imp_left fun hends => ?_⟩
    cases z with
    | nil => rfl
    | cons c z => rwa [endsDigit_append (List.cons_ne_nil _ _)] at hends
  · have hz : z = [] := byteLen_eq_zero (by rw [byteLen_append] at hle; omega)
    subst hz
    exact ⟨[], b, rfl, by rw [List.append_nil, byteLen_nil, Nat.add_zero], .inl rfl⟩

section
variable (crates : Crates)

theorem placeholder_ends (kind : RedactionKind) (value : List Char) (salt : Salt) :
    startsDigit (placeholder crates kind value salt) = false ∧ endsDigit (placeholder crates kind value salt) = false := by
  rw [placeholder]
  constructor
  · rfl
  · rw [endsDigit_append (List.cons_ne_nil _ _)]
    rfl

theorem rewrite_cons (salt : Salt) {rest : List Char} (hits : List Hit) (hcursor : cursor ≤ hit.start)
    (hlt : hit.start < hit.end_) {a b a' b' : List Char} (hab : rest = a ++ b) (hstart : cursor + byteLen a = hit.start)
    (hab' : rest = a' ++ b') (hend : cursor + byteLen a' = hit.end_) :
    ∃ value, a' = a ++ value ∧ b = value ++ b' ∧ cursor + byteLen a + byteLen value = hit.end_ ∧
      rewrite crates salt cursor rest (hit :: hits) =
        (rewrite crates salt hit.end_ b' hits).map (a ++ placeholder crates hit.kind value salt ++ ·) := by
  obtain ⟨value, rfl, rfl⟩ : ∃ value, a' = a ++ value ∧ b = value ++ b' := by
    rcases List.append_eq_append_iff.mp (hab.symm.trans hab') with ⟨z, ha', hb⟩ | ⟨z, ha, hb⟩
    · exact ⟨z, ha', hb⟩
    · have := congrArg byteLen ha
      rw [byteLen_append] at this
      omega
  have hlen : cursor + byteLen a + byteLen value = hit.end_ := by
    rw [← hend, byteLen_append]
    omega
  have hsplit : splitBytes (hit.start - cursor) rest = some (a, value ++ b') := by
    rw [hab, show hit.start - cursor = byteLen a by omega, splitBytes_append]
  have hsplit' : splitBytes (hit.end_ - hit.start) (value ++ b') = some (value, b') := by
    rw [show hit.end_ - hit.start = byteLen value by omega, splitBytes_append]
  refine ⟨value, rfl, rfl, hlen, ?_⟩
  rw [rewrite, if_neg (by omega), hsplit, Option.bind_eq_bind, Option.bind_some]
  simp only [hsplit', Option.bind_eq_bind, Option.bind_some, Option.pure_def]
  cases rewrite crates salt hit.end_ b' hits <;> rfl

theorem rewrite_runs (salt : Salt) {rest : List Char} (hordered : Ordered cursor hits)
    (hwhole : ∀ hit ∈ hits, Whole cursor rest hit) :
    ∃ out, rewrite crates salt cursor rest hits = some out ∧ ∀ run ∈ runsOf out,
      (∃ kind value, run ∈ runsOf (placeholder crates kind value salt)) ∨
      ∃ p, (p, run) ∈ digitRuns cursor rest ∧ ∀ hit ∈ hits, p + byteLen run ≤ hit.start ∨ hit.end_ ≤ p := by
  induction hits generalizing cursor rest with
  | nil =>
    refine ⟨rest, rfl, fun run hrun => .inr ?_⟩
    rw [← map_snd_digitRuns cursor] at hrun
    obtain ⟨⟨p, run'⟩, hmem, rfl⟩ := List.mem_map.mp hrun
    exact ⟨p, hmem, fun hit hhit => absurd hhit List.not_mem_nil⟩
  | cons hit hits ih =>
    obtain ⟨hcursor, hlt, hlater⟩ := hordered
    obtain ⟨⟨a, b, hab, hstart, happart⟩, ⟨a', b', hab', hend, happart'⟩, -⟩ := hwhole hit List.mem_cons_self
    obtain ⟨value, rfl, rfl, hlen, hrewrite⟩ := rewrite_cons crates salt hits hcursor hlt hab hstart hab' hend
    have hrest : ∀ h ∈ hits, Whole hit.end_ b' h := by
      intro h hh
      have hle := hlater.le h hh
      obtain ⟨hs, he, hlt'⟩ := hwhole h (List.mem_cons_of_mem _ hh)
      rw [hab'] at hs he
      rw [← hend]
      exact ⟨hs.drop (by omega), he.drop (by omega), hlt'⟩
    obtain ⟨out, hout, hruns⟩ := ih hlater hrest
    refine ⟨a ++ placeholder crates hit.kind value salt ++ out, by rw [hrewrite, hout]; rfl, fun run hrun => ?_⟩
    · obtain ⟨hstarts, hends⟩ := placeholder_ends crates hit.kind value salt
      rw [List.append_assoc, runsOf_append, runsOf_append (.inl hends), List.mem_append, List.mem_append] at hrun
      · rcases hrun with hrun | hrun | hrun
        · -- before the range
          rw [← map_snd_digitRuns cursor] at hrun
          obtain ⟨⟨p, run'⟩, hmem, rfl⟩ := List.mem_map.mp hrun
          obtain ⟨x, y, hxy, hp, -⟩ := mem_digitRuns hmem
          have hbefore : p + byteLen run' ≤ hit.start := by
            have := congrArg byteLen hxy
            rw [byteLen_append, byteLen_append] at this
            omega
          refine .inr ⟨p, ?_, fun h hh => .inl ?_⟩
          · rw [hab, digitRuns_append happart]
            exact List.mem_append_left _ hmem
          · rcases List.mem_cons.mp hh with rfl | hh
            · exact hbefore
            · have := hlater.le h hh
              show p + byteLen run' ≤ h.start
              omega
        · exact .inl ⟨hit.kind, value, hrun⟩
        · rcases hruns run hrun with hph | ⟨p, hmem, hapart⟩
          · exact .inl hph
          · refine .inr ⟨p, ?_, fun h hh => ?_⟩
            · rw [hab', digitRuns_append happart', hend]
              exact List.mem_append_right _ hmem
            · rcases List.mem_cons.mp hh with rfl | hh
              · exact .inr (le_of_mem_digitRuns hmem).1
              · exact hapart h hh
      · refine .inr ?_
        obtain ⟨c, ph, hph⟩ := List.exists_cons_of_ne_nil (l := placeholder crates hit.kind value salt) (by simp [placeholder])
        rw [hph] at hstarts ⊢
        exact hstarts

variable {crates} in
/-- There is a redacted text, and a run of digits in it is in a placeholder, or a run of the input that names none of the other
sessions. -/
theorem redact_runs (hs : crates.Sound) (input : List Char) (known : List KnownValue) (others : List Cid) (salt : Salt) :
    ∃ out, redactWithSessions crates input known others salt = some out ∧ ∀ run ∈ runsOf out,
      (∃ kind value, run ∈ runsOf (placeholder crates kind value salt)) ∨
      run ∈ runsOf input ∧ ∀ cid ∈ others, parseU64 run ≠ some cid := by
  obtain ⟨hits, hhits, hmem⟩ := @knownValueHits_mem crates input known
  have hall : ∀ hit ∈ hits ++ crates.patternHits input ++ sessionCidHits input others, Whole 0 input hit := by
    intro hit hhit
    rcases List.mem_append.mp hhit with hhit | hhit
    · rcases List.mem_append.mp hhit with hhit | hhit
      · obtain ⟨k, -, hfound⟩ := (hmem hit).mp hhit
        exact hfound.whole hs
      · exact hs.whole input hit hhit
    · exact whole_session hhit
  obtain ⟨hordered, hmerged, hcovers, -⟩ := merge_spec fun hit hhit => ⟨(hall hit hhit).start, (hall hit hhit).end_, (hall hit hhit).lt⟩
  obtain ⟨out, hout, hruns⟩ := rewrite_runs crates salt hordered fun hit hhit =>
    ⟨(hmerged hit hhit).1, (hmerged hit hhit).2.1, (hmerged hit hhit).2.2⟩
  refine ⟨out, by rw [redactWithSessions, hhits]; exact hout, fun run hrun => (hruns run hrun).imp_right ?_⟩
  rintro ⟨p, hmem, hapart⟩
  refine ⟨List.mem_map.mpr ⟨(p, run), hmem, rfl⟩, fun cid hcid hparse => ?_⟩
  have hhit : ⟨p, p + byteLen run, .session⟩ ∈ sessionCidHits input others := by
    refine List.mem_filterMap.mpr ⟨(p, run), hmem, ?_⟩
    simp [hparse, hcid]
  obtain ⟨m, hm, hstart, hend⟩ := hcovers _ (List.mem_append_right _ hhit)
  have hpos : 0 < byteLen run := by
    obtain ⟨_, _, _, _, hnil, _⟩ := mem_digitRuns hmem
    exact Nat.pos_of_ne_zero fun h0 => hnil (byteLen_eq_zero h0)
  simp only at hstart hend
  rcases hapart m hm with h | h
  · omega
  · omega

end

end CitadelAgent.Telemetry
