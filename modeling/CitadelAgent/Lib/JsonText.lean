import Mathlib

/-!
# JSON text of objects with whole numbers

The compact text of an object whose values are natural numbers, as a JSON library writes it, and its reader. Only
what the writer produces is read: no white space, no escape it does not use.

* `escape`, `writeString`, `readString` : strings, with quotes, backslashes and control characters escaped;
* `readObject_writeObject` : what is written is read back.
-/

namespace JsonText

def shortEscapes : List (Char × Char) :=
  [('"', '"'), ('\\', '\\'), ('b', '\x08'), ('f', '\x0c'), ('n', '\n'), ('r', '\r'), ('t', '\t')]

def escape (c : Char) : List Char :=
  match shortEscapes.find? fun e => e.2 == c with
  | some e => ['\\', e.1]
  | none => if c < ' ' then ['\\', 'u', '0', '0', (c.toNat / 16).digitChar, (c.toNat % 16).digitChar] else [c]

def hexValue (c : Char) : Option Nat :=
  if '0' ≤ c ∧ c ≤ '9' then some (c.toNat - '0'.toNat)
  else if 'a' ≤ c ∧ c ≤ 'f' then some (c.toNat - 'a'.toNat + 10)
  else none

def readChar : List Char → Option (Char × List Char)
  | '\\' :: 'u' :: '0' :: '0' :: high :: low :: rest => do
    let high ← hexValue high
    let low ← hexValue low
    return (Char.ofNat (high * 16 + low), rest)
  | '\\' :: c :: rest => (shortEscapes.find? fun e => e.1 == c).map fun e => (e.2, rest)
  | c :: rest => if c < ' ' ∨ c = '\\' then none else some (c, rest)
  | [] => none

/-- The rest of a string, up to its closing quote; `fuel` bounds its characters. -/
def readString : Nat → List Char → Option (List Char × List Char)
  | 0, _ => none
  | _ + 1, '"' :: rest => some ([], rest)
  | fuel + 1, text => do
    let (c, rest) ← readChar text
    let (tail, rest) ← readString fuel rest
    return (c :: tail, rest)

def writeString (text : List Char) : List Char := '"' :: (text.flatMap escape ++ ['"'])

def writeEntry (e : List Char × Nat) : List Char := writeString e.1 ++ ':' :: Nat.toDigits 10 e.2

def writeEntries : List (List Char × Nat) → List Char
  | [] => []
  | [e] => writeEntry e
  | e :: entries => writeEntry e ++ ',' :: writeEntries entries

def writeObject (entries : List (List Char × Nat)) : List Char := '{' :: (writeEntries entries ++ ['}'])

def readNumber (text : List Char) : Option (Nat × List Char) :=
  match text.takeWhile Char.isDigit with
  | [] => none
  | digits => some (Nat.ofDigitChars 10 digits 0, text.dropWhile Char.isDigit)

def readEntry (fuel : Nat) : List Char → Option ((List Char × Nat) × List Char)
  | '"' :: text => do
    let (key, rest) ← readString fuel text
    match rest with
    | ':' :: rest => do
      let (n, rest) ← readNumber rest
      return ((key, n), rest)
    | _ => none
  | _ => none

def readEntries : Nat → List Char → Option (List (List Char × Nat))
  | 0, _ => none
  | fuel + 1, text => do
    let (e, rest) ← readEntry fuel text
    match rest with
    | ',' :: rest => do
      let entries ← readEntries fuel rest
      return e :: entries
    | ['}'] => return [e]
    | _ => none

def readObject : List Char → Option (List (List Char × Nat))
  | ['{', '}'] => some []
  | '{' :: rest => readEntries rest.length rest
  | _ => none

/-! ## Reading back -/

theorem readChar_control {n : Nat} (h : n < 32) (rest : List Char) :
    readChar (escape (Char.ofNat n) ++ rest) = some (Char.ofNat n, rest) := by
  interval_cases n <;> rfl

variable {c : Char} {fuel : Nat}

theorem readChar_plain (hc : ¬ c < ' ') (hb : c ≠ '\\') (rest : List Char) :
    readChar (c :: rest) = some (c, rest) := by
  unfold readChar
  split
  · rename_i h
    exact absurd (List.cons.inj h).1 hb
  · rename_i h
    exact absurd (List.cons.inj h).1 hb
  · rename_i d rest' h
    obtain ⟨rfl, rfl⟩ := List.cons.inj h
    rw [if_neg (by simp [hc, hb])]
  · rename_i h
    cases h

theorem escape_plain (hc : ¬ c < ' ') (hq : c ≠ '"') (hb : c ≠ '\\') : escape c = [c] := by
  have hshort : shortEscapes.find? (fun e => e.2 == c) = none := by
    rw [List.find?_eq_none]
    intro e he heq
    obtain rfl := eq_of_beq heq
    simp only [shortEscapes, List.mem_cons, List.not_mem_nil, or_false] at he
    rcases he with rfl | rfl | rfl | rfl | rfl | rfl | rfl
    · exact hq rfl
    · exact hb rfl
    all_goals exact hc (by decide)
  rw [escape, hshort]
  exact if_neg hc

theorem readChar_escape (c : Char) (rest : List Char) : readChar (escape c ++ rest) = some (c, rest) := by
  by_cases hc : c < ' '
  · have hn : c.toNat < 32 := hc
    have hread := readChar_control hn rest
    rwa [Char.ofNat_toNat] at hread
  by_cases hq : c = '"'
  · subst hq
    rfl
  by_cases hb : c = '\\'
  · subst hb
    rfl
  rw [escape_plain hc hq hb]
  exact readChar_plain hc hb rest

theorem escape_ne_quote (c : Char) (rest tail : List Char) : escape c ++ rest ≠ '"' :: tail := by
  unfold escape
  split
  · exact fun h => by cases h
  rename_i hshort
  split
  · exact fun h => by cases h
  · intro h
    obtain rfl := (List.cons.inj h).1
    cases hshort

theorem readString_writeString (text rest : List Char) (h : text.length < fuel) :
    readString fuel (text.flatMap escape ++ '"' :: rest) = some (text, rest) := by
  induction text generalizing fuel with
  | nil =>
    obtain ⟨fuel, rfl⟩ := Nat.exists_eq_add_of_lt h
    simp [readString]
  | cons c text ih =>
    cases fuel with
    | zero => cases h
    | succ fuel =>
      rw [List.flatMap_cons, List.append_assoc]
      have hne := escape_ne_quote c (text.flatMap escape ++ '"' :: rest)
      have hread := readChar_escape c (text.flatMap escape ++ '"' :: rest)
      generalize escape c ++ (text.flatMap escape ++ '"' :: rest) = whole at hne hread
      rw [readString.eq_3 _ _ hne, hread]
      simp [ih (by simpa using h)]

theorem readNumber_toDigits (n : Nat) (hc : c.isDigit = false) (rest : List Char) :
    readNumber (Nat.toDigits 10 n ++ c :: rest) = some (n, c :: rest) := by
  have hdigits : ∀ d ∈ Nat.toDigits 10 n, d.isDigit = true :=
    fun d hd => Nat.isDigit_of_mem_toDigits (by decide : 0 < 10) (by decide : 10 ≤ 10) hd
  have htake : (Nat.toDigits 10 n ++ c :: rest).takeWhile Char.isDigit = Nat.toDigits 10 n := by
    rw [List.takeWhile_append_of_pos hdigits]
    simp [hc]
  have hdrop : (Nat.toDigits 10 n ++ c :: rest).dropWhile Char.isDigit = c :: rest := by
    rw [List.dropWhile_append_of_pos hdigits]
    simp [hc]
  unfold readNumber
  rw [htake, hdrop]
  split
  · rename_i hnil
    exact absurd hnil Nat.toDigits_ne_nil
  · rw [Nat.ofDigitChars_ten_toDigits]

theorem readEntry_writeEntry (e : List Char × Nat) (h : e.1.length < fuel) (hc : c.isDigit = false) (rest : List Char) :
    readEntry fuel (writeEntry e ++ c :: rest) = some (e, c :: rest) := by
  have htext : writeEntry e ++ c :: rest =
      '"' :: (e.1.flatMap escape ++ '"' :: ':' :: (Nat.toDigits 10 e.2 ++ c :: rest)) := by
    simp [writeEntry, writeString]
  rw [htext, readEntry, readString_writeString _ _ h]
  simp only [Option.bind_eq_bind, Option.bind_some, readNumber_toDigits e.2 hc rest]
  rfl

theorem length_le_writeEntry (e : List Char × Nat) : e.1.length + 3 ≤ (writeEntry e).length := by
  have hone : ∀ c, 1 ≤ (escape c).length := by
    intro c
    unfold escape
    split
    · simp
    · split <;> simp
  have hchars : ∀ text : List Char, text.length ≤ (text.flatMap escape).length := by
    intro text
    induction text with
    | nil => simp
    | cons c text ih =>
      have hc := hone c
      simp only [List.length_cons, List.flatMap_cons, List.length_append]
      omega
  have h := hchars e.1
  simp only [writeEntry, writeString, List.length_append, List.length_cons, List.length_nil]
  omega

theorem readEntries_writeEntries {entries : List (List Char × Nat)} (hne : entries ≠ [])
    (h : (writeEntries entries).length ≤ fuel) : readEntries fuel (writeEntries entries ++ ['}']) = some entries := by
  induction entries generalizing fuel with
  | nil => exact absurd rfl hne
  | cons e entries ih =>
    have hlen := length_le_writeEntry e
    cases entries with
    | nil =>
      cases fuel with
      | zero => simp only [writeEntries] at h; omega
      | succ fuel =>
        simp only [writeEntries] at h ⊢
        rw [readEntries, readEntry_writeEntry e (by omega) (by decide)]
        rfl
    | cons next entries =>
      have htext : writeEntries (e :: next :: entries) = writeEntry e ++ ',' :: writeEntries (next :: entries) := rfl
      rw [htext, List.length_append, List.length_cons] at h
      cases fuel with
      | zero => omega
      | succ fuel =>
        rw [htext, List.append_assoc, List.cons_append, readEntries, readEntry_writeEntry e (by omega) (by decide)]
        simp only [Option.bind_eq_bind, Option.bind_some, ih (by simp) (by omega : _ ≤ fuel)]
        rfl

theorem readObject_writeObject (entries : List (List Char × Nat)) : readObject (writeObject entries) = some entries := by
  cases entries with
  | nil => rfl
  | cons e entries =>
    have hread : readEntries _ (writeEntries (e :: entries) ++ ['}']) = some (e :: entries) :=
      readEntries_writeEntries (by simp) (Nat.le_succ _)
    have hquote : ∃ tail, writeEntries (e :: entries) = '"' :: tail := by
      cases entries with
      | nil => exact ⟨_, rfl⟩
      | cons next entries => exact ⟨_, rfl⟩
    obtain ⟨tail, htail⟩ := hquote
    rw [htail] at hread
    rw [writeObject, htail, List.cons_append, readObject]
    · simpa using hread
    · exact fun h => by cases h

end JsonText
