import CitadelAgent.Telemetry.Bounds

/-!
# The name of an uploaded file

`citadel-internal-service/src/kernel/requests/file/upload.rs`: a client's file name is cut down to one path component.

* `sanitizeFileName` : the steps, each taken once;
* `sanitizeFileName_eq_self` : a safe name is left as it is;
* `safe_iff_splits` : on which names the one pass is enough.
-/

namespace CitadelAgent.Transfers.FileName
open List (rdropWhile rtakeWhile)
open Telemetry (truncateAtChar truncateAtChar_eq truncateAtChar_initial byteLen_truncate byteLen_nil byteLen_cons)
open Updater (byteLen isSpace trim trimEnd)

/-- `char::is_control` -/
def isControl (c : Char) : Bool := c.toNat < 0x20 || (0x7F ≤ c.toNat && c.toNat ≤ 0x9F)

def isDeceptiveFormatChar (c : Char) : Bool :=
  let n := c.toNat
  (0x202A ≤ n && n ≤ 0x202E) || (0x2066 ≤ n && n ≤ 0x2069) || n = 0x200E || n = 0x200F || n = 0x061C ||
    (0x200B ≤ n && n ≤ 0x200D) || n = 0x2060 || n = 0xFEFF

def isForbidden (c : Char) : Bool := "<>:\"/\\|?*".toList.contains c

def isKept (c : Char) : Bool := !isControl c && !isDeceptiveFormatChar c && !isForbidden c

def WINDOWS_RESERVED_NAMES : List String :=
  ["CON", "PRN", "AUX", "NUL", "COM1", "COM2", "COM3", "COM4", "COM5", "COM6", "COM7", "COM8", "COM9", "LPT1", "LPT2",
    "LPT3", "LPT4", "LPT5", "LPT6", "LPT7", "LPT8", "LPT9"]

def isReserved (name : List Char) : Bool :=
  WINDOWS_RESERVED_NAMES.any fun reserved =>
    reserved.toList.map Char.toLower = (name.takeWhile (· ≠ '.')).map Char.toLower

def isSeparator (c : Char) : Bool := c = '/' || c = '\\'

def MAX_FILE_NAME_BYTES : Nat := 255

def base (raw : List Char) : List Char := (raw.rdropWhile isSeparator).rtakeWhile fun c => !isSeparator c

def cleaned (raw : List Char) : List Char := (base raw).filter isKept

/-- `trim_end`, dots, and `trim_end` once more. -/
def trimTail (text : List Char) : List Char := trimEnd ((trimEnd text).rdropWhile (· = '.'))

def trimmed (raw : List Char) : List Char := trimTail ((cleaned raw).dropWhile isSpace)

def bounded (raw : List Char) : List Char := truncateAtChar MAX_FILE_NAME_BYTES (trimmed raw)

def sanitizeFileName (raw : List Char) : List Char :=
  if trimmed raw = [] then "upload".toList
  else if isReserved (bounded raw) then '_' :: bounded raw
  else bounded raw

/-- A file name for every platform: a component that no path resolves elsewhere and no system refuses. -/
structure Safe (name : List Char) : Prop where
  nonempty : name ≠ []
  fits : byteLen name ≤ MAX_FILE_NAME_BYTES
  notDots : name ≠ ['.'] ∧ name ≠ ['.', '.']
  kept : ∀ c ∈ name, isKept c = true
  head : ∀ c ∈ name.head?, isSpace c = false
  last : ∀ c ∈ name.getLast?, isSpace c = false ∧ c ≠ '.'
  stem : isReserved name = false

/-- The kept characters of the last component are leading whitespace, a name that ends well and fits, with an underscore
where it is reserved, and a rest that trimming takes whole or whose first character fits no more. -/
def Splits (raw : List Char) : Prop := ∃ lead name rest, cleaned raw = lead ++ (name ++ rest) ∧
  (∀ c ∈ lead, isSpace c = true) ∧ (∀ c ∈ (name ++ rest).head?, isSpace c = false) ∧
  (∀ c ∈ name.getLast?, isSpace c = false ∧ c ≠ '.') ∧
  byteLen name + (if isReserved name then 1 else 0) ≤ MAX_FILE_NAME_BYTES ∧
  (trimTail rest = [] ∨ ∃ c ∈ rest.head?, MAX_FILE_NAME_BYTES < byteLen name + c.utf8Size)

/-! ## What trimming and cutting leave -/

section
variable {p : Char → Bool} {name rest text : List Char} {max : Nat}

theorem rdropWhile_append (h : ∀ c ∈ name.getLast?, p c = false) :
    (name ++ rest).rdropWhile p = name ++ rest.rdropWhile p := by
  rw [rdropWhile, List.reverse_append, List.dropWhile_append]
  have hname : name.reverse.dropWhile p = name.reverse := by
    cases hrev : name.reverse with
    | nil => rfl
    | cons c tail =>
      have hc : p c = false := h c (by rw [← List.head?_reverse, hrev]; rfl)
      rw [List.dropWhile_cons, if_neg (by simp [hc])]
  split <;> rename_i hall
  · rw [hname, List.reverse_reverse, rdropWhile, List.isEmpty_iff.mp hall, List.reverse_nil, List.append_nil]
  · rw [List.reverse_append, List.reverse_reverse, rdropWhile]

theorem trimTail_append (h : ∀ c ∈ name.getLast?, isSpace c = false ∧ c ≠ '.') :
    trimTail (name ++ rest) = name ++ trimTail rest := by
  have hspace : ∀ c ∈ name.getLast?, isSpace c = false := fun c hc => (h c hc).1
  simp only [trimTail, show trimEnd = rdropWhile isSpace from rfl]
  rw [rdropWhile_append hspace, rdropWhile_append fun c hc => by simpa using (h c hc).2, rdropWhile_append hspace]

theorem trimTail_eq_self (h : ∀ c ∈ name.getLast?, isSpace c = false ∧ c ≠ '.') : trimTail name = name := by
  simpa [trimTail, trimEnd] using @trimTail_append _ [] h

theorem trimTail_prefix (text : List Char) : trimTail text <+: text :=
  ((List.rdropWhile_prefix isSpace _).trans (List.rdropWhile_prefix _ _)).trans (List.rdropWhile_prefix isSpace _)

theorem dropWhile_append (hspace : ∀ c ∈ name, p c = true) (h : ∀ c ∈ text.head?, p c = false) :
    (name ++ text).dropWhile p = text := by
  rw [List.dropWhile_append_of_pos hspace]
  cases text with
  | nil => rfl
  | cons c text => rw [List.dropWhile_cons, if_neg (by simp [h c rfl])]

theorem truncateAtChar_rest (max : Nat) (text : List Char) : ∃ rest, text = truncateAtChar max text ++ rest ∧
    ∀ c ∈ rest.head?, max < byteLen (truncateAtChar max text) + c.utf8Size := by
  induction text generalizing max with
  | nil => exact ⟨[], by cases max <;> rfl, fun c hc => nomatch hc⟩
  | cons c text ih =>
    rw [truncateAtChar]
    split_ifs with hfits
    · obtain ⟨rest, htext, hrest⟩ := ih (max - c.utf8Size)
      refine ⟨rest, by rw [List.cons_append, ← htext], fun d hd => ?_⟩
      have := hrest d hd
      rw [byteLen_cons]
      omega
    · refine ⟨c :: text, rfl, fun d hd => ?_⟩
      obtain rfl : c = d := by simpa using hd
      exact Nat.lt_add_left _ (Nat.lt_of_not_le hfits)

theorem truncateAtChar_append (hname : byteLen name ≤ max) (h : ∀ c ∈ rest.head?, max < byteLen name + c.utf8Size) :
    truncateAtChar max (name ++ rest) = name := by
  induction name generalizing max with
  | nil =>
    cases rest with
    | nil => cases max <;> rfl
    | cons c rest => rw [List.nil_append, truncateAtChar, if_neg (by have := h c rfl; rw [byteLen_nil] at this; omega)]
  | cons d name ih =>
    rw [byteLen_cons] at hname h
    rw [List.cons_append, truncateAtChar, if_pos (by omega), ih (by omega) fun c hc => by have := h c hc; omega]

end

/-! ## One pass, and the next -/

variable {raw name : List Char}

theorem sanitizeFileName_eq_self (h : Safe name) : sanitizeFileName name = name := by
  have hsep : ∀ c ∈ name, isSeparator c = false := by
    intro c hc
    have hkept := h.kept c hc
    rw [Bool.eq_false_iff]
    intro hsep
    rcases (by simpa [isSeparator] using hsep : c = '/' ∨ c = '\\') with rfl | rfl <;> exact absurd hkept (by decide)
  have hbase : base name = name := by
    have hdrop : name.rdropWhile isSeparator = name := by
      simpa using @rdropWhile_append _ _ [] fun c hc => hsep c (List.mem_of_getLast? hc)
    rw [base, hdrop, List.rtakeWhile_eq_self_iff]
    exact fun c hc => by simp [hsep c hc]
  have hclean : cleaned name = name := by
    rw [cleaned, hbase, List.filter_eq_self]
    exact h.kept
  have htrim : name.dropWhile isSpace = name := @dropWhile_append _ [] _ nofun h.head
  rw [sanitizeFileName, bounded, trimmed, hclean, htrim, trimTail_eq_self h.last, if_neg h.nonempty,
    truncateAtChar_eq h.fits, h.stem]
  rfl

theorem bounded_eq_nil (raw : List Char) : bounded raw = [] ↔ trimmed raw = [] := by
  refine ⟨fun h => ?_, fun h => by rw [bounded, h]; rfl⟩
  obtain ⟨rest, htrim, hcut⟩ := truncateAtChar_rest MAX_FILE_NAME_BYTES (trimmed raw)
  rw [show truncateAtChar _ _ = [] from h] at htrim hcut
  cases rest with
  | nil => exact htrim
  | cons c rest =>
    have hlong := hcut c rfl
    have hsize := c.utf8Size_le_four
    simp only [byteLen_nil, MAX_FILE_NAME_BYTES] at hlong
    omega

def mark (name : List Char) : List Char := if isReserved name then ['_'] else []

theorem sanitizeFileName_eq (h : bounded raw ≠ []) : sanitizeFileName raw = mark (bounded raw) ++ bounded raw := by
  rw [sanitizeFileName, if_neg fun htrim => h ((bounded_eq_nil raw).mpr htrim)]
  generalize bounded raw = name
  rw [mark]
  split <;> rfl

theorem byteLen_mark (name : List Char) : byteLen (mark name ++ name) = byteLen name + if isReserved name then 1 else 0 := by
  rw [mark]
  split
  · exact Nat.add_comm 1 _
  · rfl

theorem isReserved_mark (name : List Char) : isReserved ('_' :: name) = false := by
  have hheads : ∀ reserved ∈ WINDOWS_RESERVED_NAMES, (reserved.toList.map Char.toLower).head? ≠ some '_' := by decide
  refine List.any_eq_false.mpr fun reserved hmem hsame => hheads reserved hmem ?_
  rw [of_decide_eq_true hsame]
  rfl

theorem safe_of_splits (h : Splits raw) : Safe (sanitizeFileName raw) := by
  obtain ⟨lead, name, rest, hclean, hlead, hhead, hlast, hfits, hrest⟩ := h
  have htrim : trimmed raw = name ++ trimTail rest := by
    rw [trimmed, hclean, dropWhile_append hlead hhead, trimTail_append hlast]
  have hbounded : bounded raw = name := by
    rw [bounded, htrim]
    refine truncateAtChar_append (by omega) fun c hc => ?_
    obtain ⟨more, hmore⟩ := trimTail_prefix rest
    rcases hrest with hnone | ⟨d, hd, hlong⟩
    · rw [hnone] at hc
      exact nomatch hc
    · rw [← hmore, List.head?_append, Option.mem_def.mp hc] at hd
      exact Option.some.inj hd ▸ hlong
  by_cases hname : name = []
  · have hupload : sanitizeFileName raw = "upload".toList := if_pos ((bounded_eq_nil raw).mp (hbounded.trans hname))
    rw [hupload]
    exact ⟨by decide, by decide, by decide, List.all_eq_true.mp (by decide), fun c hc => by cases hc; decide,
      fun c hc => by cases hc; decide, by decide⟩
  rw [sanitizeFileName_eq (hbounded ▸ hname), hbounded]
  have hends : ∀ c ∈ (mark name ++ name).getLast?, isSpace c = false ∧ c ≠ '.' := by
    rw [List.getLast?_append_of_ne_nil _ hname]
    exact hlast
  have hkept : ∀ c ∈ name, isKept c = true := fun c hc =>
    List.of_mem_filter (show c ∈ cleaned raw by rw [hclean]; simp [hc])
  refine ⟨by simp [hname], (byteLen_mark name).trans_le hfits, ⟨fun h => ?_, fun h => ?_⟩, fun c hc => ?_, fun c hc => ?_, hends,
    ?_⟩
  iterate 2 exact (hends '.' (by rw [h]; rfl)).2 rfl
  · rcases List.mem_append.mp hc with hc | hc
    · unfold mark at hc
      split at hc
      · obtain rfl := List.mem_singleton.mp hc
        decide
      · exact nomatch hc
    · exact hkept c hc
  · unfold mark at hc
    split at hc
    · cases hc
      decide
    · exact hhead c (by rw [List.head?_append_of_ne_nil _ hname]; exact hc)
  · unfold mark
    split_ifs with hres
    · exact isReserved_mark name
    · simpa using hres

theorem splits_of_safe (h : Safe (sanitizeFileName raw)) : Splits raw := by
  obtain ⟨rest, htrim, hcut⟩ := truncateAtChar_rest MAX_FILE_NAME_BYTES (trimmed raw)
  obtain ⟨tail, htail⟩ := trimTail_prefix ((cleaned raw).dropWhile isSpace)
  have hdrop : (cleaned raw).dropWhile isSpace = bounded raw ++ (rest ++ tail) := by
    rw [← List.append_assoc, show bounded raw ++ rest = trimmed raw from htrim.symm]
    exact htail.symm
  have hbounded : (∀ c ∈ (bounded raw).getLast?, isSpace c = false ∧ c ≠ '.') ∧
      byteLen (bounded raw) + (if isReserved (bounded raw) then 1 else 0) ≤ MAX_FILE_NAME_BYTES := by
    by_cases hname : bounded raw = []
    · rw [hname]
      exact ⟨nofun, by decide⟩
    · rw [sanitizeFileName_eq hname] at h
      exact ⟨List.getLast?_append_of_ne_nil (mark (bounded raw)) hname ▸ h.last, byteLen_mark _ ▸ h.fits⟩
  refine ⟨(cleaned raw).takeWhile isSpace, bounded raw, rest ++ tail, ?_, fun c => List.mem_takeWhile_imp, ?_, hbounded.1,
    hbounded.2, ?_⟩
  · rw [← hdrop, List.takeWhile_append_dropWhile]
  · rw [← hdrop]
    intro c hc
    simpa [Option.mem_def.mp hc] using List.head?_dropWhile_not isSpace (cleaned raw)
  · have hrest : bounded raw ++ rest = bounded raw ++ trimTail (rest ++ tail) := by
      rw [← trimTail_append hbounded.1, ← hdrop]
      exact htrim.symm
    rw [← List.append_cancel_left hrest]
    cases rest with
    | nil => exact .inl rfl
    | cons c rest => exact .inr ⟨c, rfl, hcut c rfl⟩

/-- **A sanitised name is safe, and sanitised for good, exactly where one pass of the trims and the cut was enough.** -/
theorem safe_iff_splits (raw : List Char) :
    (Safe (sanitizeFileName raw) ∧ sanitizeFileName (sanitizeFileName raw) = sanitizeFileName raw) ↔ Splits raw :=
  ⟨fun h => splits_of_safe h.1, fun h => ⟨safe_of_splits h, sanitizeFileName_eq_self (safe_of_splits h)⟩⟩

/-- Dots between spaces: the parent directory. -/
theorem parent_directory : ¬ ∀ raw, Safe (sanitizeFileName raw) ∧
    sanitizeFileName (sanitizeFileName raw) = sanitizeFileName raw :=
  fun h => (h ".. .".toList).1.notDots.2 (by decide)

end CitadelAgent.Transfers.FileName
