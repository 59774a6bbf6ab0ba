import CitadelAgent.Lib.Holes
import CitadelAgent.NetPolicy.Url
import CitadelAgent.Reconnect.Policy

/-!
# Refusals, by their text

`reconnect/policy.rs`: how a server's text is matched against a registry form, `renders`, `renders_from` and `clauses`.

* `Rendered`, `Clause` : a form with its placeholders filled, and where in a message it may stand;
* `rendersFrom_iff` : the scan finds the leftmost reading, unless a placeholder it steps into starts with a character of
  several bytes;
* `renders_iff` : what `renders` says, of a form with placeholders and of one without.
-/

namespace CitadelAgent.Reconnect

open NetPolicy (Text)
open Holes (Leftmost Reading First afterFirst)

/-! ## The matcher -/

/-- What follows each `": "`. -/
def afterSeparators : Text → List Text
  | ':' :: ' ' :: rest => rest :: afterSeparators rest
  | _ :: rest => afterSeparators rest
  | [] => []

/-- The message from its start and from after each `": "`. -/
def clauses (message : Text) : List Text := message :: afterSeparators message

/-- `form.split("{}")`: the first part, and those that follow a placeholder. -/
def splitHoles : Text → Text × List Text
  | '{' :: '}' :: form => ([], (splitHoles form).1 :: (splitHoles form).2)
  | c :: form => (c :: (splitHoles form).1, (splitHoles form).2)
  | [] => ([], [])

/-- `rest.get(1..)`: nothing where the first character has more bytes. -/
def getFromOne : Text → Option Text
  | c :: tail => if c.utf8Size = 1 then some tail else none
  | [] => none

def rendersFrom : List Text → Text → Bool
  | [], _ => true
  | [part], rest => if part = [] then !rest.isEmpty else decide (Text.len part < Text.len rest) && part.isSuffixOf rest
  | part :: next :: placeholders, rest =>
    match (getFromOne rest).bind (afterFirst part) with
    | some rest => rendersFrom (next :: placeholders) rest
    | none => false

/-- Whether the message is the form rendered, at its start or right after a `": "`. -/
def renders (form message : Text) : Bool :=
  let parts := splitHoles form
  if parts.1 = [] then false
  else
    (clauses message).any fun clause =>
      match Text.stripStart clause parts.1 with
      | some rest => rendersFrom parts.2 rest
      | none => false

/-! ## What a rendered form is -/

/-- The form with something in place of each `{}`. -/
inductive Rendered : Text → Text → Prop
  | nil : Rendered [] []
  | hole {form filling text : Text} (hfilling : filling ≠ []) (h : Rendered form text) :
      Rendered ('{' :: '}' :: form) (filling ++ text)
  | literal {c : Char} {form text : Text} (hliteral : ∀ rest, c :: form ≠ '{' :: '}' :: rest) (h : Rendered form text) :
      Rendered (c :: form) (c :: text)

/-- Where a refusal may stand: the message from its start, or from right after a `": "`. -/
def Clause (message clause : Text) : Prop := clause = message ∨ ∃ front, message = front ++ ':' :: ' ' :: clause

def Says (form message : Text) : Prop := ∃ clause, Clause message clause ∧ Rendered form clause

variable {clause message form text : Text} {code : ErrorCode}

theorem mem_afterSeparators :
    clause ∈ afterSeparators message ↔ ∃ front, message = front ++ ':' :: ' ' :: clause := by
  fun_induction afterSeparators message with
  | case1 rest ih =>
    rw [List.mem_cons, ih]
    constructor
    · rintro (rfl | ⟨front, rfl⟩)
      · exact ⟨[], rfl⟩
      · exact ⟨':' :: ' ' :: front, rfl⟩
    · rintro ⟨front, hfront⟩
      match front, hfront with
      | [], hfront => exact Or.inl (by simpa using hfront.symm)
      | [c], hfront => simp at hfront
      | c :: d :: front, hfront => exact Or.inr ⟨front, by simpa using (List.cons.inj (List.cons.inj hfront).2).2⟩
  | case2 c rest hnot ih =>
    rw [ih]
    constructor
    · rintro ⟨front, rfl⟩
      exact ⟨c :: front, rfl⟩
    · rintro ⟨front, hfront⟩
      cases front with
      | nil =>
        obtain ⟨rfl, rfl⟩ := List.cons.inj hfront
        exact absurd rfl (hnot clause rfl)
      | cons d front => exact ⟨front, (List.cons.inj hfront).2⟩
  | case3 => simp

theorem mem_clauses : clause ∈ clauses message ↔ Clause message clause := by
  rw [clauses, List.mem_cons, mem_afterSeparators, Clause]

theorem splitHoles_filled :
    Rendered form text ↔
      ∃ rest fillings, text = (splitHoles form).1 ++ rest ∧ Reading (splitHoles form).2 fillings rest := by
  fun_induction splitHoles form generalizing text with
  | case1 form ih =>
    constructor
    · intro h
      cases h with
      | @hole form filling text hfilling h =>
        obtain ⟨rest, fillings, rfl, hreading⟩ := ih.mp h
        rw [← List.append_assoc]
        exact ⟨_, filling :: fillings, rfl, Reading.cons hfilling hreading⟩
      | literal hliteral h => exact absurd rfl (hliteral form)
    · rintro ⟨rest, fillings, rfl, hreading⟩
      cases hreading with
      | @cons part filling parts fillings rest hfilling hreading =>
        show Rendered _ (filling ++ (splitHoles form).1 ++ rest)
        rw [List.append_assoc]
        exact Rendered.hole hfilling (ih.mpr ⟨rest, fillings, rfl, hreading⟩)
  | case2 c form hnot ih =>
    constructor
    · intro h
      cases h with
      | hole hfilling h => exact absurd rfl (hnot _ rfl)
      | literal hliteral h =>
        obtain ⟨rest, fillings, rfl, hreading⟩ := ih.mp h
        exact ⟨rest, fillings, rfl, hreading⟩
    · rintro ⟨rest, fillings, rfl, hreading⟩
      refine Rendered.literal (fun more hmore => ?_) (ih.mpr ⟨rest, fillings, rfl, hreading⟩)
      obtain ⟨rfl, rfl⟩ := List.cons.inj hmore
      exact hnot more rfl rfl
  | case3 =>
    constructor
    · rintro ⟨⟩
      exact ⟨[], [], rfl, Reading.nil⟩
    · rintro ⟨rest, fillings, rfl, hreading⟩
      cases hreading
      exact Rendered.nil

/-- The clause is the form rendered, with the least in every placeholder but the last. -/
def Reads (form clause : Text) (fillings : List Text) : Prop :=
  ∃ rest, clause = (splitHoles form).1 ++ rest ∧ Leftmost (splitHoles form).2 fillings rest

theorem Reads.rendered {fillings : List Text} (h : Reads form clause fillings) :
    Rendered form clause := by
  obtain ⟨rest, rfl, hleftmost⟩ := h
  exact splitHoles_filled.mpr ⟨rest, fillings, rfl, hleftmost.reading⟩

theorem Rendered.reads (h : Rendered form clause) (hholes : (splitHoles form).2 ≠ []) :
    ∃ fillings, Reads form clause fillings := by
  obtain ⟨rest, fillings, rfl, hreading⟩ := splitHoles_filled.mp h
  obtain ⟨fillings', hleftmost⟩ := hreading.leftmost hholes
  exact ⟨fillings', rest, rfl, hleftmost⟩

theorem splitHoles_bare (h : (splitHoles form).2 = []) : (splitHoles form).1 = form := by
  fun_induction splitHoles form with
  | case1 form ih => cases h
  | case2 c form hnot ih => rw [ih h]
  | case3 => rfl

theorem rendered_bare (h : (splitHoles form).2 = []) : Rendered form clause ↔ clause = form := by
  rw [splitHoles_filled, h, splitHoles_bare h]
  constructor
  · rintro ⟨rest, fillings, rfl, hreading⟩
    cases hreading
    exact List.append_nil form
  · rintro rfl
    exact ⟨[], [], (List.append_nil clause).symm, Reading.nil⟩

/-! ## What the matcher finds -/

/-- Nothing but the last filling starts with a character of several bytes. -/
def Narrow (fillings : List Text) : Prop := ∀ filling ∈ fillings.dropLast, ∀ c ∈ filling.head?, c.utf8Size = 1

theorem narrow_singleton (filling : Text) : Narrow [filling] := fun _ h => absurd h (List.not_mem_nil)

theorem narrow_cons {c : Char} {front : Text} {fillings : List Text} (h : fillings ≠ []) :
    Narrow ((c :: front) :: fillings) ↔ c.utf8Size = 1 ∧ Narrow fillings := by
  simp [Narrow, List.dropLast_cons_of_ne_nil h]

theorem len_append (a b : Text) : Text.len (a ++ b) = Text.len a + Text.len b := by
  simp [Text.len]

theorem len_pos (h : text ≠ []) : 0 < Text.len text := by
  obtain ⟨c, tail, rfl⟩ := List.exists_cons_of_ne_nil h
  have := c.utf8Size_pos
  simp only [Text.len, List.map_cons, List.sum_cons]
  omega

theorem rendersFrom_last {part rest : Text} :
    rendersFrom [part] rest = true ↔ ∃ filling, filling ≠ [] ∧ rest = filling ++ part := by
  rw [rendersFrom]
  split
  case isTrue hpart =>
    subst hpart
    simp
  case isFalse =>
    rw [Bool.and_eq_true, decide_eq_true_eq, List.isSuffixOf_iff_suffix]
    constructor
    · rintro ⟨hlen, filling, rfl⟩
      refine ⟨filling, ?_, rfl⟩
      rintro rfl
      exact absurd hlen (lt_irrefl _)
    · rintro ⟨filling, hfilling, rfl⟩
      have := len_pos hfilling
      exact ⟨by rw [len_append]; omega, filling, rfl⟩

theorem rendersFrom_iff : ∀ {placeholders : List Text} {rest : Text}, placeholders ≠ [] →
    (rendersFrom placeholders rest = true ↔ ∃ fillings, Leftmost placeholders fillings rest ∧ Narrow fillings)
  | [], _, h => absurd rfl h
  | [part], rest, _ => by
    rw [rendersFrom_last]
    constructor
    · rintro ⟨filling, hfilling, rfl⟩
      exact ⟨[filling], Leftmost.last hfilling, narrow_singleton filling⟩
    · rintro ⟨fillings, hleftmost, -⟩
      obtain ⟨filling, hfilling, -, hrest⟩ := Reading.singleton_iff.mp hleftmost.reading
      exact ⟨filling, hfilling, hrest⟩
  | part :: next :: placeholders, rest, _ => by
    rw [rendersFrom]
    constructor
    · intro h
      split at h
      case h_1 rest' hrest' =>
        obtain ⟨tail, htail, hafter⟩ := Option.bind_eq_some_iff.mp hrest'
        obtain ⟨front, hfirst⟩ := Holes.afterFirst_eq_some.mp hafter
        obtain ⟨fillings, hleftmost, hnarrow⟩ := (rendersFrom_iff (List.cons_ne_nil next placeholders)).mp h
        cases rest with
        | nil => cases htail
        | cons c tail' =>
          rw [getFromOne] at htail
          split at htail
          case isTrue hone =>
            obtain rfl := Option.some.inj htail
            exact ⟨(c :: front) :: fillings, Leftmost.cons hfirst hleftmost,
              (narrow_cons hleftmost.fillings_ne_nil).mpr ⟨hone, hnarrow⟩⟩
          case isFalse => cases htail
      case h_2 => cases h
    · rintro ⟨fillings, hleftmost, hnarrow⟩
      cases hleftmost with
      | @cons _ _ _ fillings c tail front rest' hfirst hleftmost =>
        obtain ⟨hone, hnarrow⟩ := (narrow_cons hleftmost.fillings_ne_nil).mp hnarrow
        have hafter : (getFromOne (c :: tail)).bind (afterFirst part) = some rest' := by
          rw [getFromOne, if_pos hone, Option.bind_some]
          exact Holes.afterFirst_eq_some.mpr ⟨front, hfirst⟩
        rw [hafter]
        exact (rendersFrom_iff (List.cons_ne_nil next placeholders)).mpr ⟨fillings, hleftmost, hnarrow⟩

theorem stripStart_eq_some {start rest : Text} : Text.stripStart text start = some rest ↔ text = start ++ rest := by
  rw [Text.stripStart, Option.ite_none_right_eq_some, List.isPrefixOf_iff_prefix, Option.some_inj]
  constructor
  · rintro ⟨⟨rest', rfl⟩, rfl⟩
    rw [List.drop_left]
  · rintro rfl
    exact ⟨List.prefix_append start rest, List.drop_left⟩

theorem renders_iff_rest (hlead : (splitHoles form).1 ≠ []) :
    renders form message = true ↔
      ∃ rest, Clause message ((splitHoles form).1 ++ rest) ∧ rendersFrom (splitHoles form).2 rest = true := by
  simp only [renders, if_neg hlead, List.any_eq_true]
  constructor
  · rintro ⟨clause, hclause, h⟩
    split at h
    case h_1 rest hrest => exact ⟨rest, stripStart_eq_some.mp hrest ▸ mem_clauses.mp hclause, h⟩
    case h_2 => cases h
  · rintro ⟨rest, hclause, h⟩
    refine ⟨_, mem_clauses.mpr hclause, ?_⟩
    rw [stripStart_eq_some.mpr rfl]
    exact h

theorem renders_iff (hlead : (splitHoles form).1 ≠ []) (hholes : (splitHoles form).2 ≠ []) :
    renders form message = true ↔ ∃ clause fillings, Clause message clause ∧ Reads form clause fillings ∧ Narrow fillings := by
  rw [renders_iff_rest hlead]
  constructor
  · rintro ⟨rest, hclause, h⟩
    obtain ⟨fillings, hleftmost, hnarrow⟩ := (rendersFrom_iff hholes).mp h
    exact ⟨_, fillings, hclause, ⟨rest, rfl, hleftmost⟩, hnarrow⟩
  · rintro ⟨clause, fillings, hclause, ⟨rest, rfl, hleftmost⟩, hnarrow⟩
    exact ⟨rest, hclause, (rendersFrom_iff hholes).mpr ⟨fillings, hleftmost, hnarrow⟩⟩

theorem renders_bare (hlead : form ≠ []) (hholes : (splitHoles form).2 = []) :
    renders form message = true ↔ ∃ rest, Clause message (form ++ rest) := by
  rw [renders_iff_rest (by rwa [splitHoles_bare hholes]), splitHoles_bare hholes, hholes]
  simp [rendersFrom]

/-! ## When the text is recognised -/

/-- No clause goes on past a form that has no placeholder, unless another one is that form; and where a wide character
is in the matcher's way, another clause is without. -/
structure Recognised (form message : Text) : Prop where
  bare : (splitHoles form).2 = [] → ∀ c rest, Clause message (form ++ c :: rest) → Clause message form
  narrow : (splitHoles form).2 ≠ [] → ∀ clause fillings, Clause message clause → Reads form clause fillings →
    ¬ Narrow fillings → ∃ other fillings, Clause message other ∧ Reads form other fillings ∧ Narrow fillings

theorem refusals_recognised {form message : Text} (hlead : (splitHoles form).1 ≠ []) :
    (renders form message = true ↔ Says form message) ↔ Recognised form message := by
  by_cases hholes : (splitHoles form).2 = []
  · have hform : form ≠ [] := splitHoles_bare hholes ▸ hlead
    have hsays : Says form message ↔ Clause message form := by
      constructor
      · rintro ⟨clause, hclause, hrendered⟩
        exact (rendered_bare hholes).mp hrendered ▸ hclause
      · exact fun h => ⟨form, h, (rendered_bare hholes).mpr rfl⟩
    rw [renders_bare hform hholes, hsays]
    constructor
    · exact fun h => ⟨fun _ c rest hclause => h.mp ⟨c :: rest, hclause⟩, fun hne => absurd hholes hne⟩
    · intro h
      constructor
      · rintro ⟨rest, hclause⟩
        cases rest with
        | nil => rwa [List.append_nil] at hclause
        | cons c rest => exact h.bare hholes c rest hclause
      · exact fun hclause => ⟨[], by rwa [List.append_nil]⟩
  · rw [renders_iff hlead hholes]
    constructor
    · intro h
      refine ⟨fun hbare => absurd hbare hholes, fun _ clause fillings hclause hreads _ => ?_⟩
      exact h.mpr ⟨clause, hclause, hreads.rendered⟩
    · intro h
      constructor
      · rintro ⟨clause, fillings, hclause, hreads, -⟩
        exact ⟨clause, hclause, hreads.rendered⟩
      · rintro ⟨clause, hclause, hrendered⟩
        obtain ⟨fillings, hreads⟩ := hrendered.reads hholes
        by_cases hnarrow : Narrow fillings
        · exact ⟨clause, fillings, hclause, hreads, hnarrow⟩
        · exact h.narrow hholes clause fillings hclause hreads hnarrow

theorem refusals_recognised_node :
    let form := "CID {} is not registered to this node".toList
    let message := "CID not registered to this node: CID 6062 is not registered to this node".toList
    (splitHoles form).1 ≠ [] ∧ ((renders form message = true ↔ Says form message) ↔ Recognised form message) :=
  ⟨by decide, refusals_recognised (by decide)⟩

/-- A form without a placeholder is found though the message goes on, and one with two is missed where the first holds
an accented letter. -/
theorem refusals_misread :
    (renders "Invalid password".toList "Invalid password yet, retry".toList = true ∧
      ¬ Says "Invalid password".toList "Invalid password yet, retry".toList) ∧
    (renders "user {} is not {}".toList "user é is not known".toList = false ∧
      Says "user {} is not {}".toList "user é is not known".toList) := by
  refine ⟨⟨by decide +kernel, ?_⟩, by decide +kernel, ?_⟩
  · rintro ⟨clause, hclause, hrendered⟩
    obtain rfl := (rendered_bare (by decide)).mp hrendered
    exact absurd (mem_clauses.mpr hclause) (by decide)
  · refine ⟨_, Or.inl rfl, splitHoles_filled.mpr ⟨"é is not known".toList, ["é".toList, "known".toList], rfl, ?_⟩⟩
    exact @Reading.cons _ " is not ".toList _ _ _ _ (by decide) (@Reading.cons _ [] _ _ _ _ (by decide) Reading.nil)

end CitadelAgent.Reconnect
