import CitadelAgent.Telemetry.Core

/-!
# What redaction leaves of the known values

* `Replaced` : a text with some ranges of it replaced by placeholders;
* `leaves_none_iff` : when no known value and no cid of another session is left.
-/

namespace CitadelAgent.Telemetry
open Requests (parseU64)
open Updater (byteLen trim)
open Conversations (Cid)

section
variable (crates : Crates) (input : List Char) (known : List KnownValue) (others : List Cid) (salt : Salt)

/-- From the cursor on, the text with these ranges of it replaced, one after the other, and all else kept in order. -/
inductive Replaced : Nat → List Char → List Hit → List Char → Prop
  | rest (cursor : Nat) (text : List Char) : Replaced cursor text [] text
  | range {cursor : Nat} {kept value text out : List Char} {hits : List Hit} (kind : RedactionKind) (hvalue : value ≠ [])
    (h : Replaced (cursor + byteLen kept + byteLen value) text hits out) :
    Replaced cursor (kept ++ value ++ text)
      (⟨cursor + byteLen kept, cursor + byteLen kept + byteLen value, kind⟩ :: hits)
      (kept ++ placeholder crates kind value salt ++ out)

def replacedRanges : Option (List Hit) := do
  let hits ← knownValueHits crates input known
  return merge (hits ++ crates.patternHits input ++ sessionCidHits input others)

/-- A maximal run of digits that names one of the cids. -/
def Names (a run b : List Char) : Prop := input = a ++ run ++ b ∧ run ≠ [] ∧ (∀ c ∈ run, c.isDigit = true) ∧
  endsDigit a = false ∧ startsDigit b = false ∧ ∃ cid ∈ others, parseU64 run = some cid

/-- Of the `len` bytes at `start`, each is in a range. -/
def Inside (hits : List Hit) (start len : Nat) : Prop := ∀ p, start ≤ p → p < start + len → ∃ hit ∈ hits, hit.start ≤ p ∧ p < hit.end_

/-- The input is redacted, range by range, and no known value and no cid is left outside of the ranges. -/
def LeavesNone : Prop := ∃ hits out, replacedRanges crates input known others = some hits ∧
  redactWithSessions crates input known others salt = some out ∧ Replaced crates salt 0 input hits out ∧
  (∀ k ∈ known, ∀ a m b, Occurs crates input k a m b → Inside hits (byteLen a) (byteLen m)) ∧
  ∀ a run b, Names input others a run b → Inside hits (byteLen a) (byteLen run)

def FoundAt (p : Nat) : Prop := (∃ k ∈ known, ∃ hit, Found crates input k hit ∧ hit.start ≤ p ∧ p < hit.end_) ∨
  (∃ hit ∈ crates.patternHits input, hit.start ≤ p ∧ p < hit.end_) ∨
  ∃ a run b, Names input others a run b ∧ byteLen a ≤ p ∧ p < byteLen a + byteLen run

/-- An occurrence that the search steps over, as it overlaps one before it, is found byte by byte all the same. -/
def StepsOverNone : Prop := ∀ k ∈ known, ∀ a m b, Occurs crates input k a m b →
  byteLen a ∉ matchIndices ((trim k.value).map Char.toLower) 0 0 (input.map Char.toLower) →
  ∀ p, byteLen a ≤ p → p < byteLen a + byteLen m → FoundAt crates input known others p

end

/-- A position between two characters of the input. -/
def Edge (offset : Nat) (text : List Char) (position : Nat) : Prop := ∃ a b, text = a ++ b ∧ offset + byteLen a = position

/-- The matches of the regular expressions are not empty and lie on character boundaries. -/
def Crates.Matches (crates : Crates) : Prop :=
  ∀ input, ∀ hit ∈ crates.patternHits input, Edge 0 input hit.start ∧ Edge 0 input hit.end_ ∧ hit.start < hit.end_

variable {crates : Crates} {input : List Char} {known : List KnownValue} {others : List Cid} {salt : Salt} {cursor offset : Nat}
  {a b m text : List Char} {hits : List Hit}

/-! ## The ranges -/

theorem Edge.drop {position : Nat} (h : Edge offset (a ++ b) position) (hle : offset + byteLen a ≤ position) :
    Edge (offset + byteLen a) b position := by
  obtain ⟨x, y, htext, rfl⟩ := h
  rcases List.append_eq_append_iff.mp htext with ⟨z, rfl, rfl⟩ | ⟨z, rfl, rfl⟩
  · exact ⟨z, y, rfl, by rw [byteLen_append]; omega⟩
  · have hz : z = [] := byteLen_eq_zero (by rw [byteLen_append] at hle; omega)
    subst hz
    exact ⟨[], b, rfl, by rw [List.append_nil, byteLen_nil, Nat.add_zero]⟩

theorem edges (h : input = a ++ m ++ b) (hm : m ≠ []) : Edge 0 input (byteLen a) ∧ Edge 0 input (byteLen a + byteLen m) ∧
    byteLen a < byteLen a + byteLen m := by
  have hlen : byteLen m ≠ 0 := fun h0 => hm (byteLen_eq_zero h0)
  exact ⟨⟨a, m ++ b, by rw [h, List.append_assoc], Nat.zero_add _⟩, ⟨a ++ m, b, h, by rw [byteLen_append, Nat.zero_add]⟩, by omega⟩

theorem rewrite_replaced (hordered : Ordered cursor hits)
    (hedges : ∀ hit ∈ hits, Edge cursor text hit.start ∧ Edge cursor text hit.end_ ∧ hit.start < hit.end_) :
    ∃ out, rewrite crates salt cursor text hits = some out ∧ Replaced crates salt cursor text hits out := by
  induction hits generalizing cursor text with
  | nil => exact ⟨text, rfl, .rest cursor text⟩
  | cons hit hits ih =>
    obtain ⟨hcursor, hlt, hlater⟩ := hordered
    obtain ⟨⟨a, b, hab, hstart⟩, ⟨a', b', hab', hend⟩, -⟩ := hedges hit List.mem_cons_self
    obtain ⟨value, rfl, rfl, hlen, hrewrite⟩ := rewrite_cons crates salt hits hcursor hlt hab hstart hab' hend
    obtain ⟨start, end_, kind⟩ := hit
    subst hstart hlen hab'
    have hrest : ∀ h ∈ hits, Edge (cursor + byteLen a + byteLen value) b' h.start ∧
        Edge (cursor + byteLen a + byteLen value) b' h.end_ ∧ h.start < h.end_ := by
      intro h hh
      obtain ⟨hs, he, hlt'⟩ := hedges h (List.mem_cons_of_mem _ hh)
      have hle := hlater.le h hh
      simp only at hle
      rw [Nat.add_assoc, ← byteLen_append] at hle ⊢
      exact ⟨hs.drop hle, he.drop (hle.trans hlt'.le), hlt'⟩
    obtain ⟨out, hout, hreplaced⟩ := ih hlater hrest
    refine ⟨_, by rw [hrewrite, hout]; rfl, .range kind ?_ hreplaced⟩
    rintro rfl
    exact absurd hlt (by simp [byteLen_nil])

theorem mem_sessionCidHits {hit : Hit} : hit ∈ sessionCidHits input others ↔
    ∃ a run b, Names input others a run b ∧ hit = ⟨byteLen a, byteLen a + byteLen run, .session⟩ := by
  rw [sessionCidHits, List.mem_filterMap]
  constructor
  · rintro ⟨⟨start, run⟩, hrun, heq⟩
    split at heq
    · rename_i hnamed
      obtain ⟨a, b, hinput, rfl, hnil, hdigits, ha, hb⟩ := mem_digitRuns hrun
      obtain ⟨cid, hparse, hcid⟩ := (Option.any_eq_true ..).mp hnamed
      refine ⟨a, run, b, ⟨hinput, hnil, hdigits, ha, hb, cid, of_decide_eq_true hcid, hparse⟩, ?_⟩
      rw [← Option.some.inj heq, Nat.zero_add]
    · exact nomatch heq
  · rintro ⟨a, run, b, ⟨rfl, hnil, hdigits, ha, hb, cid, hcid, hparse⟩, rfl⟩
    refine ⟨(byteLen a, run), ?_, by simp [hparse, hcid]⟩
    rw [List.append_assoc, digitRuns_append (.inl ha), digitRuns_append (.inr hb), digitRuns_digits hnil hdigits, Nat.zero_add]
    simp

theorem replacedRanges_spec (hm : crates.Matches) : ∃ hits out, replacedRanges crates input known others = some hits ∧
    redactWithSessions crates input known others salt = some out ∧ Replaced crates salt 0 input hits out ∧
    ∀ p, (∃ hit ∈ hits, hit.start ≤ p ∧ p < hit.end_) ↔ FoundAt crates input known others p := by
  obtain ⟨found, hfound, hmem⟩ := @knownValueHits_mem crates input known
  have hall : ∀ hit ∈ found ++ crates.patternHits input ++ sessionCidHits input others,
      Edge 0 input hit.start ∧ Edge 0 input hit.end_ ∧ hit.start < hit.end_ := by
    intro hit hhit
    rw [List.append_assoc, List.mem_append, List.mem_append] at hhit
    rcases hhit with hhit | hhit | hhit
    · obtain ⟨k, -, a, m, b, ⟨hinput, hne, -⟩, -, rfl⟩ := (hmem hit).mp hhit
      exact edges hinput hne
    · exact hm input hit hhit
    · obtain ⟨a, run, b, ⟨hinput, hne, -⟩, rfl⟩ := mem_sessionCidHits.mp hhit
      exact edges hinput hne
  obtain ⟨hordered, hedges, hcovers, hinside⟩ := merge_spec hall
  obtain ⟨out, hout, hreplaced⟩ := @rewrite_replaced crates salt _ _ _ hordered hedges
  refine ⟨_, out, by rw [replacedRanges, hfound]; rfl, by rw [redactWithSessions, hfound]; exact hout, hreplaced, fun p => ⟨?_, ?_⟩⟩
  · rintro ⟨hit, hhit, hp⟩
    obtain ⟨x, hx, hxp⟩ := hinside hit hhit p hp
    rw [List.append_assoc, List.mem_append, List.mem_append] at hx
    rcases hx with hx | hx | hx
    · obtain ⟨k, hk, hfound⟩ := (hmem x).mp hx
      exact .inl ⟨k, hk, x, hfound, hxp⟩
    · exact .inr (.inl ⟨x, hx, hxp⟩)
    · obtain ⟨a, run, b, hnames, rfl⟩ := mem_sessionCidHits.mp hx
      exact .inr (.inr ⟨a, run, b, hnames, hxp⟩)
  · intro hp
    obtain ⟨x, hx, hxp⟩ : ∃ x ∈ found ++ crates.patternHits input ++ sessionCidHits input others, x.start ≤ p ∧ p < x.end_ := by
      rcases hp with ⟨k, hk, x, hfound, hxp⟩ | ⟨x, hx, hxp⟩ | ⟨a, run, b, hnames, hxp⟩
      · exact ⟨x, List.mem_append_left _ (List.mem_append_left _ ((hmem x).mpr ⟨k, hk, hfound⟩)), hxp⟩
      · exact ⟨x, List.mem_append_left _ (List.mem_append_right _ hx), hxp⟩
      · exact ⟨_, List.mem_append_right _ (mem_sessionCidHits.mpr ⟨a, run, b, hnames, rfl⟩), hxp⟩
    obtain ⟨hit, hhit, hstart, hend⟩ := hcovers x hx
    exact ⟨hit, hhit, hstart.trans hxp.1, hxp.2.trans_le hend⟩

/-- **No known value and no cid is left exactly where the searches step over no occurrence that nothing else finds.** -/
theorem leaves_none_iff (hm : crates.Matches) (input : List Char) (known : List KnownValue) (others : List Cid) (salt : Salt) :
    LeavesNone crates input known others salt ↔ StepsOverNone crates input known others := by
  obtain ⟨hits, out, hranges, hout, hreplaced, hfound⟩ := @replacedRanges_spec _ _ _ _ salt hm
  constructor
  · rintro ⟨hits', -, hranges', -, -, hvalues, -⟩ k hk a m b hoccurs - p hle hlt
    obtain rfl := Option.mem_unique hranges hranges'
    exact (hfound p).mp (hvalues k hk a m b hoccurs p hle hlt)
  · intro hsteps
    refine ⟨hits, out, hranges, hout, hreplaced, fun k hk a m b hoccurs p hle hlt => (hfound p).mpr ?_,
      fun a run b hnames p hle hlt => (hfound p).mpr (.inr (.inr ⟨a, run, b, hnames, hle, hlt⟩))⟩
    by_cases hmatch : byteLen a ∈ matchIndices ((trim k.value).map Char.toLower) 0 0 (input.map Char.toLower)
    · exact .inl ⟨k, hk, _, ⟨a, m, b, hoccurs, hmatch, rfl⟩, hle, hlt⟩
    · exact hsteps k hk a m b hoccurs hmatch p hle hlt

theorem plainCrates_matches : plainCrates.Matches := fun _ _ h => absurd h List.not_mem_nil

theorem leaves_none_iff_short : LeavesNone plainCrates "hi bo".toList [⟨.username, "bo".toList⟩] [] noSalt ↔
    StepsOverNone plainCrates "hi bo".toList [⟨.username, "bo".toList⟩] [] :=
  leaves_none_iff plainCrates_matches _ _ _ _

/-- The search takes `bo-bo` out of `jbo-bo`, where it is part of a word, and steps over the one behind it. -/
theorem overlapping_value_is_left :
    ¬ ∀ input known others salt, LeavesNone plainCrates input known others salt := by
  intro h
  obtain ⟨hits, out, hranges, -, -, hvalues, -⟩ := h "jbo-bo-bo".toList [⟨.username, "bo-bo".toList⟩] [] noSalt
  obtain rfl : [] = hits := Option.mem_unique ((by decide +kernel) : _ = some []) hranges
  obtain ⟨hit, hhit, -⟩ := hvalues _ List.mem_cons_self "jbo-".toList "bo-bo".toList []
    ⟨by decide, by decide, by decide, by decide, by decide⟩ 4 (by decide) (by decide)
  exact absurd hhit List.not_mem_nil

end CitadelAgent.Telemetry
