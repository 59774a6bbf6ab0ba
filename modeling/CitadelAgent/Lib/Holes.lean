import Mathlib

/-!
# Texts with holes

A form is literal parts with a hole before each; a text fills it when it is those parts in order, something in every
hole. Over any alphabet.

* `Reading` : a text as the parts and what fills their holes;
* `First`, `afterFirst` : the first occurrence of a part, and what follows it;
* `Leftmost` : the reading in which every hole but the last holds as little as it can;
* `Reading.leftmost` : a text that can be read at all has its leftmost reading, so looking for the first occurrence of
  each part misses none;
* `Leftmost.unique` : and it has one.
-/

namespace Holes

variable {α : Type}

/-! ## Readings -/

/-- The literal parts, each after what fills the hole before it, are the text. -/
inductive Reading : List (List α) → List (List α) → List α → Prop
  | nil : Reading [] [] []
  | cons {part filling : List α} {parts fillings : List (List α)} {text : List α} (hfilling : filling ≠ [])
      (h : Reading parts fillings text) : Reading (part :: parts) (filling :: fillings) (filling ++ part ++ text)

namespace Reading

theorem prepend {parts fillings : List (List α)} {text : List α} (h : Reading parts fillings text) (hparts : parts ≠ [])
    (more : List α) : ∃ fillings', Reading parts fillings' (more ++ text) := by
  cases h with
  | nil => exact absurd rfl hparts
  | @cons part filling parts fillings text hfilling h =>
    refine ⟨(more ++ filling) :: fillings, ?_⟩
    rw [← List.append_assoc, ← List.append_assoc]
    exact cons (fun hnil => hfilling (List.append_eq_nil_iff.mp hnil).2) h

theorem singleton_iff {part text : List α} {fillings : List (List α)} :
    Reading [part] fillings text ↔ ∃ filling, filling ≠ [] ∧ fillings = [filling] ∧ text = filling ++ part := by
  constructor
  · intro h
    cases h with
    | cons hfilling h =>
      cases h
      exact ⟨_, hfilling, rfl, List.append_nil _⟩
  · rintro ⟨filling, hfilling, rfl, rfl⟩
    simpa using @cons _ part filling [] [] [] hfilling nil

end Reading

/-! ## The first occurrence of a part -/

/-- `front` stands before the first occurrence of the part, `rest` after it. -/
structure First (part text front rest : List α) : Prop where
  text_eq : text = front ++ part ++ rest
  first : ∀ early : List α, early.length < front.length → ¬ early ++ part <+: text

namespace First

theorem unique {part text front front' rest rest' : List α} (h : First part text front rest)
    (h' : First part text front' rest') : front = front' ∧ rest = rest' := by
  have hnot : ∀ {one other left right : List α}, First part text one left → First part text other right →
      ¬ one.length < other.length := fun hone hother hlt =>
    hother.first _ hlt ⟨_, hone.text_eq.symm⟩
  have hlength : front.length = front'.length := by
    have := hnot h h'
    have := hnot h' h
    omega
  have htext : front ++ (part ++ rest) = front' ++ (part ++ rest') := by
    rw [← List.append_assoc, ← List.append_assoc, ← h.text_eq, ← h'.text_eq]
  obtain ⟨hfront, hrest⟩ := List.append_inj htext hlength
  exact ⟨hfront, List.append_cancel_left hrest⟩

theorem cons {part text front rest : List α} {c : α} (h : First part text front rest) (hnot : ¬ part <+: c :: text) :
    First part (c :: text) (c :: front) rest := by
  refine ⟨by rw [h.text_eq]; rfl, ?_⟩
  intro early hearly hprefix
  cases early with
  | nil => exact hnot hprefix
  | cons d early =>
    rw [List.cons_append, List.cons_prefix_cons] at hprefix
    exact h.first early (by simpa using hearly) hprefix.2

theorem suffix {part text front rest before after : List α} (h : First part text front rest)
    (hoccurs : text = before ++ part ++ after) : after <:+ rest := by
  have hlength : front.length ≤ before.length := by
    by_contra hlt
    exact h.first before (not_le.mp hlt) ⟨after, hoccurs.symm⟩
  have htext := h.text_eq.symm.trans hoccurs
  refine List.suffix_of_suffix_length_le ⟨before ++ part, hoccurs.symm⟩ ⟨front ++ part, h.text_eq.symm⟩ ?_
  have := congrArg List.length htext
  simp only [List.length_append] at this
  omega

end First

section
variable [DecidableEq α]

def afterFirst (part : List α) : List α → Option (List α)
  | [] => if part = [] then some [] else none
  | c :: text => if part.isPrefixOf (c :: text) = true then some ((c :: text).drop part.length) else afterFirst part text

theorem afterFirst_eq_some {part text rest : List α} :
    afterFirst part text = some rest ↔ ∃ front, First part text front rest := by
  induction text with
  | nil =>
    rw [afterFirst]
    constructor
    · intro h
      split at h
      case isTrue hpart =>
        obtain rfl : [] = rest := Option.some.inj h
        exact ⟨[], by simp [hpart], fun early hearly => absurd hearly (Nat.not_lt_zero _)⟩
      case isFalse => cases h
    · rintro ⟨front, h⟩
      have hnil := h.text_eq.symm
      simp only [List.append_eq_nil_iff] at hnil
      rw [if_pos hnil.1.2, hnil.2]
  | cons c text ih =>
    rw [afterFirst]
    split
    case isTrue hpart =>
      obtain ⟨rest', hrest⟩ := List.isPrefixOf_iff_prefix.mp hpart
      have hfirst : First part (c :: text) [] rest' :=
        ⟨hrest.symm, fun early hearly => absurd hearly (Nat.not_lt_zero _)⟩
      rw [← hrest, List.drop_left, hrest, Option.some_inj]
      constructor
      · rintro rfl
        exact ⟨[], hfirst⟩
      · rintro ⟨front, h⟩
        exact (hfirst.unique h).2
    case isFalse hpart =>
      rw [List.isPrefixOf_iff_prefix] at hpart
      rw [ih]
      constructor
      · rintro ⟨front, h⟩
        exact ⟨c :: front, h.cons hpart⟩
      · rintro ⟨front, h⟩
        cases front with
        | nil => exact absurd ⟨rest, h.text_eq.symm⟩ hpart
        | cons d front =>
          have htext := h.text_eq
          rw [List.cons_append, List.cons_append] at htext
          obtain ⟨rfl, htail⟩ := List.cons.inj htext
          refine ⟨front, htail, fun early hearly hprefix => h.first (c :: early) (by simpa using hearly) ?_⟩
          exact List.cons_prefix_cons.mpr ⟨rfl, hprefix⟩

end

theorem First.exists_of_occurs {part before after : List α} :
    ∃ front rest, First part (before ++ part ++ after) front rest := by
  classical
  obtain ⟨rest, hrest⟩ : ∃ rest, afterFirst part (before ++ part ++ after) = some rest := by
    induction before with
    | nil =>
      cases part with
      | nil =>
        cases after with
        | nil => exact ⟨[], rfl⟩
        | cons c after => exact ⟨c :: after, rfl⟩
      | cons c part =>
        refine ⟨after, ?_⟩
        have hprefix : (c :: part).isPrefixOf (c :: (part ++ after)) = true :=
          List.isPrefixOf_iff_prefix.mpr ⟨after, rfl⟩
        rw [List.nil_append, List.cons_append, afterFirst, if_pos hprefix, ← List.cons_append, List.drop_left]
    | cons c before ih =>
      rw [List.cons_append, List.cons_append, afterFirst]
      split
      case isTrue => exact ⟨_, rfl⟩
      case isFalse => exact ih
  obtain ⟨front, hfirst⟩ := afterFirst_eq_some.mp hrest
  exact ⟨front, rest, hfirst⟩

/-! ## The leftmost reading -/

/-- Every hole but the last holds one item and what precedes the next occurrence of its part; the last holds all the
rest. -/
inductive Leftmost : List (List α) → List (List α) → List α → Prop
  | last {part filling : List α} (hfilling : filling ≠ []) : Leftmost [part] [filling] (filling ++ part)
  | cons {part next : List α} {parts fillings : List (List α)} {c : α} {tail front rest : List α}
      (hfirst : First part tail front rest) (h : Leftmost (next :: parts) fillings rest) :
      Leftmost (part :: next :: parts) ((c :: front) :: fillings) (c :: tail)

namespace Leftmost

variable {parts fillings : List (List α)} {text : List α}

theorem reading (h : Leftmost parts fillings text) : Reading parts fillings text := by
  induction h with
  | last hfilling => exact Reading.singleton_iff.mpr ⟨_, hfilling, rfl, rfl⟩
  | @cons part next parts fillings c tail front rest hfirst _ ih =>
    rw [hfirst.text_eq, ← List.cons_append, ← List.cons_append]
    exact Reading.cons (List.cons_ne_nil c front) ih

theorem fillings_ne_nil (h : Leftmost parts fillings text) : fillings ≠ [] := by
  cases h <;> exact List.cons_ne_nil _ _

end Leftmost

theorem Reading.leftmost : ∀ {parts fillings : List (List α)} {text : List α}, Reading parts fillings text → parts ≠ [] →
    ∃ fillings', Leftmost parts fillings' text
  | [], _, _, _, hparts => absurd rfl hparts
  | [part], _, _, h, _ => by
    obtain ⟨filling, hfilling, -, rfl⟩ := Reading.singleton_iff.mp h
    exact ⟨[filling], Leftmost.last hfilling⟩
  | part :: next :: parts, _, _, h, _ => by
    cases h with
    | @cons part filling parts' fillings text hfilling h =>
      obtain ⟨c, before, rfl⟩ := List.exists_cons_of_ne_nil hfilling
      obtain ⟨front, rest, hfirst⟩ := @First.exists_of_occurs _ part before text
      obtain ⟨more, hmore⟩ := hfirst.suffix rfl
      obtain ⟨longer, hlonger⟩ := h.prepend (List.cons_ne_nil next parts) more
      rw [hmore] at hlonger
      obtain ⟨fillings', hleftmost⟩ := Reading.leftmost hlonger (List.cons_ne_nil next parts)
      exact ⟨(c :: front) :: fillings', Leftmost.cons hfirst hleftmost⟩

end Holes
