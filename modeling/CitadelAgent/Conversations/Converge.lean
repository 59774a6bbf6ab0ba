import CitadelAgent.Conversations.Reactions
import CitadelAgent.Lib.Float64Exact
import CitadelAgent.Lib.LastWriter

/-!
# Reactions converge

A list of reactions is a list of registers, one for each reactor and emoji, that the newest change wins.

* `fold_eq` : a fold is a write to the register of its reactor and emoji, when the change is accepted;
* `fold_converges` : what they come to does not depend on their order or on how often each is delivered.
-/

namespace CitadelAgent.Conversations.Reactions
open LastWriter

abbrev keyOf (r : Reaction) : Cid × String := (r.reactorCid, r.emoji)

def timeOf (r : Reaction) : WithBot Int := if r.at_.isNaN then ⊥ else (r.at_.key : WithBot Int)

def accepted (change : Reaction) : Bool := change.emoji ∈ REACTION_EMOJIS && change.at_.isFinite

abbrev entries (current : Option (List Reaction)) : List Reaction := current.getD []

def after (current : Option (List Reaction)) (change : Reaction) : Option (List Reaction) :=
  (fold current change).or current

def foldAll (start : Option (List Reaction)) (changes : List Reaction) : Option (List Reaction) := changes.foldl after start

def entry (current : Option (List Reaction)) (k : Cid × String) : Option (F64 × Bool) :=
  (held keyOf (entries current) k).map fun r => (r.at_, r.active)

variable {r c : Reaction} {start : Option (List Reaction)} {changes : List Reaction} {k : Cid × String}

theorem timeOf_of_finite (h : r.at_.isFinite = true) : timeOf r = (r.at_.key : WithBot Int) := by
  simp [timeOf, F64.not_isNaN_of_isFinite h]

theorem le_iff_not_newer (held : Reaction) {change : Reaction} (h : change.at_.isFinite = true) :
    change.at_.le held.at_ = true ↔ ¬ timeOf held < timeOf change := by
  have hnan := F64.not_isNaN_of_isFinite h
  rw [timeOf_of_finite h, not_lt, timeOf, F64.le, hnan]
  by_cases hheld : held.at_.isNaN = true
  · simp [hheld]
  · simp [hheld]

theorem fold_eq (current : Option (List Reaction)) (change : Reaction) : fold current change =
    if accepted change = true ∧ Newer timeOf (held keyOf (entries current) (keyOf change)) change then
      some (put keyOf (entries current) change)
    else none := by
  have hsame : same change = fun r => decide (keyOf r = keyOf change) := by
    funext r
    simp [same, keyOf]
  unfold fold
  by_cases hacc : change.emoji ∈ REACTION_EMOJIS ∧ change.at_.isFinite = true
  · have hnot : ¬ (change.emoji ∉ REACTION_EMOJIS ∨ change.at_.isFinite = false) := by simp [hacc.1, hacc.2]
    have haccepted : accepted change = true := by simp [accepted, hacc.1, hacc.2]
    rw [if_neg hnot, hsame]
    simp only [haccepted, true_and]
    unfold put held
    cases hfind : (entries current).find? fun r => decide (keyOf r = keyOf change) with
    | none =>
      have hnewer : Newer timeOf none change := by rintro _ ⟨⟩
      simp [hnewer]
    | some h =>
      have hle := le_iff_not_newer h hacc.2
      by_cases hnewer : timeOf h < timeOf change
      · simp [newer_some, hnewer, hle]
      · simp [newer_some, hnewer, hle]
  · have hnot : change.emoji ∉ REACTION_EMOJIS ∨ change.at_.isFinite = false := by
      by_cases hemoji : change.emoji ∈ REACTION_EMOJIS
      · exact .inr (Bool.eq_false_iff.mpr fun hfin => hacc ⟨hemoji, hfin⟩)
      · exact .inl hemoji
    have haccepted : ¬ accepted change = true := by simpa [accepted] using hacc
    rw [if_pos hnot, if_neg fun h => haccepted h.1]

theorem held_after (current : Option (List Reaction)) (change : Reaction) (k : Cid × String) :
    held keyOf (entries (after current change)) k =
      if accepted change = true ∧ keyOf change = k then write timeOf (held keyOf (entries current) k) change
      else held keyOf (entries current) k := by
  rw [after, fold_eq]
  by_cases hacc : accepted change = true
  · by_cases hk : keyOf change = k
    · subst hk
      by_cases hnewer : Newer timeOf (held keyOf (entries current) (keyOf change)) change
      · simp [hacc, hnewer, entries, held_put, write]
      · simp [hacc, hnewer, entries, write]
    · by_cases hnewer : Newer timeOf (held keyOf (entries current) (keyOf change)) change
      · simp [hacc, hnewer, entries, held_put, hk]
      · simp [hacc, hnewer, entries, hk]
  · simp [hacc]

theorem onePerKey_after {current : Option (List Reaction)} (h : OnePerKey keyOf (entries current)) (change : Reaction) :
    OnePerKey keyOf (entries (after current change)) := by
  rw [after, fold_eq]
  split_ifs
  · exact onePerKey_put h change
  · exact h

/-- The changes that reach the register of `k`. -/
def changesOf (k : Cid × String) (changes : List Reaction) : List Reaction :=
  changes.filter fun c => accepted c && decide (keyOf c = k)

theorem held_foldAll (start : Option (List Reaction)) (changes : List Reaction) (k : Cid × String) :
    held keyOf (entries (foldAll start changes)) k =
      (changesOf k changes).foldl (write timeOf) (held keyOf (entries start) k) := by
  induction changes generalizing start with
  | nil => rfl
  | cons change rest ih =>
    have hstep := ih (after start change)
    rw [held_after] at hstep
    rw [foldAll, List.foldl_cons]
    refine hstep.trans ?_
    by_cases hc : accepted change = true ∧ keyOf change = k
    · rw [if_pos hc, changesOf, changesOf, List.filter_cons_of_pos (by simpa using hc), List.foldl_cons]
    · rw [if_neg hc, changesOf, changesOf, List.filter_cons_of_neg (by simpa using hc)]

theorem onePerKey_foldAll (h : OnePerKey keyOf (entries start)) (changes : List Reaction) :
    OnePerKey keyOf (entries (foldAll start changes)) := by
  induction changes generalizing start with
  | nil => exact h
  | cons change rest ih => exact ih (onePerKey_after h change)

/-- The entry with the greatest time among these, if there is one. -/
def Greatest (candidates : List Reaction) : Option (F64 × Bool) → Prop
  | none => candidates = []
  | some e => ∃ r ∈ candidates, e = (r.at_, r.active) ∧ ∀ r' ∈ candidates, r'.at_.le r.at_ = true

/-- The starting entry and the changes of `k` that have a finite time and an emoji that is offered. -/
def candidates (start : Option (List Reaction)) (changes : List Reaction) (k : Cid × String) : List Reaction :=
  changesOf k (entries start ++ changes)

theorem mem_changesOf :
    c ∈ changesOf k changes ↔ c ∈ changes ∧ accepted c = true ∧ keyOf c = k := by
  simp [changesOf]

theorem mem_candidates :
    c ∈ candidates start changes k ↔
      (c ∈ entries start ∧ accepted c = true ∧ keyOf c = k) ∨ c ∈ changesOf k changes := by
  rw [candidates, mem_changesOf, mem_changesOf, List.mem_append]
  tauto

theorem isFinite_of_accepted (h : accepted r = true) : r.at_.isFinite = true := by
  simp only [accepted, Bool.and_eq_true] at h
  exact h.2

theorem mem_of_held {list : List Reaction} (h : held keyOf list k = some r) :
    r ∈ list ∧ keyOf r = k := by
  refine ⟨List.mem_of_find?_eq_some h, ?_⟩
  have hk := List.find?_some h
  simpa using hk

theorem eq_of_key {list : List Reaction} (h : OnePerKey keyOf list) {r' : Reaction} (hr : r ∈ list) (hr' : r' ∈ list)
    (hk : keyOf r = keyOf r') : r = r' := List.inj_on_of_nodup_map h hr hr' hk

theorem greatest_of_settled {result : Option Reaction} (hone : OnePerKey keyOf (entries start))
    (hstart : ∀ r ∈ entries start, accepted r = true)
    (h : Settled timeOf (held keyOf (entries start) k) (changesOf k changes) result) :
    Greatest (candidates start changes k) (result.map fun r => (r.at_, r.active)) := by
  rcases h with ⟨rfl, hnone⟩ | ⟨c, hc, rfl, hnewer, hmax⟩
  · cases hheld : held keyOf (entries start) k with
    | none =>
      refine List.eq_nil_iff_forall_not_mem.mpr fun r hr => ?_
      rcases mem_candidates.mp hr with ⟨hin, -, hk⟩ | hin
      · have hmiss := List.find?_eq_none.mp hheld r hin
        simp [hk] at hmiss
      · rw [hheld] at hnone
        exact hnone r hin fun x hx => nomatch hx
    | some r =>
      obtain ⟨hmem, hk⟩ := mem_of_held hheld
      refine ⟨r, mem_candidates.mpr (.inl ⟨hmem, hstart r hmem, hk⟩), rfl, fun r' hr' => ?_⟩
      have hfin : r'.at_.isFinite = true := by
        rcases mem_candidates.mp hr' with ⟨-, hacc, -⟩ | hin
        · exact isFinite_of_accepted hacc
        · exact isFinite_of_accepted (mem_changesOf.mp hin).2.1
      rw [le_iff_not_newer _ hfin]
      rcases mem_candidates.mp hr' with ⟨hin, -, hk'⟩ | hin
      · rw [eq_of_key hone hin hmem (hk'.trans hk.symm)]
        exact lt_irrefl _
      · rw [hheld] at hnone
        exact mt newer_some.mpr (hnone r' hin)
  · obtain ⟨-, hacc, hk⟩ := mem_changesOf.mp hc
    refine ⟨c, mem_candidates.mpr (.inr hc), rfl, fun r' hr' => ?_⟩
    rcases mem_candidates.mp hr' with ⟨hin, hacc', hk'⟩ | hin
    · rw [le_iff_not_newer _ (isFinite_of_accepted hacc')]
      have hheld : ∃ r, held keyOf (entries start) k = some r := by
        cases hheld : held keyOf (entries start) k with
        | some r => exact ⟨r, rfl⟩
        | none =>
          have hmiss := List.find?_eq_none.mp hheld r' hin
          simp [hk'] at hmiss
      obtain ⟨r, hr⟩ := hheld
      obtain ⟨hmem, hkr⟩ := mem_of_held hr
      rw [eq_of_key hone hin hmem (hk'.trans hkr.symm)]
      exact not_lt.mpr (hnewer r hr).le
    · rw [le_iff_not_newer _ (isFinite_of_accepted (mem_changesOf.mp hin).2.1)]
      exact not_lt.mpr (hmax r' hin)

/-- Changes of which no two of one reactor and emoji have one time come, in every order and with any repetitions, to
the same entries: the newest for each reactor and emoji. -/
theorem fold_converges (start : Option (List Reaction)) (changes changes' : List Reaction)
    (hone : OnePerKey keyOf (entries start))
    (hdistinct : ∀ c ∈ changes, ∀ c' ∈ changes, keyOf c = keyOf c' → c.at_.eq c'.at_ = true → c = c')
    (hsame : ∀ c, c ∈ changes ↔ c ∈ changes') :
    OnePerKey keyOf (entries (foldAll start changes)) ∧ ∀ k,
      entry (foldAll start changes) k = entry (foldAll start changes') k ∧
      Settled timeOf (held keyOf (entries start) k) (changesOf k changes) (held keyOf (entries (foldAll start changes)) k) ∧
      ((∀ r ∈ entries start, accepted r = true) → Greatest (candidates start changes k) (entry (foldAll start changes) k)) := by
  refine ⟨onePerKey_foldAll hone changes, fun k => ?_⟩
  have hsettled := settled_foldl timeOf (held keyOf (entries start) k) (changesOf k changes)
  have hsettled' := settled_foldl timeOf (held keyOf (entries start) k) (changesOf k changes')
  rw [← held_foldAll] at hsettled hsettled'
  have hinj : ∀ c ∈ changesOf k changes, ∀ c' ∈ changesOf k changes, timeOf c = timeOf c' → c = c' := by
    intro c hc c' hc' ht
    obtain ⟨hin, hacc, hk⟩ := mem_changesOf.mp hc
    obtain ⟨hin', hacc', hk'⟩ := mem_changesOf.mp hc'
    have hfin := isFinite_of_accepted hacc
    have hfin' := isFinite_of_accepted hacc'
    rw [timeOf_of_finite hfin, timeOf_of_finite hfin', WithBot.coe_inj] at ht
    refine hdistinct c hin c' hin' (hk.trans hk'.symm) ?_
    rw [F64.eq, F64.not_isNaN_of_isFinite hfin, F64.not_isNaN_of_isFinite hfin', ht]
    simp
  refine ⟨?_, hsettled, fun hstart => greatest_of_settled hone hstart hsettled⟩
  rw [entry, entry, hsettled.unique hinj (fun c => by rw [mem_changesOf, mem_changesOf, hsame]) hsettled']

def thumb (t : F64) (active : Bool) : Reaction := ⟨"👍", 1, t, active⟩

theorem thumb_at (t : F64) (active : Bool) : (thumb t active).at_ = t := rfl

theorem thumb_distinct {t t' : F64} {active active' : Bool} (hne : t.eq t' = false) (hne' : t'.eq t = false) :
    ∀ c ∈ [thumb t active, thumb t' active'], ∀ c' ∈ [thumb t active, thumb t' active'],
      keyOf c = keyOf c' → c.at_.eq c'.at_ = true → c = c' := by
  intro c hc c' hc' _ ht
  rw [List.mem_pair] at hc hc'
  rcases hc with rfl | rfl <;> rcases hc' with rfl | rfl
  · rfl
  · rw [thumb_at, thumb_at, hne] at ht
    cases ht
  · rw [thumb_at, thumb_at, hne'] at ht
    cases ht
  · rfl

theorem mem_redelivered {a b : Reaction} : c ∈ [a, b] ↔ c ∈ [b, a, b] := by
  simp only [List.mem_cons, List.not_mem_nil, or_false]
  tauto

theorem ofNat_eq_false {m n : Nat} (hm : m < 2 ^ 53) (hn : n < 2 ^ 53) (hne : m ≠ n) :
    (F64.ofNat m).eq (F64.ofNat n) = false := by
  rw [← Bool.not_eq_true, F64.ofNat_eq_iff hm hn]
  exact hne

/-- A reaction taken back at 6, delivered before the reaction itself, and again after it. -/
theorem fold_converges_retracted :
    entry (foldAll none [thumb (F64.ofNat 5) true, thumb (F64.ofNat 6) false]) (1, "👍") =
      entry (foldAll none [thumb (F64.ofNat 6) false, thumb (F64.ofNat 5) true, thumb (F64.ofNat 6) false]) (1, "👍") := by
  have h56 : (F64.ofNat 5).eq (F64.ofNat 6) = false := ofNat_eq_false (by decide) (by decide) (by decide)
  have h65 : (F64.ofNat 6).eq (F64.ofNat 5) = false := ofNat_eq_false (by decide) (by decide) (by decide)
  exact ((fold_converges none _ _ List.nodup_nil (thumb_distinct h56 h65) fun _ => mem_redelivered).2 (1, "👍")).1

theorem foldAll_older {t t' : F64} {active active' : Bool} (hfin : t.isFinite = true) (hle : t.le t' = true) :
    foldAll (some [thumb t' active']) [thumb t active] = some [thumb t' active'] := by
  have hheld : held keyOf (entries (some [thumb t' active'])) (keyOf (thumb t active)) = some (thumb t' active') := by
    simp [held, entries, thumb]
  have hnot : ¬ Newer timeOf (held keyOf (entries (some [thumb t' active'])) (keyOf (thumb t active))) (thumb t active) := by
    rw [hheld, newer_some]
    exact (le_iff_not_newer (thumb t' active') hfin).mp hle
  rw [foldAll, List.foldl_cons, List.foldl_nil, after, fold_eq, if_neg fun h => hnot h.2, Option.none_or]

theorem entry_thumb (t : F64) (active : Bool) : entry (some [thumb t active]) (1, "👍") = some (t, active) := by
  simp [entry, held, entries, thumb]

/-- An entry with no finite time stays, though the only entry with a finite time is another. -/
theorem endless_stays : OnePerKey keyOf (entries (some [thumb F64.infinity true])) ∧
    ¬ Greatest (candidates (some [thumb F64.infinity true]) [thumb (F64.ofNat 6) false] (1, "👍"))
      (entry (foldAll (some [thumb F64.infinity true]) [thumb (F64.ofNat 6) false]) (1, "👍")) := by
  have hle : (F64.ofNat 6).le F64.infinity = true := by decide +kernel
  have hfin : (F64.ofNat 6).isFinite = true := by decide +kernel
  have hinf : F64.infinity.isFinite = false := by decide +kernel
  refine ⟨List.nodup_singleton _, ?_⟩
  rw [foldAll_older hfin hle, entry_thumb]
  -- Every candidate has a finite time.
  rintro ⟨r, hr, he, -⟩
  have hr' := isFinite_of_accepted (mem_changesOf.mp hr).2.1
  rw [← (Prod.mk.inj he).1, hinf] at hr'
  cases hr'

end CitadelAgent.Conversations.Reactions
