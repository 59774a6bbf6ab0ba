import Mathlib

/-!
# Registers the last writer wins

A register holds the newest value written to it, by rank; what is held stays when ranks are equal.

* `write`, `Settled` : one write, and what any number of them come to;
* `settled_foldl`, `Settled.unique` : writes come to that, whatever their order and however often each is repeated;
* `held`, `put`, `OnePerKey` : one register for each key, as a list of entries.
-/

namespace LastWriter

variable {α β κ : Type} [LinearOrder β] {rank : α → β}

def Newer (rank : α → β) (held : Option α) (c : α) : Prop := ∀ h ∈ held, rank h < rank c

theorem newer_some {h c : α} : Newer rank (some h) c ↔ rank h < rank c := by simp [Newer]

instance (held : Option α) (c : α) : Decidable (Newer rank held c) :=
  match held with
  | none => isTrue nofun
  | some h => decidable_of_iff (rank h < rank c) newer_some.symm

def write (rank : α → β) (held : Option α) (c : α) : Option α := if Newer rank held c then some c else held

/-- What is held after the writes `cs`: what was held, if none of them is newer, and else a newest of them. -/
def Settled (rank : α → β) (start : Option α) (cs : List α) (result : Option α) : Prop :=
  (result = start ∧ ∀ c ∈ cs, ¬ Newer rank start c) ∨
    ∃ c ∈ cs, result = some c ∧ Newer rank start c ∧ ∀ c' ∈ cs, rank c' ≤ rank c

theorem Newer.trans {held : Option α} {c c' : α} (h : Newer rank held c) (hle : rank c ≤ rank c') : Newer rank held c' :=
  fun x hx => (h x hx).trans_le hle

variable (rank) in
theorem settled_foldl (start : Option α) (cs : List α) : Settled rank start cs (cs.foldl (write rank) start) := by
  induction cs using List.reverseRecOn with
  | nil => exact .inl ⟨rfl, fun c hc => nomatch hc⟩
  | append_singleton cs c ih =>
    rw [List.foldl_append, List.foldl_cons, List.foldl_nil]
    generalize cs.foldl (write rank) start = held at ih ⊢
    rcases ih with ⟨rfl, hnone⟩ | ⟨w, hw, rfl, hnewer, hmax⟩
    · by_cases hc : Newer rank held c
      · rw [write, if_pos hc]
        refine .inr ⟨c, by simp, rfl, hc, fun c' hc' => ?_⟩
        rcases List.mem_append.mp hc' with hold | hnew
        · -- An earlier write that was not newer than what is held is not newer than this one.
          by_contra hlt
          exact hnone c' hold (hc.trans (not_le.mp hlt).le)
        · rw [List.mem_singleton.mp hnew]
      · rw [write, if_neg hc]
        refine .inl ⟨rfl, fun c' hc' => ?_⟩
        rcases List.mem_append.mp hc' with hold | hnew
        · exact hnone c' hold
        · rw [List.mem_singleton.mp hnew]
          exact hc
    · by_cases hc : rank w < rank c
      · rw [write, if_pos (newer_some.mpr hc)]
        refine .inr ⟨c, by simp, rfl, hnewer.trans hc.le, fun c' hc' => ?_⟩
        rcases List.mem_append.mp hc' with hold | hnew
        · exact (hmax c' hold).trans hc.le
        · rw [List.mem_singleton.mp hnew]
      · rw [write, if_neg (mt newer_some.mp hc)]
        refine .inr ⟨w, List.mem_append_left _ hw, rfl, hnewer, fun c' hc' => ?_⟩
        rcases List.mem_append.mp hc' with hold | hnew
        · exact hmax c' hold
        · rw [List.mem_singleton.mp hnew]
          exact not_lt.mp hc

theorem Settled.unique {start r r' : Option α} {cs cs' : List α} (hinj : ∀ c ∈ cs, ∀ c' ∈ cs, rank c = rank c' → c = c')
    (hmem : ∀ c, c ∈ cs ↔ c ∈ cs') (h : Settled rank start cs r) (h' : Settled rank start cs' r') : r = r' := by
  rcases h with ⟨rfl, hnone⟩ | ⟨w, hw, rfl, hnewer, hmax⟩
  · rcases h' with ⟨rfl, -⟩ | ⟨w', hw', -, hnewer', -⟩
    · rfl
    · exact absurd hnewer' (hnone w' ((hmem w').mpr hw'))
  · rcases h' with ⟨-, hnone'⟩ | ⟨w', hw', rfl, -, hmax'⟩
    · exact absurd hnewer (hnone' w ((hmem w).mp hw))
    · have hw'' := (hmem w').mpr hw'
      rw [hinj w hw w' hw'' (le_antisymm (hmax' w ((hmem w).mp hw)) (hmax w' hw''))]

/-! ## A list of registers -/

variable [DecidableEq κ] {key : α → κ} {list : List α}

/-- What the register of `k` holds. -/
def held (key : α → κ) (list : List α) (k : κ) : Option α := list.find? fun r => key r = k

/-- No two entries have one key. -/
def OnePerKey (key : α → κ) (list : List α) : Prop := (list.map key).Nodup

/-- The entry in the place of the one of its key, or after the others when there is none. -/
def put (key : α → κ) (list : List α) (c : α) : List α :=
  if (held key list (key c)).isSome then list.map fun r => if key r = key c then c else r else list ++ [c]

theorem held_put (list : List α) (c : α) (k : κ) :
    held key (put key list c) k = if key c = k then some c else held key list k := by
  unfold put
  split_ifs with hsome hk
  · subst hk
    -- The first entry of the key is now `c`.
    unfold held at hsome ⊢
    induction list with
    | nil => cases hsome
    | cons r rest ih =>
      by_cases hr : key r = key c
      · simp [hr]
      · rw [List.find?_cons_of_neg (by simpa using hr)] at hsome
        rw [List.map_cons, if_neg hr, List.find?_cons_of_neg (by simpa using hr), ih hsome]
  · unfold held
    clear * - hk
    induction list with
    | nil => rfl
    | cons r rest ih =>
      by_cases hr : key r = key c
      · have hrk : key r ≠ k := hr ▸ hk
        rw [List.map_cons, if_pos hr, List.find?_cons_of_neg (by simpa using hk),
          List.find?_cons_of_neg (by simpa using hrk), ih]
      · rw [List.map_cons, if_neg hr, List.find?_cons, List.find?_cons, ih]
  · rename_i hk
    subst hk
    have hnone : list.find? (fun r => key r = key c) = none := Option.not_isSome_iff_eq_none.mp hsome
    simp [held, List.find?_append, hnone]
  · rename_i hk
    simp [held, List.find?_append, hk]

theorem onePerKey_put (h : OnePerKey key list) (c : α) : OnePerKey key (put key list c) := by
  unfold put
  split_ifs with hsome
  · have hkeys : (list.map fun r => if key r = key c then c else r).map key = list.map key := by
      rw [List.map_map]
      refine List.map_congr_left fun r _ => ?_
      by_cases hr : key r = key c
      · simp [hr]
      · simp [hr]
    rw [OnePerKey, hkeys]
    exact h
  · have hnone : ∀ r ∈ list, key r ≠ key c := by
      have hfind : list.find? (fun r => key r = key c) = none := Option.not_isSome_iff_eq_none.mp hsome
      simpa using hfind
    rw [OnePerKey, List.map_append, List.nodup_append]
    refine ⟨h, by simp, fun k hk k' hk' => ?_⟩
    obtain ⟨r, hr, rfl⟩ := List.mem_map.mp hk
    obtain ⟨r', hr', rfl⟩ := List.mem_map.mp hk'
    rw [List.mem_singleton.mp hr']
    exact hnone r hr

end LastWriter
