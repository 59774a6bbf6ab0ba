import Mathlib

/-!
# A table that one entry of was written

* `of_update`, `of_update_some`, `of_update_none` : where what is found in it afterwards comes from.
-/

namespace CitadelAgent
open Function

section
variable {ι α : Type} [DecidableEq ι] {f : ι → Option α} {i j : ι} {a : α}

theorem of_update {x : Option α} (h : update f i x j = some a) : (j = i ∧ x = some a) ∨ j ≠ i ∧ f j = some a := by
  by_cases hji : j = i
  · rw [hji, update_self] at h
    exact .inl ⟨hji, h⟩
  · rw [update_of_ne hji] at h
    exact .inr ⟨hji, h⟩

theorem of_update_some {x : α} (h : update f i (some x) j = some a) : (j = i ∧ x = a) ∨ j ≠ i ∧ f j = some a :=
  (of_update h).imp_left fun ⟨hji, hx⟩ => ⟨hji, Option.some.inj hx⟩

theorem of_update_none (h : update f i none j = some a) : j ≠ i ∧ f j = some a :=
  (of_update h).resolve_left fun ⟨_, hx⟩ => nomatch hx

end

end CitadelAgent
