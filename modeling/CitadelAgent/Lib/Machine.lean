import Mathlib

/-!
# Runs of a machine

A machine is a function from a state and an act to the next state; an act that is not possible leaves the state as it is.

* `Reaches step meets start` : the states of the runs whose steps all meet a condition on the state before them;
* `Reaches.invariant` : what the first state satisfies and every such step keeps holds of all of them;
* `reaches_foldl` : the runs of given acts.
-/

namespace Machine

variable {σ α : Type} {step : σ → α → σ} {meets meets' : σ → α → Prop} {start : σ → Prop}

inductive Reaches (step : σ → α → σ) (meets : σ → α → Prop) (start : σ → Prop) : σ → Prop
  | start {s : σ} (h : start s) : Reaches step meets start s
  | step {s : σ} (run : Reaches step meets start s) (act : α) (met : meets s act) : Reaches step meets start (step s act)

theorem Reaches.invariant {I : σ → Prop} (hstart : ∀ s, start s → I s)
    (hstep : ∀ s act, I s → meets s act → I (step s act)) {s : σ} (run : Reaches step meets start s) : I s := by
  induction run with
  | start h => exact hstart _ h
  | step _ act met ih => exact hstep _ act ih met

theorem Reaches.mono (h : ∀ s act, meets s act → meets' s act) {s : σ} (run : Reaches step meets start s) :
    Reaches step meets' start s := by
  induction run with
  | start h => exact .start h
  | step _ act met ih => exact .step ih act (h _ _ met)

def AllMeet (step : σ → α → σ) (meets : σ → α → Prop) : σ → List α → Prop
  | _, [] => True
  | s, act :: acts => meets s act ∧ AllMeet step meets (step s act) acts

instance AllMeet.decidable [∀ s act, Decidable (meets s act)] : ∀ s acts, Decidable (AllMeet step meets s acts)
  | _, [] => isTrue trivial
  | s, act :: acts =>
    have := AllMeet.decidable (step s act) acts
    inferInstanceAs (Decidable (meets s act ∧ AllMeet step meets (step s act) acts))

theorem Reaches.foldl {s : σ} (run : Reaches step meets start s) {acts : List α} (h : AllMeet step meets s acts) :
    Reaches step meets start (acts.foldl step s) := by
  induction acts generalizing s with
  | nil => exact run
  | cons act acts ih => exact ih (.step run act h.1) h.2

theorem AllMeet.mid {s : σ} {before after : List α} {act : α} (h : AllMeet step meets s (before ++ act :: after)) :
    meets (before.foldl step s) act := by
  induction before generalizing s with
  | nil => exact h.1
  | cons a before ih => exact ih h.2

theorem allMeet_of_forall (h : ∀ s act, meets s act) (s : σ) (acts : List α) : AllMeet step meets s acts := by
  induction acts generalizing s with
  | nil => exact trivial
  | cons act acts ih => exact ⟨h s act, ih _⟩

theorem reaches_foldl {init : σ} {acts : List α} (h : AllMeet step meets init acts) :
    Reaches step meets (· = init) (acts.foldl step init) := by
  have run : Reaches step meets (· = init) init := .start rfl
  exact run.foldl h

end Machine
