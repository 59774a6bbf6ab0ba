import Mathlib

/-!
# A list cut into chunks

`List.toChunks` cuts a list into pieces of one size, the last of which may be shorter.

* `flatten_toChunks` : nothing is lost;
* `of_mem_toChunks` : every piece holds something, and no more than the size.
-/

namespace Chunks

variable {α : Type}

theorem flatten_go (n : Nat) (xs : List α) (chunk : Array α) (chunks : Array (List α)) :
    (List.toChunks.go n xs chunk chunks).flatten = chunks.toList.flatten ++ (chunk.toList ++ xs) := by
  induction xs generalizing chunk chunks with
  | nil => simp [List.toChunks.go]
  | cons x xs ih =>
      unfold List.toChunks.go
      split
      · rw [ih]
        simp
      · rw [ih]
        simp

theorem flatten_toChunks (n : Nat) (xs : List α) : (xs.toChunks n).flatten = xs := by
  cases xs with
  | nil => simp [List.toChunks]
  | cons x xs =>
      cases n with
      | zero => simp [List.toChunks]
      | succ n =>
          rw [List.toChunks, flatten_go]
          · simp
          · simp

def Fits (n : Nat) (piece : List α) : Prop := piece ≠ [] ∧ piece.length ≤ n

theorem fits_go {n : Nat} (hn : 0 < n) (xs : List α) (chunk : Array α) (chunks : Array (List α))
    (hchunk : Fits n chunk.toList) (hchunks : ∀ piece ∈ chunks, Fits n piece) :
    ∀ piece ∈ List.toChunks.go n xs chunk chunks, Fits n piece := by
  have hpushed : ∀ piece ∈ chunks.push chunk.toList, Fits n piece := by
    intro piece hpiece
    rcases Array.mem_push.mp hpiece with h | rfl
    · exact hchunks piece h
    · exact hchunk
  induction xs generalizing chunk chunks with
  | nil =>
      intro piece hpiece
      rw [List.toChunks.go] at hpiece
      exact hpushed piece (by simpa using hpiece)
  | cons x xs ih =>
      unfold List.toChunks.go
      split
      case isTrue =>
        have hone : Fits n ((Array.mkEmpty n).push x).toList := ⟨by simp, by simp; omega⟩
        refine ih _ _ hone hpushed (fun piece hpiece => ?_)
        rcases Array.mem_push.mp hpiece with h | rfl
        · exact hpushed piece h
        · exact hone
      case isFalse hsize =>
        have hmore : Fits n (chunk.push x).toList := by
          have hle := hchunk.2
          rw [Array.length_toList] at hle
          rw [beq_iff_eq] at hsize
          refine ⟨by simp, ?_⟩
          rw [Array.length_toList, Array.size_push]
          omega
        refine ih _ _ hmore hchunks (fun piece hpiece => ?_)
        rcases Array.mem_push.mp hpiece with h | rfl
        · exact hchunks piece h
        · exact hmore

theorem of_mem_toChunks {n : Nat} (hn : 0 < n) {xs piece : List α} (h : piece ∈ xs.toChunks n) : Fits n piece := by
  cases xs with
  | nil => simp [List.toChunks] at h
  | cons x xs =>
      cases n with
      | zero => exact absurd hn (Nat.lt_irrefl 0)
      | succ n =>
          rw [List.toChunks] at h
          · exact fits_go hn xs #[x] #[] ⟨by simp, by simp⟩ (by simp) piece h
          · simp

end Chunks
