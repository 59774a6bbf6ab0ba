import Mathlib

/-!
# Pulled files a page may read

`citadel-internal-service/src/kernel/pulled_reads.rs`: which completed pulls a session may read back, by the name they were
pulled with.

* `PulledReads.record` : a completed pull, the sweep of expired records and the cap.
-/

namespace CitadelAgent.Transfers

abbrev Cid := UInt64

abbrev Uuid := Nat

/-- Nanoseconds, from some start. -/
abbrev Instant := Nat

abbrev PathBuf := List String

structure FileIdentity where
  volume : UInt64
  index : UInt64
  len : UInt64
  modified : Option Nat
  deriving DecidableEq

structure PulledKey where
  peerCid : Option Cid
  virtualDirectory : PathBuf
  deriving DecidableEq

structure PulledRead where
  saved : PathBuf
  identity : FileIdentity
  recordedAt : Instant
  generation : UInt64
  /-- Where the previous chunk ended. -/
  nextOffset : Option UInt64
  /-- When the read that holds this record began. -/
  inFlightSince : Option Instant

def PICKED_FILE_TTL : Nat := 30 * 60 * 1000000000

def MAX_PICKED_FILES : Nat := 64

structure PulledReads where
  entries : List (PulledKey × PulledRead)
  nextGeneration : UInt64

namespace PulledReads

def new : PulledReads := ⟨[], 0⟩

def evictOldest (entries : List (PulledKey × PulledRead)) : List (PulledKey × PulledRead) :=
  match entries.argmin fun entry => entry.2.recordedAt with
  | some oldest => entries.filter fun entry => entry.1 ≠ oldest.1
  | none => entries

/-- One pass of the loop for each record over the cap. -/
def evict : Nat → List (PulledKey × PulledRead) → List (PulledKey × PulledRead)
  | 0, entries => entries
  | excess + 1, entries => evict excess (evictOldest entries)

def record (reads : PulledReads) (key : PulledKey) (saved : PathBuf) (identity : FileIdentity) (now : Instant) :
    PulledReads :=
  let fresh := reads.entries.filter fun entry => now - entry.2.recordedAt < PICKED_FILE_TTL
  let generation := reads.nextGeneration + 1
  let entries := (key, ⟨saved, identity, now, generation, none, none⟩) :: fresh.filter fun entry => entry.1 ≠ key
  ⟨evict (entries.length - MAX_PICKED_FILES) entries, generation⟩

theorem evictOldest_subset (entries : List (PulledKey × PulledRead)) : evictOldest entries ⊆ entries := by
  unfold evictOldest
  split
  · exact List.filter_subset_self _
  · exact List.Subset.refl _

theorem evict_subset (excess : Nat) (entries : List (PulledKey × PulledRead)) : evict excess entries ⊆ entries := by
  induction excess generalizing entries with
  | zero => exact List.Subset.refl _
  | succ excess ih => exact List.Subset.trans (ih _) (evictOldest_subset entries)

theorem record_mem {reads : PulledReads} {key : PulledKey} {saved : PathBuf} {identity : FileIdentity} {now : Instant}
    {entry : PulledKey × PulledRead} (h : entry ∈ (reads.record key saved identity now).entries) :
    entry.1 = key ∧ entry.2.saved = saved ∨ entry ∈ reads.entries := by
  rcases List.mem_cons.mp (evict_subset _ _ h) with rfl | hold
  · exact .inl ⟨rfl, rfl⟩
  · exact .inr (List.mem_filter.mp (List.mem_filter.mp hold).1).1

end PulledReads

end CitadelAgent.Transfers
