import CitadelAgent.Transfers.Staging
import CitadelAgent.Lib.Places

/-!
# What staging keeps

* `State.At` : where a payload is: with the task of its first write, in a session's table, or about to be dropped;
* `Stored`, `Entered` : what holds of a first write, and of an upload in a table;
* `Inv` : of the whole state, with the bytes reserved and the root's cap;
* `Sinks` : no payload weighs more than before, so that what a scan of the root has counted still covers it.
-/

namespace CitadelAgent.Transfers.Staging
open Function Places

def Contiguous : Nat → List Chunk → Prop
  | _, [] => True
  | start, chunk :: chunks => chunk.offset = start ∧ Contiguous (start + chunk.data.length) chunks

instance Contiguous.decidable : ∀ start chunks, Decidable (Contiguous start chunks)
  | _, [] => isTrue trivial
  | start, chunk :: chunks =>
    have := Contiguous.decidable (start + chunk.data.length) chunks
    inferInstanceAs (Decidable (chunk.offset = start ∧ Contiguous (start + chunk.data.length) chunks))

/-- The file is the chunks, each where it belongs, and is of the declared size. -/
def Taken.Whole (taken : Taken) : Prop :=
  taken.file = some (contents taken.chunks) ∧ Contiguous 0 taken.chunks ∧ (contents taken.chunks).length = taken.upload.total

instance (taken : Taken) : Decidable taken.Whole := inferInstanceAs (Decidable (_ ∧ _ ∧ _))

theorem contents_append (chunks : List Chunk) (chunk : Chunk) : contents (chunks ++ [chunk]) = contents chunks ++ chunk.data := by
  rw [contents, List.flatMap_append, List.flatMap_singleton]
  rfl

theorem contents_singleton (chunk : Chunk) : contents [chunk] = chunk.data := List.flatMap_singleton _ _

theorem Contiguous.snoc {start : Nat} {chunks : List Chunk} (h : Contiguous start chunks) {chunk : Chunk}
    (hchunk : chunk.offset = start + (contents chunks).length) : Contiguous start (chunks ++ [chunk]) := by
  induction chunks generalizing start with
  | nil => exact ⟨hchunk, trivial⟩
  | cons first chunks ih =>
    refine ⟨h.1, ih h.2 ?_⟩
    rw [hchunk, contents, List.flatMap_cons, List.length_append, Nat.add_assoc]
    rfl

inductive Place
  | task (i : Nat)
  | entry (cid : Cid) (id : Uuid)
  | dropping

namespace State

def At (s : State) : Place → Nat → Prop
  | .task i, number => ∃ store, s.stores i = some store ∧ store.phase.number = some number
  | .entry cid id, number => ∃ upload, s.find cid id = some upload ∧ upload.number = number
  | .dropping, number => number ∈ s.dropping

def weight (s : State) (number : Nat) : Nat := s.payload number + s.reserved number

/-- What of it a scan is to count that has yet to read the directories of `unread`. -/
def counted (s : State) (unread : Nat → Bool) (number : Nat) : Nat :=
  s.reserved number + if unread number then 0 else s.payload number

def Within (s : State) (unread : Nat → Bool) (number bound : Nat) : Prop :=
  ∑ m ∈ Finset.range number, s.counted unread m ≤ bound

/-- Nothing of the payload is accepted yet, and all of it reserved. -/
structure Fresh (s : State) (number reserve : Nat) : Prop where
  reserved : s.reserved number = reserve
  chunks : s.chunks number = []

end State

def Stored (s : State) (store : Store) : Prop :=
  match store.phase with
  | .begun => True
  | .reserved number before => s.Fresh number store.reserve ∧ s.Within (fun _ => true) number before
  | .scanning number before listed seen onDisk => s.Fresh number store.reserve ∧
    (MAX_BROWSER_TRANSFER_TOTAL_BYTES < onDisk ∨ s.Within (fun m => m ∈ listed ∧ m ∉ seen) number (before + onDisk))
  | .admitted number => s.Fresh number store.reserve ∧ number ∈ s.admitted
  | .writing number rest => s.Fresh number store.reserve ∧ number ∈ s.admitted ∧
    ∀ file, s.files number = some file → store.data = file ++ rest
  | .failing _ _ => True
  | .closed number => s.reserved number + store.data.length = store.reserve ∧ s.chunks number = [⟨0, store.data⟩] ∧
    ∀ file, s.files number = some file → file = store.data
  | .refused number _ => ∀ n, number = some n → s.reserved n = 0

def Pending (s : State) (append : Append) : Prop :=
  ∀ file, s.files append.number = some file →
    match append.phase with
    | .opening => file = contents (s.chunks append.number)
    | .writing rest => ∃ done, append.data = done ++ rest ∧ file = contents (s.chunks append.number) ++ done
    | .failed _ => True

structure Entered (s : State) (upload : StagedUpload) : Prop where
  rest : upload.received + s.reserved upload.number = upload.total
  length : (contents (s.chunks upload.number)).length = upload.received
  order : Contiguous 0 (s.chunks upload.number)
  idle : upload.writing = false → ∀ file, s.files upload.number = some file → file = contents (s.chunks upload.number)
  one : ∀ i j a b, s.appends i = some a → s.appends j = some b → a.number = upload.number → b.number = upload.number → i = j
  pending : ∀ i append, s.appends i = some append → append.number = upload.number → upload.writing = true ∧
    append.offset = upload.received ∧ append.offset + append.data.length ≤ upload.total ∧ Pending s append

structure Inv (s : State) : Prop where
  single : Single s.At [] s.made
  spawned : ∀ i, s.spawned ≤ i → s.stores i = none ∧ s.appends i = none
  appended : ∀ i append, s.appends i = some append → append.number < s.made ∧ ∀ j, ¬ s.At (.task j) append.number
  unmade : ∀ n, s.made ≤ n → s.chunks n = [] ∧ s.reserved n = 0
  held : ∀ n, s.reserved n ≠ 0 → ∃ p, s.At p n
  kept : ∀ n file, s.files n = some file → contents (s.chunks n) <+: file
  sizes : ∀ i store, s.stores i = some store →
    store.data.length ≤ store.reserve ∧ store.reserve ≤ MAX_BROWSER_TRANSFER_TOTAL_BYTES
  stored : ∀ i store, s.stores i = some store → Stored s store
  entered : ∀ cid id upload, s.find cid id = some upload → Entered s upload
  taken : ∀ taken ∈ s.taken, taken.Whole
  bounded : ∀ n, s.reserved n ≤ MAX_BROWSER_TRANSFER_TOTAL_BYTES
  threads : s.closures.length ≤ MAX_BLOCKING_THREADS
  closures : ∀ n, s.reserved n ≠ 0 → n ∈ s.closures ∨ n ∈ s.admitted
  flight : s.inFlight = ∑ n ∈ Finset.range s.made, s.reserved n
  cap : ∀ n ∈ s.admitted, n < s.made ∧ ∑ m ∈ Finset.range (n + 1), s.weight m ≤ MAX_BROWSER_TRANSFER_TOTAL_BYTES

/-! ## Payloads that get no heavier -/

structure Sinks (s t : State) : Prop where
  made : s.made ≤ t.made
  reserved : ∀ n < s.made, t.reserved n ≤ s.reserved n
  weight : ∀ n < s.made, t.weight n ≤ s.weight n

variable {s t : State}

theorem Sinks.counted (h : Sinks s t) {n : Nat} (hn : n < s.made) (unread : Nat → Bool) : t.counted unread n ≤ s.counted unread n := by
  have hreserved := h.reserved n hn
  have hweight := h.weight n hn
  unfold State.weight at hweight
  unfold State.counted
  split_ifs <;> omega

theorem Sinks.within (h : Sinks s t) {unread : Nat → Bool} {n bound : Nat} (hn : n ≤ s.made) (hwithin : s.Within unread n bound) :
    t.Within unread n bound := by
  refine le_trans (Finset.sum_le_sum fun m hm => ?_) hwithin
  exact h.counted (lt_of_lt_of_le (Finset.mem_range.mp hm) hn) unread

theorem Sinks.cap (h : Sinks s t) {n : Nat} (hn : n < s.made)
    (hcap : ∑ m ∈ Finset.range (n + 1), s.weight m ≤ MAX_BROWSER_TRANSFER_TOTAL_BYTES) :
    ∑ m ∈ Finset.range (n + 1), t.weight m ≤ MAX_BROWSER_TRANSFER_TOTAL_BYTES := by
  refine le_trans (Finset.sum_le_sum fun m hm => h.weight m ?_) hcap
  have := Finset.mem_range.mp hm
  omega

/-- Nothing about the payload has changed, but that its file may be gone. -/
structure Agrees (s t : State) (n : Nat) : Prop where
  files : ∀ file, t.files n = some file → s.files n = some file
  chunks : t.chunks n = s.chunks n
  reserved : t.reserved n = s.reserved n

theorem Agrees.payload (h : Agrees s t n) : t.payload n ≤ s.payload n := by
  unfold State.payload
  rw [h.chunks]
  rcases Option.eq_none_or_eq_some (t.files n) with hfile | ⟨file, hfile⟩
  · rw [hfile]
    exact Nat.zero_le _
  · rw [hfile, h.files file hfile]

theorem Agrees.sinks (h : ∀ n, Agrees s t n) (hmade : s.made ≤ t.made) : Sinks s t where
  made := hmade
  reserved n _ := (h n).reserved.le
  weight n _ := Nat.add_le_add (h n).payload (h n).reserved.le

/-! ## Tasks and uploads that a step is not about -/

theorem State.Fresh.agrees {n reserve : Nat} (h : s.Fresh n reserve) (hagrees : Agrees s t n) : t.Fresh n reserve :=
  ⟨hagrees.reserved.trans h.reserved, hagrees.chunks.trans h.chunks⟩

theorem Stored.agrees {store : Store} (h : Stored s store) (hnumber : ∀ n, store.phase.number = some n → n < s.made ∧ Agrees s t n)
    (hsinks : Sinks s t) (hadmitted : ∀ n ∈ s.admitted, n ∈ t.admitted) : Stored t store := by
  obtain ⟨purpose, data, phase⟩ := store
  cases phase with
  | begun => exact trivial
  | reserved n before =>
    obtain ⟨hn, hag⟩ := hnumber n rfl
    exact ⟨h.1.agrees hag, hsinks.within hn.le h.2⟩
  | scanning n before listed seen onDisk =>
    obtain ⟨hn, hag⟩ := hnumber n rfl
    exact ⟨h.1.agrees hag, h.2.imp_right (hsinks.within hn.le)⟩
  | admitted n =>
    obtain ⟨-, hag⟩ := hnumber n rfl
    exact ⟨h.1.agrees hag, hadmitted n h.2⟩
  | writing n rest =>
    obtain ⟨-, hag⟩ := hnumber n rfl
    exact ⟨h.1.agrees hag, hadmitted n h.2.1, fun file hfile => h.2.2 file (hag.files file hfile)⟩
  | failing n reason => exact trivial
  | closed n =>
    obtain ⟨-, hag⟩ := hnumber n rfl
    obtain ⟨hreserved, hchunks, hfile⟩ := h
    refine ⟨?_, hag.chunks.trans hchunks, fun file hf => hfile file (hag.files file hf)⟩
    rw [hag.reserved]
    exact hreserved
  | refused number reason =>
    intro n hn
    rw [(hnumber n hn).2.reserved]
    exact h n hn

theorem Pending.agrees {append : Append} (h : Pending s append) (hagrees : Agrees s t append.number) : Pending t append := by
  intro file hfile
  rw [hagrees.chunks]
  exact h file (hagrees.files file hfile)

theorem Entered.agrees {upload : StagedUpload} (h : Entered s upload) (hagrees : Agrees s t upload.number)
    (happends : ∀ i append, t.appends i = some append → append.number = upload.number → s.appends i = some append) :
    Entered t upload where
  rest := by rw [hagrees.reserved, h.rest]
  length := by rw [hagrees.chunks, h.length]
  order := by rw [hagrees.chunks]; exact h.order
  idle hidle file hfile := by rw [hagrees.chunks]; exact h.idle hidle file (hagrees.files file hfile)
  one i j a b hi hj ha hb := h.one i j a b (happends i a hi ha) (happends j b hj hb) ha hb
  pending i append hi hnumber := by
    obtain ⟨hwriting, hoffset, hfits, hpending⟩ := h.pending i append (happends i append hi hnumber) hnumber
    refine ⟨hwriting, hoffset, hfits, hpending.agrees ?_⟩
    rw [hnumber]
    exact hagrees

end CitadelAgent.Transfers.Staging
