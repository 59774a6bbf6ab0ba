import CitadelAgent.Transfers.StagingChunks

/-!
# Staged uploads are whole and within the cap

* `State.Accounted` : what is to hold of every state;
* `staged_uploads_unaccounted` : an upload id used again during a write, and a directory removed before the upload is sent.
-/

namespace CitadelAgent.Transfers.Staging
open Function Machine

structure State.Accounted (s : State) : Prop where
  whole : ∀ taken ∈ s.taken, taken.Whole
  received : ∀ cid id upload, s.find cid id = some upload → upload.received ≤ upload.total
  inFlight : s.inFlight = ∑ n ∈ Finset.range s.made, s.reserved n
  live : ∀ n, s.reserved n ≠ 0 → ∃ p, s.At p n
  noUnderflow : ∀ n, s.reserved n ≤ s.inFlight
  cap : ∑ n ∈ (Finset.range s.made).filter (· ∈ s.admitted), (s.payload n + s.reserved n) ≤ MAX_BROWSER_TRANSFER_TOTAL_BYTES

variable {s : State}

theorem init_inv : Inv .init where
  single := by
    have hnone (p : Place) (n : Nat) : ¬ State.init.At p n := by
      rintro hp
      cases p with
      | task i =>
        obtain ⟨store, hi, -⟩ := hp
        exact nomatch hi
      | entry cid id =>
        obtain ⟨upload, hfind, -⟩ := hp
        exact nomatch hfind
      | dropping => exact List.not_mem_nil hp
    exact ⟨fun p _ n hp => (hnone p n hp).elim, fun p n hp => (hnone p n hp).elim, List.nodup_nil, fun _ hn => (List.not_mem_nil hn).elim⟩
  spawned _ _ := ⟨rfl, rfl⟩
  appended _ _ hi := nomatch hi
  unmade _ _ := ⟨rfl, rfl⟩
  held _ hn := absurd rfl hn
  kept _ _ hfile := nomatch hfile
  sizes _ _ hi := nomatch hi
  stored _ _ hi := nomatch hi
  entered _ _ _ hfind := nomatch hfind
  taken _ htaken := (List.not_mem_nil htaken).elim
  bounded _ := Nat.zero_le _
  threads := Nat.zero_le _
  closures _ hn := absurd rfl hn
  flight := rfl
  cap _ hn := (List.not_mem_nil hn).elim

theorem Inv.step (h : Inv s) (act : Act) (hmeets : s.Meets act) : Inv (s.step act) := by
  cases act with
  | connect cid => exact h.connect cid
  | sessionEnds cid => exact h.sessionEnds cid
  | stageChunk cid id total offset data now => exact h.stageChunk cid id total offset data now
  | sendBytes cid data => exact h.sendBytes cid data
  | reserve i ready => exact h.reserve i ready
  | list i => exact h.list i
  | read i n => exact h.read i n
  | decide i => exact h.decide i
  | create i => exact h.create i
  | write i count => exact h.write i count
  | fail i reason => exact h.fail i reason
  | finish i => exact h.finish i
  | settle i now => exact h.settle i now
  | openFile i => exact h.openFile i
  | appendBytes i count => exact h.appendBytes i count
  | appendFails i reason => exact h.appendFails i reason
  | land i => exact h.land hmeets
  | take cid id => exact h.take hmeets
  | drop number => exact h.drop number
  | removeDir number => exact h.removeDir number

theorem Inv.accounted (h : Inv s) : s.Accounted where
  whole := h.taken
  received cid id upload hfind := by
    have hrest := (h.entered cid id upload hfind).rest
    omega
  inFlight := h.flight
  live := h.held
  noUnderflow n := by
    rcases Nat.lt_or_ge n s.made with hn | hn
    · rw [h.flight]
      exact Finset.single_le_sum (fun m _ => Nat.zero_le (s.reserved m)) (Finset.mem_range.mpr hn)
    · rw [(h.unmade n hn).2]
      exact Nat.zero_le _
  cap := h.admitted_le

/-- Where each chunk is credited to the upload that it was written to, and an upload that is sent still has its file,
staged uploads are whole, and their bytes within the cap. -/
theorem staged_uploads_accounted (run : Reaches State.step State.Meets (· = State.init) s) : s.Accounted := by
  have hinv := run.invariant (fun s hs => by rw [hs]; exact init_inv) fun s act hs hmeets => Inv.step hs act hmeets
  exact hinv.accounted

/-- The steps of a first write by the task `i`, with the directories `dirs` in the root. -/
def firstWrite (i : Nat) (dirs : List Nat) (now : Instant) : List Act :=
  [.reserve i (.ok ()), .list i] ++ dirs.map (Act.read i) ++ [.decide i, .create i, .write i 2, .finish i, .settle i now]

def sentUpload : List Act :=
  [.connect 1, .stageChunk 1 7 3 0 [1, 2] 0] ++ firstWrite 0 [] 0 ++
    [.stageChunk 1 7 3 2 [3] 0, .openFile 1, .appendBytes 1 1, .land 1, .take 1 7]

theorem staged_uploads_accounted_sent :
    (sentUpload.foldl State.step .init).Accounted ∧
      ((sentUpload.foldl State.step .init).taken.map fun taken => taken.file) = [some [1, 2, 3]] := by
  have hmeets : AllMeet State.step State.Meets .init sentUpload := by decide +kernel
  exact ⟨staged_uploads_accounted (reaches_foldl hmeets), by decide +kernel⟩

/-- The second chunk of an upload is being written when the upload is pruned, and its id is used again. -/
def reusedId : List Act :=
  [.connect 1, .stageChunk 1 7 2 0 [1] 0] ++ firstWrite 0 [] 0 ++
    [.stageChunk 1 7 2 1 [2] 0, .stageChunk 1 7 2 0 [3] TEMP_FILE_TTL] ++ firstWrite 2 [0] TEMP_FILE_TTL ++
    [.openFile 1, .appendBytes 1 1, .land 1, .take 1 7]

def timedOut : List Act :=
  [.connect 1, .stageChunk 1 7 1 0 [1] 0] ++ firstWrite 0 [] 0 ++ [.removeDir 0, .take 1 7]

theorem staged_uploads_unaccounted :
    (¬ (reusedId.foldl State.step .init).Accounted ∧
      ((reusedId.foldl State.step .init).taken.map fun taken => (taken.file, taken.upload.total)) = [(some [3], 2)]) ∧
    ¬ (timedOut.foldl State.step .init).Accounted ∧
      ((timedOut.foldl State.step .init).taken.map fun taken => (taken.file, taken.upload.total)) = [(none, 1)] := by
  refine ⟨⟨fun h => ?_, by decide +kernel⟩, fun h => ?_, by decide +kernel⟩
  · have hbroken : ¬ ∀ taken ∈ (reusedId.foldl State.step .init).taken, taken.Whole := by decide +kernel
    exact hbroken h.whole
  · have hbroken : ¬ ∀ taken ∈ (timedOut.foldl State.step .init).taken, taken.Whole := by decide +kernel
    exact hbroken h.whole

end CitadelAgent.Transfers.Staging
