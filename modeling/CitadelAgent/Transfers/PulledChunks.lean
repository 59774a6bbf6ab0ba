import CitadelAgent.Lib.Machine
import CitadelAgent.Lib.Result
import CitadelAgent.Transfers.StagedUploads

/-!
# Reading a pulled file, chunk by chunk

`citadel-internal-service/src/kernel/pulled_reads.rs`, and of `kernel/requests/file/read_pulled.rs` the read between
`begin_read` and `settle`, during which others may begin.

* `Inv.act` : what a step keeps if no read settles after its timeout;
* `pulled_in_order` : so the chunks of a pull go in order.
-/

namespace CitadelAgent.Transfers.PulledReads
open Function
open Result (bind_eq_ok)

def MAX_READ_CHUNK_BYTES : Nat := 1024 * 1024

def READ_IN_FLIGHT_TIMEOUT : Nat := 30 * 1000000000

structure ReadTicket where
  saved : PathBuf
  identity : FileIdentity
  generation : UInt64

def get (reads : PulledReads) (key : PulledKey) : Option PulledRead := (reads.entries.find? (·.1 = key)).map (·.2)

/-- `get_mut`, and what is written through it. -/
def put (reads : PulledReads) (key : PulledKey) (read : PulledRead) : PulledReads :=
  { reads with entries := reads.entries.map fun entry => if entry.1 = key then (key, read) else entry }

def beginRead (reads : PulledReads) (key : PulledKey) (offset : UInt64) (maxLen : Nat) (now : Instant) :
    Except String (ReadTicket × PulledReads) :=
  let name := "/".intercalate key.virtualDirectory
  if maxLen = 0 ∨ maxLen > MAX_READ_CHUNK_BYTES then
    .error s!"max_len must be between 1 and {MAX_READ_CHUNK_BYTES} bytes, not {maxLen}"
  else match reads.get key with
    | none => .error s!"{name} has not been pulled to this agent by this session; pull it first (DownloadFile)"
    | some read =>
      if now - read.recordedAt ≥ PICKED_FILE_TTL then .error s!"the pull of {name} has expired; pull it again (DownloadFile)"
      else if offset ≠ 0 ∧ read.nextOffset ≠ some offset then
        .error (match read.nextOffset with
          | some next => s!"offset {offset} is out of order: the next chunk is at {next}"
          | none => s!"offset {offset} is out of order: a read starts at 0")
      else if read.inFlightSince.any fun since => now - since < READ_IN_FLIGHT_TIMEOUT then
        .error s!"a read of {name} is already in progress; wait for its answer"
      else .ok (⟨read.saved, read.identity, read.generation⟩, reads.put key { read with inFlightSince := some now })

/-- `checked_add` -/
def chunkEnd (offset : UInt64) (len : Nat) : Option UInt64 :=
  if offset.toNat + len < 2 ^ 64 then some (.ofNat (offset.toNat + len)) else none

def settle (reads : PulledReads) (key : PulledKey) (generation : UInt64) (landed : Option (UInt64 × Nat)) : PulledReads :=
  match reads.get key with
  | none => reads
  | some read =>
    if read.generation ≠ generation then reads
    else reads.put key { read with
      inFlightSince := none
      nextOffset := match landed with | some (offset, len) => chunkEnd offset len | none => read.nextOffset }

def planChunk (total offset maxLen : Nat) : Except String Nat :=
  if total > MAX_BROWSER_TRANSFER_TOTAL_BYTES then
    .error s!"the file is {total} bytes, over the {MAX_BROWSER_TRANSFER_TOTAL_BYTES} bytes a page may read"
  else if offset > total ∨ offset = total ∧ total > 0 then .error s!"offset {offset} is past the end of the {total} byte file"
  else .ok (min (total - offset) maxLen)

structure Disk where
  root : Except String PathBuf
  path : Except String PathBuf
  opened : Except String Unit
  /-- Whether it is a regular file and no reparse point, and its size. -/
  metadata : Except String (Bool × Nat)
  identity : Except String FileIdentity

/-- `read_confined` up to its read: the size of the file, and the offset and the number of bytes it asks for. -/
def readConfined (disk : Disk) (expected : FileIdentity) (offset maxLen : Nat) : Except String (Nat × Nat × Nat) :=
  match disk.root, disk.path with
  | .error e, _ => .error s!"the agent's transfer directory is unavailable: {e}"
  | .ok _, .error e => .error s!"the pulled file is gone: {e}"
  | .ok root, .ok path =>
    if root.isPrefixOf path = false then .error "the pulled file is outside the agent's transfer directory"
    else match disk.opened, disk.metadata, disk.identity with
      | .error e, _, _ => .error s!"could not open the pulled file: {e}"
      | .ok (), .error e, _ => .error s!"could not read the pulled file: {e}"
      | .ok (), .ok (false, _), _ => .error "the pulled file is not a regular file"
      | .ok (), .ok (true, _), .error e => .error s!"could not identify the pulled file: {e}"
      | .ok (), .ok (true, total), .ok identity =>
        if identity ≠ expected then
          .error "the pulled file was replaced after this session pulled it; pull it again (DownloadFile)"
        else (planChunk total offset maxLen).map (total, offset, ·)

/-! ## Sessions that read -/

structure Reading where
  key : PulledKey
  generation : UInt64
  offset : UInt64
  began : Instant

structure World where
  reads : PulledReads
  now : Instant
  inFlight : List Reading
  /-- The chunks noted for a pull since the last that landed at 0, the newest first. -/
  landed : PulledKey × UInt64 → List (Nat × Nat)

inductive ReadAct
  | wait (time : Nat)
  | record (key : PulledKey) (saved : PathBuf) (identity : FileIdentity)
  | begin (key : PulledKey) (offset : UInt64) (maxLen : Nat)
  /-- The read at this place in `inFlight` ends, with so many bytes if it succeeded. -/
  | settle (i : Nat) (len : Option Nat)

/-- Whether its pull is the one recorded. -/
def World.Current (w : World) (r : Reading) : Prop := (w.reads.get r.key).any (·.generation = r.generation) = true

instance (w : World) (r : Reading) : Decidable (w.Current r) := inferInstanceAs (Decidable (_ = true))

def World.Live (w : World) (r : Reading) : Prop := w.now < r.began + READ_IN_FLIGHT_TIMEOUT

instance (w : World) (r : Reading) : Decidable (w.Live r) := inferInstanceAs (Decidable (_ < _))

def World.act (w : World) : ReadAct → World
  | .wait time => { w with now := w.now + time }
  | .record key saved identity => { w with reads := w.reads.record key saved identity w.now }
  | .begin key offset maxLen =>
    match w.reads.beginRead key offset maxLen w.now with
    | .error _ => w
    | .ok (ticket, reads) => { w with reads, inFlight := ⟨key, ticket.generation, offset, w.now⟩ :: w.inFlight }
  | .settle i len =>
    match w.inFlight[i]? with
    | none => w
    | some r => { w with
        reads := w.reads.settle r.key r.generation (len.map (r.offset, ·))
        inFlight := w.inFlight.eraseIdx i
        landed := match len with
          | some len => if w.Current r then update w.landed (r.key, r.generation)
              ((r.offset.toNat, len) :: if r.offset = 0 then [] else w.landed (r.key, r.generation)) else w.landed
          | none => w.landed }

/-- No generation is given twice, and a read whose pull is the recorded one settles before its timeout. -/
def Timely (w : World) : ReadAct → Prop
  | .record .. => w.reads.nextGeneration ≠ -1
  | .settle i _ => ∀ r ∈ w.inFlight[i]?, w.Current r → w.Live r
  | _ => True

/-- Chunks, the newest first, that go from 0 to `n`. -/
inductive InOrder : List (Nat × Nat) → Nat → Prop
  | nil : InOrder [] 0
  | cons {chunks : List (Nat × Nat)} {n : Nat} (h : InOrder chunks n) (len : Nat) : InOrder ((n, len) :: chunks) (n + len)

structure Ordered (w : World) : Prop where
  contiguous : ∀ pull, ∃ n, InOrder (w.landed pull) n
  single : w.inFlight.Pairwise fun r r' => r.key = r'.key → r.generation = r'.generation → ¬ (w.Live r ∧ w.Live r')
  bounded : w.reads.entries.length ≤ MAX_PICKED_FILES

/-! ## What a step keeps -/

variable {key : PulledKey} {reads : PulledReads}

theorem get_mem {read : PulledRead} (h : reads.get key = some read) :
    (key, read) ∈ reads.entries := by
  obtain ⟨entry, hfind, rfl⟩ := Option.map_eq_some_iff.mp h
  obtain rfl : entry.1 = key := by simpa using List.find?_some hfind
  exact List.mem_of_find?_eq_some hfind

theorem put_mem {read : PulledRead} {entry : PulledKey × PulledRead}
    (h : entry ∈ (reads.put key read).entries) : entry = (key, read) ∨ entry ∈ reads.entries ∧ entry.1 ≠ key := by
  obtain ⟨old, hold, rfl⟩ := List.mem_map.mp h
  split_ifs with hkey
  · exact .inl rfl
  · exact .inr ⟨hold, hkey⟩

theorem beginRead_ok {reads' : PulledReads} {offset : UInt64} {maxLen : Nat} {now : Instant} {ticket : ReadTicket}
    (h : reads.beginRead key offset maxLen now = .ok (ticket, reads')) :
    ∃ read, reads.get key = some read ∧ now - read.recordedAt < PICKED_FILE_TTL ∧
      (offset = 0 ∨ read.nextOffset = some offset) ∧
      (∀ since ∈ read.inFlightSince, since + READ_IN_FLIGHT_TIMEOUT ≤ now) ∧
      ticket.generation = read.generation ∧ reads' = reads.put key { read with inFlightSince := some now } := by
  simp only [beginRead] at h
  split at h
  · cases h
  split at h
  · cases h
  rename_i read hget
  split_ifs at h with hfresh horder hbusy
  cases h
  refine ⟨read, hget, Nat.lt_of_not_le hfresh, by tauto, fun since hsince => ?_, rfl, rfl⟩
  rw [Option.mem_def.mp hsince] at hbusy
  have hlong : ¬ now - since < READ_IN_FLIGHT_TIMEOUT := by simpa using hbusy
  have hlong := Nat.not_lt.mp hlong
  have hlt : since < now := Nat.lt_of_sub_pos ((by decide : 0 < READ_IN_FLIGHT_TIMEOUT).trans_le hlong)
  exact Nat.add_comm _ _ ▸ Nat.add_le_of_le_sub hlt.le hlong

theorem length_evict (excess : Nat) (entries : List (PulledKey × PulledRead)) :
    (evict excess entries).length ≤ entries.length - excess := by
  induction excess generalizing entries with
  | zero => exact Nat.le_refl _
  | succ excess ih =>
    have hone : (evictOldest entries).length ≤ entries.length - 1 := by
      unfold evictOldest
      split
      · rename_i oldest holdest
        have hmem := List.argmin_mem holdest
        have := List.length_filter_lt_length_iff_exists (p := fun entry => decide (entry.1 ≠ oldest.1)).mpr
          ⟨oldest, hmem, by simp⟩
        omega
      · rename_i hnone
        rw [List.argmin_eq_none.mp hnone]
        rfl
    exact (ih _).trans (by omega)

structure Inv (w : World) : Prop extends Ordered w where
  given : (∀ entry ∈ w.reads.entries, entry.2.generation.toNat ≤ w.reads.nextGeneration.toNat) ∧
    ∀ r ∈ w.inFlight, r.generation.toNat ≤ w.reads.nextGeneration.toNat
  /-- A read that is not abandoned holds its record, and goes on where the record is. -/
  held : ∀ entry ∈ w.reads.entries, ∀ r ∈ w.inFlight, r.key = entry.1 → r.generation = entry.2.generation → w.Live r →
    entry.2.inFlightSince = some r.began ∧ (r.offset = 0 ∨ entry.2.nextOffset = some r.offset)
  next : ∀ entry ∈ w.reads.entries, ∀ n, entry.2.nextOffset = some n →
    InOrder (w.landed (entry.1, entry.2.generation)) n.toNat

variable {w : World}

theorem Inv.wait (h : Inv w) (time : Nat) : Inv (w.act (.wait time)) := by
  have hlive : ∀ {r}, (w.act (.wait time)).Live r → w.Live r := fun hr => lt_of_le_of_lt (Nat.le_add_right _ _) hr
  exact { h with
    single := h.single.imp fun hr hkey hgen hboth => hr hkey hgen ⟨hlive hboth.1, hlive hboth.2⟩
    held := fun entry hentry r hr hkey hgen hlives => h.held entry hentry r hr hkey hgen (hlive hlives) }

theorem Inv.record (h : Inv w) {saved : PathBuf} {identity : FileIdentity}
    (hgen : w.reads.nextGeneration ≠ -1) : Inv (w.act (.record key saved identity)) := by
  have hlt : w.reads.nextGeneration.toNat < (w.reads.nextGeneration + 1).toNat := by
    have hne : w.reads.nextGeneration.toNat ≠ 2 ^ 64 - 1 := fun heq => hgen (UInt64.toNat_inj.mp heq)
    have := w.reads.nextGeneration.toNat_lt
    rw [UInt64.toNat_add, UInt64.toNat_one]
    omega
  have hmem : ∀ {entry}, entry ∈ (w.act (.record key saved identity)).reads.entries →
      entry = (key, ⟨saved, identity, w.now, w.reads.nextGeneration + 1, none, none⟩) ∨ entry ∈ w.reads.entries :=
    fun hentry => (List.mem_cons.mp (evict_subset _ _ hentry)).imp_right fun hold =>
      (List.mem_filter.mp (List.mem_filter.mp hold).1).1
  refine ⟨⟨h.contiguous, h.single, ?_⟩, ⟨fun entry hentry => ?_, fun r hr => ?_⟩,
    fun entry hentry r hr hkey heq hlive => ?_, fun entry hentry n hn => ?_⟩
  · refine (length_evict _ _).trans ?_
    omega
  · rcases hmem hentry with rfl | hold
    · exact le_rfl
    · exact (h.given.1 entry hold).trans hlt.le
  · exact (h.given.2 r hr).trans hlt.le
  · rcases hmem hentry with rfl | hold
    · have hle := h.given.2 r hr
      rw [heq] at hle
      exact absurd hle (Nat.not_le.mpr hlt)
    · exact h.held entry hold r hr hkey heq hlive
  · rcases hmem hentry with rfl | hold
    · cases hn
    · exact h.next entry hold n hn

theorem Inv.begin (h : Inv w) (key : PulledKey) (offset : UInt64) (maxLen : Nat) :
    Inv (w.act (.begin key offset maxLen)) := by
  cases hbegin : w.reads.beginRead key offset maxLen w.now with
  | error e => rwa [World.act, hbegin]
  | ok answer =>
    obtain ⟨ticket, reads⟩ := answer
    obtain ⟨read, hget, -, horder, hbusy, hticket, rfl⟩ := beginRead_ok hbegin
    rw [World.act, hbegin]
    -- a read that holds the record has not run into its timeout
    have hnone : ∀ r ∈ w.inFlight, r.key = key → r.generation = read.generation → ¬ w.Live r := fun r hr hkey hgen hlive =>
      absurd (hbusy r.began (h.held (key, read) (get_mem hget) r hr hkey hgen hlive).1) (Nat.not_le.mpr hlive)
    refine ⟨⟨h.contiguous, List.pairwise_cons.mpr ⟨fun r hr hkey hgen hboth => ?_, h.single⟩, ?_⟩,
      ⟨fun entry hentry => ?_, fun r hr => ?_⟩, fun entry hentry r hr hkey hgen hlive => ?_, fun entry hentry n hn => ?_⟩
    · exact hnone r hr hkey.symm (hgen.symm.trans hticket) hboth.2
    · exact (List.length_map _).trans_le h.bounded
    · rcases put_mem hentry with rfl | ⟨hold, -⟩
      · exact h.given.1 (key, read) (get_mem hget)
      · exact h.given.1 entry hold
    · rcases List.mem_cons.mp hr with rfl | hr
      · exact hticket ▸ h.given.1 (key, read) (get_mem hget)
      · exact h.given.2 r hr
    · rcases put_mem hentry with rfl | ⟨hold, hother⟩
      · rcases List.mem_cons.mp hr with rfl | hr
        · exact ⟨rfl, horder⟩
        · exact absurd hlive (hnone r hr hkey hgen)
      · rcases List.mem_cons.mp hr with rfl | hr
        · exact absurd hkey.symm hother
        · exact h.held entry hold r hr hkey hgen hlive
    · rcases put_mem hentry with rfl | ⟨hold, -⟩
      · exact h.next (key, read) (get_mem hget) n hn
      · exact h.next entry hold n hn

theorem settle_of_not_current {r : Reading} {landed : Option (UInt64 × Nat)} (h : ¬ w.Current r) :
    w.reads.settle r.key r.generation landed = w.reads := by
  rw [settle]
  split
  · rfl
  · rename_i read hget
    exact if_pos fun hgen => h (by rw [World.Current, hget]; simpa using hgen)

theorem pairwise_eraseIdx {α : Type} {R : α → α → Prop} (hsymm : ∀ a b, R a b → R b a) {l : List α} (h : l.Pairwise R) {i : Nat}
    {a b : α} (hi : l[i]? = some a) (hb : b ∈ l.eraseIdx i) : R a b := by
  induction l generalizing i with
  | nil => exact nomatch hb
  | cons c l ih =>
    obtain ⟨hc, hl⟩ := List.pairwise_cons.mp h
    cases i with
    | zero =>
      obtain rfl : c = a := by simpa using hi
      exact hc b hb
    | succ i =>
      rcases List.mem_cons.mp hb with rfl | hb
      · exact hsymm _ _ (hc a (List.mem_of_getElem? hi))
      · exact ih hl hi hb

theorem Inv.settle (h : Inv w) {i : Nat} {len : Option Nat} (ht : Timely w (.settle i len)) :
    Inv (w.act (.settle i len)) := by
  cases hi : w.inFlight[i]? with
  | none => rwa [World.act, hi]
  | some r =>
    have hr : r ∈ w.inFlight := List.mem_of_getElem? hi
    have hsub : ∀ r' ∈ w.inFlight.eraseIdx i, r' ∈ w.inFlight := fun r' => List.mem_of_mem_eraseIdx
    by_cases hcur : w.Current r
    · obtain ⟨key, generation, offset, began⟩ := r
      obtain ⟨read, hget, rfl⟩ : ∃ read, w.reads.get key = some read ∧ read.generation = generation := by
        simpa [World.Current, Option.any_eq_true] using hcur
      have hmem := get_mem hget
      have hlive := ht _ hi hcur
      -- no other read that is not abandoned holds the record
      have hnone : ∀ r' ∈ w.inFlight.eraseIdx i, r'.key = key → r'.generation = read.generation → ¬ w.Live r' :=
        fun r' hr' hkey heq hlive' => pairwise_eraseIdx (fun _ _ hab hk hg hl => hab hk.symm hg.symm hl.symm) h.single hi hr'
          hkey.symm heq.symm ⟨hlive, hlive'⟩
      have horder : ∀ len, InOrder ((offset.toNat, len) :: if offset = 0 then [] else w.landed (key, read.generation))
          (offset.toNat + len) := by
        refine .cons ?_
        split_ifs with hzero
        · rw [hzero]
          exact .nil
        · exact h.next _ hmem offset ((h.held _ hmem _ hr rfl rfl hlive).2.resolve_left hzero)
      rw [World.act, hi]
      simp only [PulledReads.settle, hget, ne_eq, not_true_eq_false, if_false, if_pos hcur]
      refine ⟨⟨fun pull => ?_, h.single.eraseIdx i, (List.length_map _).trans_le h.bounded⟩,
        ⟨fun entry hentry => ?_, fun r' hr' => h.given.2 r' (hsub r' hr')⟩,
        fun entry hentry r' hr' hkey heq hlive' => ?_, fun entry hentry n hn => ?_⟩
      · cases len with
        | none => exact h.contiguous pull
        | some len =>
          change ∃ n, InOrder (update w.landed (key, read.generation) _ pull) n
          by_cases hpull : pull = (key, read.generation)
          · exact ⟨_, by rw [hpull, update_self]; exact horder len⟩
          · rw [update_of_ne hpull]
            exact h.contiguous pull
      · rcases put_mem hentry with rfl | ⟨hold, -⟩
        · exact h.given.1 (key, read) hmem
        · exact h.given.1 entry hold
      · rcases put_mem hentry with rfl | ⟨hold, -⟩
        · exact absurd hlive' (hnone r' hr' hkey heq)
        · exact h.held entry hold r' (hsub r' hr') hkey heq hlive'
      · cases len with
        | none =>
          rcases put_mem hentry with rfl | ⟨hold, -⟩
          · exact h.next (key, read) hmem n hn
          · exact h.next entry hold n hn
        | some len =>
          change InOrder (update w.landed (key, read.generation) _ (entry.1, entry.2.generation)) n.toNat
          rcases put_mem hentry with rfl | ⟨hold, hother⟩
          · simp only [Option.map_some, chunkEnd] at hn
            split_ifs at hn with hfits
            rw [← Option.some.inj hn, UInt64.toNat_ofNat_of_lt' hfits, update_self]
            exact horder len
          · rw [update_of_ne fun heq => hother (congrArg Prod.fst heq)]
            exact h.next entry hold n hn
    · have hsame : w.act (.settle i len) = { w with inFlight := w.inFlight.eraseIdx i } := by
        rw [World.act, hi]
        simp only [settle_of_not_current hcur, if_neg hcur]
        cases len <;> rfl
      rw [hsame]
      exact { h with
        single := h.single.eraseIdx i
        given := ⟨h.given.1, fun r' hr' => h.given.2 r' (hsub r' hr')⟩
        held := fun entry hentry r' hr' => h.held entry hentry r' (hsub r' hr') }

theorem Inv.act (h : Inv w) {act : ReadAct} (ht : Timely w act) : Inv (w.act act) := by
  cases act with
  | wait time => exact h.wait time
  | record => exact h.record ht
  | begin key offset maxLen => exact h.begin key offset maxLen
  | settle i len => exact h.settle ht

theorem readConfined_inside {disk : Disk} {expected : FileIdentity} {offset maxLen total start len : Nat}
    (h : readConfined disk expected offset maxLen = .ok (total, start, len)) : start + len ≤ total ∧ len ≤ maxLen := by
  unfold readConfined at h
  split at h
  · cases h
  · cases h
  split_ifs at h
  split at h
  iterate 4 cases h
  split_ifs at h
  unfold planChunk at h
  split_ifs at h with hlarge hpast
  · cases h
  · cases h
  · cases h
    omega

def Start (w : World) : Prop := w.reads = .new ∧ w.inFlight = [] ∧ w.landed = fun _ => []

/-- **The chunks of a pull go in order, and one read is in flight, where no read settles after its timeout.** -/
theorem pulled_in_order (h : Machine.Reaches World.act Timely Start w) : Ordered w ∧
    (∀ i len r, w.inFlight[i]? = some r → Timely w (.settle i len) → ¬ w.Live r ∨ ¬ w.Current r →
      (w.act (.settle i len)).reads = w.reads) ∧
    (∀ key offset maxLen answer, w.reads.beginRead key offset maxLen w.now = .ok answer →
      ∃ read, w.reads.get key = some read ∧ w.now - read.recordedAt < PICKED_FILE_TTL) ∧
    ∀ disk expected offset maxLen total start len, readConfined disk expected offset maxLen = .ok (total, start, len) →
      start + len ≤ total ∧ len ≤ maxLen := by
  have hstart : ∀ w, Start w → Inv w := by
    rintro ⟨reads, now, inFlight, landed⟩ ⟨rfl, rfl, rfl⟩
    exact ⟨⟨fun _ => ⟨0, .nil⟩, .nil, Nat.zero_le _⟩, ⟨nofun, nofun⟩, nofun, nofun⟩
  have hinv : Inv w := h.invariant hstart fun w act h ht => h.act ht
  refine ⟨hinv.toOrdered, fun i len r hi ht hlate => ?_, fun key offset maxLen answer hanswer => ?_, fun _ _ _ _ _ _ _ =>
    readConfined_inside⟩
  · have hcur : ¬ w.Current r := fun hcur => hlate.elim (fun hlive => hlive (ht r hi hcur)) fun hnot => hnot hcur
    rw [World.act, hi]
    exact settle_of_not_current hcur
  · obtain ⟨read, hget, hfresh, -⟩ := beginRead_ok hanswer
    exact ⟨read, hget, hfresh⟩

def firstRead : List ReadAct :=
  [.record ⟨some 9, ["a"]⟩ ["t", "a"] ⟨1, 2, 20, none⟩, .begin ⟨some 9, ["a"]⟩ 0 10]

theorem pulled_in_order_first :
    Ordered ((firstRead ++ [ReadAct.settle 0 (some 10)]).foldl World.act ⟨.new, 0, [], fun _ => []⟩) := by
  have hmeets : Machine.AllMeet World.act Timely ⟨.new, 0, [], fun _ => []⟩ (firstRead ++ [.settle 0 (some 10)]) :=
    ⟨(by decide : (0 : UInt64) ≠ -1), trivial, fun r hr _ => by cases hr; decide, trivial⟩
  exact (pulled_in_order ((Machine.Reaches.start ⟨rfl, rfl, rfl⟩).foldl hmeets)).1

/-- The abandoned read settles, and the read after it no longer holds the record. -/
theorem late_settle_releases : ¬ ∀ acts : List ReadAct, Ordered (acts.foldl World.act ⟨.new, 0, [], fun _ => []⟩) :=
  fun h => absurd (h (firstRead ++ [.wait READ_IN_FLIGHT_TIMEOUT, .begin ⟨some 9, ["a"]⟩ 0 10, .settle 1 (some 10),
    .begin ⟨some 9, ["a"]⟩ 10 10])).single (by decide)

end CitadelAgent.Transfers.PulledReads
