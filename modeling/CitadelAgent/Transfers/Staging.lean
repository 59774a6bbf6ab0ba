import CitadelAgent.Transfers.StagedUploads
import CitadelAgent.Lib.Machine

/-!
# Staging a browser file: the disk, and the bytes reserved

`citadel-internal-service/src/kernel/requests/file/staged_upload.rs`, and of `upload.rs` what puts a `ByteContents` payload into
the same root. A request is a task of several steps, between which those of others may stand: the table is read and written under
its lock, the disk outside of it.

* `Store` : a payload's first write, with the check against the root's cap; `Append` : a later chunk's;
* `State.step` : one step of some task, of the disk, or of a session.
-/

namespace CitadelAgent.Transfers.Staging
open Function

structure Chunk where
  offset : Nat
  data : List UInt8

def contents (chunks : List Chunk) : List UInt8 := chunks.flatMap (·.data)

inductive Purpose
  | stage (cid : Cid) (id : Uuid) (total : Nat)
  | bytes

/-- How far a first write is. The blocking closure is from `reserved` to `failing`. -/
inductive StorePhase
  | begun
  | reserved (number before : Nat)
  /-- The root was listed; what was read of it so far comes to `onDisk`. -/
  | scanning (number before : Nat) (listed seen : List Nat) (onDisk : Nat)
  | admitted (number : Nat)
  | writing (number : Nat) (rest : List UInt8)
  | failing (number : Nat) (reason : String)
  | closed (number : Nat)
  | refused (number : Option Nat) (reason : String)

def StorePhase.number : StorePhase → Option Nat
  | .begun => none
  | .reserved number _ | .scanning number _ _ _ _ | .admitted number | .writing number _ | .failing number _ | .closed number =>
    some number
  | .refused number _ => number

structure Store where
  purpose : Purpose
  data : List UInt8
  phase : StorePhase

def Store.reserve (store : Store) : Nat :=
  match store.purpose with
  | .stage _ _ total => total
  | .bytes => store.data.length

inductive AppendPhase
  | opening
  | writing (rest : List UInt8)
  | failed (reason : String)
  deriving DecidableEq

structure Append where
  cid : Cid
  id : Uuid
  /-- The upload whose path was read. -/
  number : Nat
  offset : Nat
  data : List UInt8
  phase : AppendPhase

/-- What `take_complete` returned, with the upload's file at that time. -/
structure Taken where
  upload : StagedUpload
  file : Option (List UInt8)
  chunks : List Chunk

/-- How many blocking closures the runtime runs at a time. -/
def MAX_BLOCKING_THREADS : Nat := 512

structure State where
  sessions : Cid → Option StagedUploads
  stores : Nat → Option Store
  appends : Nat → Option Append
  spawned : Nat
  files : Nat → Option (List UInt8)
  scheduled : List Nat
  reserved : Nat → Nat
  inFlight : Nat
  made : Nat
  closures : List Nat
  /-- The uploads that have left their table, whose reservation is still to be dropped. -/
  dropping : List Nat
  admitted : List Nat
  /-- What each payload was given in whole. -/
  chunks : Nat → List Chunk
  taken : List Taken
  answers : List (Except String Nat)

def fetchAdd (value bytes : Nat) : Nat := (value + bytes) % 2 ^ 64

def fetchSub (value bytes : Nat) : Nat := (value + (2 ^ 64 - bytes % 2 ^ 64)) % 2 ^ 64

namespace State

def init : State :=
  { sessions := fun _ => none, stores := fun _ => none, appends := fun _ => none, spawned := 0, files := fun _ => none,
    scheduled := [], reserved := fun _ => 0, inFlight := 0, made := 0, closures := [], dropping := [], admitted := [],
    chunks := fun _ => [], taken := [], answers := [] }

variable (s : State)

def answer (outcome : Except String Nat) : State := { s with answers := outcome :: s.answers }

def find (cid : Cid) (id : Uuid) : Option StagedUpload := (s.sessions cid).bind (·.get id)

def setUploads (cid : Cid) (uploads : StagedUploads) : State := { s with sessions := update s.sessions cid (some uploads) }

def setStore (i : Nat) (store : Option Store) : State := { s with stores := update s.stores i store }

def setAppend (i : Nat) (append : Option Append) : State := { s with appends := update s.appends i append }

def setFile (number : Nat) (file : Option (List UInt8)) : State := { s with files := update s.files number file }

/-- `Reservation::landed`. -/
def landed (number bytes : Nat) : State :=
  { s with inFlight := fetchSub s.inFlight (min bytes (s.reserved number)),
           reserved := update s.reserved number (s.reserved number - min bytes (s.reserved number)) }

def release (number : Nat) : State :=
  { s with inFlight := fetchSub s.inFlight (s.reserved number), reserved := update s.reserved number 0 }

/-- Uploads that are in no table any more: what is theirs is dropped, at some time. -/
def abandon (numbers : List Nat) : State := { s with dropping := numbers ++ s.dropping }

/-- Directories that are to be removed, at some time. -/
def schedule (numbers : List Nat) : State := { s with scheduled := numbers ++ s.scheduled }

def give (number : Nat) (chunk : Chunk) : State :=
  { s with chunks := update s.chunks number (s.chunks number ++ [chunk]) }

/-! ## `StageUploadChunk` -/

def spawnStore (purpose : Purpose) (data : List UInt8) : State :=
  { s with stores := update s.stores s.spawned (some ⟨purpose, data, .begun⟩), spawned := s.spawned + 1 }

def spawnAppend (cid : Cid) (id : Uuid) (number offset : Nat) (data : List UInt8) : State :=
  { s with appends := update s.appends s.spawned (some ⟨cid, id, number, offset, data, .opening⟩), spawned := s.spawned + 1 }

def planned (cid : Cid) (uploads : StagedUploads) (id : Uuid) (total offset : Nat) (data : List UInt8) : State :=
  match planChunk (uploads.get id) offset data.length total, uploads.get id with
  | .Refuse reason, _ => s.answer (.error reason)
  | .Append, some upload =>
    (s.setUploads cid (uploads.set id { upload with writing := true })).spawnAppend cid id upload.number offset data
  | .Append, none => s
  | .Start, _ => s.spawnStore (.stage cid id total) data

def prune (cid : Cid) (uploads : StagedUploads) (now : Instant) : State :=
  let stale := (uploads.prune now TEMP_FILE_TTL).1.map (·.number)
  ((s.setUploads cid (uploads.prune now TEMP_FILE_TTL).2).abandon stale).schedule stale

/-- `stage`, up to where the plan is carried out. -/
def stageChunk (cid : Cid) (id : Uuid) (total offset : Nat) (data : List UInt8) (now : Instant) : State :=
  match s.sessions cid with
  | none => s.answer (.error "stage: Server Connection Not Found")
  | some uploads => (s.prune cid uploads now).planned cid (uploads.prune now TEMP_FILE_TTL).2 id total offset data

/-! ## The first write -/

/-- `SendFile` with the bytes in the request. -/
def sendBytes (cid : Cid) (data : List UInt8) : State :=
  match s.sessions cid with
  | none => s.answer (.error "upload: Server Connection Not Found")
  | some _ =>
    if data.length > MAX_BYTE_CONTENTS_BYTES then
      s.answer (.error s!"ByteContents payload of {data.length} bytes exceeds the {MAX_BYTE_CONTENTS_BYTES} byte maximum")
    else s.spawnStore .bytes data

def reserve (i : Nat) (ready : Except String Unit) : State :=
  match s.stores i, ready with
  | some ⟨purpose, data, .begun⟩, .error reason => s.setStore i (some ⟨purpose, data, .refused none reason⟩)
  | some ⟨purpose, data, .begun⟩, .ok () =>
    let store : Store := ⟨purpose, data, .reserved s.made s.inFlight⟩
    if s.closures.length < MAX_BLOCKING_THREADS then
      { s.setStore i (some store) with
          inFlight := fetchAdd s.inFlight store.reserve, reserved := update s.reserved s.made store.reserve,
          closures := s.made :: s.closures, made := s.made + 1 }
    else s
  | _, _ => s

def list (i : Nat) : State :=
  match s.stores i with
  | some ⟨purpose, data, .reserved number before⟩ =>
    let listed := (List.range s.made).filter fun n => (s.files n).isSome
    s.setStore i (some ⟨purpose, data, .scanning number before listed [] 0⟩)
  | _ => s

def read (i n : Nat) : State :=
  match s.stores i with
  | some ⟨purpose, data, .scanning number before listed seen onDisk⟩ =>
    if n ∈ seen then s
    else
      let size := (s.files n).elim 0 (·.length)
      s.setStore i (some ⟨purpose, data, .scanning number before listed (n :: seen) (saturatingAdd onDisk size)⟩)
  | _ => s

def overCap (store : Store) (before onDisk : Nat) : String :=
  match store.purpose with
  | .stage _ _ total =>
    let held := saturatingAdd onDisk before
    s!"the agent is already holding {held} bytes of browser files being sent; this {total} byte file would pass the " ++
      s!"{MAX_BROWSER_TRANSFER_TOTAL_BYTES} byte limit. Try again when those sends finish."
  | .bytes =>
    let reserve := store.reserve
    s!"browser-transfer root holds {onDisk} on disk + {before} in flight; this {reserve} byte upload would exceed the " ++
      s!"{MAX_BROWSER_TRANSFER_TOTAL_BYTES} byte aggregate cap"

def decide (i : Nat) : State :=
  match s.stores i with
  | some ⟨purpose, data, .scanning number before listed seen onDisk⟩ =>
    let store : Store := ⟨purpose, data, .admitted number⟩
    if listed.all (· ∈ seen) then
      if saturatingAdd (saturatingAdd onDisk before) store.reserve > MAX_BROWSER_TRANSFER_TOTAL_BYTES then
        s.setStore i (some { store with phase := .failing number (overCap store before onDisk) })
      else { s.setStore i (some store) with admitted := number :: s.admitted }
    else s
  | _ => s

def create (i : Nat) : State :=
  match s.stores i with
  | some ⟨purpose, data, .admitted number⟩ =>
    (s.setStore i (some ⟨purpose, data, .writing number data⟩)).setFile number (some [])
  | _ => s

def write (i count : Nat) : State :=
  match s.stores i with
  | some ⟨purpose, data, .writing number rest⟩ =>
    (s.setStore i (some ⟨purpose, data, .writing number (rest.drop count)⟩)).setFile number
      ((s.files number).map (· ++ rest.take count))
  | _ => s

def fail (i : Nat) (reason : String) : State :=
  match s.stores i with
  | some ⟨purpose, data, .admitted number⟩ | some ⟨purpose, data, .writing number (_ :: _)⟩ =>
    s.setStore i (some ⟨purpose, data, .failing number reason⟩)
  | _ => s

def finish (i : Nat) : State :=
  match s.stores i with
  | some ⟨purpose, data, .writing number []⟩ =>
    let s : State := { s.setStore i (some ⟨purpose, data, .closed number⟩) with closures := s.closures.erase number }
    match purpose with
    | .stage _ _ _ => (s.landed number data.length).give number ⟨0, data⟩
    | .bytes => (s.release number).give number ⟨0, data⟩
  | some ⟨purpose, data, .failing number reason⟩ =>
    let s : State :=
      { s.setStore i (some ⟨purpose, data, .refused (some number) reason⟩) with closures := s.closures.erase number }
    s.release number
  | _ => s

def settle (i : Nat) (now : Instant) : State :=
  match s.stores i with
  | some ⟨.stage cid id total, data, .closed number⟩ =>
    let s := (s.setStore i none).schedule [number]
    let refused := (s.abandon [number]).answer (.error "that upload id is already in use on this session")
    match s.sessions cid with
    | none => refused
    | some uploads =>
      match uploads.insert id ⟨number, total, data.length, false, now⟩ with
      | .ok uploads => (s.setUploads cid uploads).answer (.ok data.length)
      | .error _ => refused
  | some ⟨.bytes, _, .closed number⟩ => (s.setStore i none).schedule [number]
  | some ⟨purpose, _, .refused number reason⟩ =>
    ((s.setStore i none).schedule number.toList).answer (.error (match purpose with
      | .stage _ _ _ => reason
      | .bytes => s!"Failed to write browser file to temp: {reason}"))
  | _ => s

/-! ## A later chunk -/

def openFile (i : Nat) : State :=
  match s.appends i with
  | some append =>
    if append.phase = .opening ∧ (s.files append.number).isSome then
      s.setAppend i (some { append with phase := .writing append.data })
    else s
  | none => s

/-- A file whose directory was removed since it was opened takes the bytes as well. -/
def appendBytes (i count : Nat) : State :=
  match s.appends i with
  | some append =>
    match append.phase with
    | .writing rest =>
      (s.setAppend i (some { append with phase := .writing (rest.drop count) })).setFile append.number
        ((s.files append.number).map (· ++ rest.take count))
    | .opening | .failed _ => s
  | none => s

def appendFails (i : Nat) (reason : String) : State :=
  match s.appends i with
  | some append =>
    match append.phase with
    | .opening | .writing (_ :: _) => s.setAppend i (some { append with phase := .failed reason })
    | .writing [] | .failed _ => s
  | none => s

def landChunk (append : Append) : State :=
  match s.sessions append.cid with
  | none => s.answer (.error "stage: Server Connection Not Found")
  | some uploads =>
    match uploads.get append.id with
    | none => s.answer (.error "the staged upload was abandoned")
    | some upload =>
      let received := upload.received + append.data.length
      let uploads := uploads.set append.id { upload with writing := false, received := received }
      (((s.setUploads append.cid uploads).landed upload.number append.data.length).give upload.number
        ⟨append.offset, append.data⟩).answer (.ok received)

def landFailure (append : Append) (reason : String) : State :=
  match s.sessions append.cid with
  | none => s.answer (.error "stage: Server Connection Not Found")
  | some uploads =>
    let failure : State → State := fun s => s.answer (.error s!"could not write the chunk: {reason}")
    match uploads.get append.id with
    | none => failure s
    | some upload =>
      failure (((s.setUploads append.cid (uploads.remove append.id)).abandon [upload.number]).schedule [upload.number])

def land (i : Nat) : State :=
  match s.appends i with
  | some append =>
    match append.phase with
    | .writing [] => (s.setAppend i none).landChunk append
    | .failed reason => (s.setAppend i none).landFailure append reason
    | .opening | .writing (_ :: _) => s
  | none => s

/-! ## The rest -/

def connect (cid : Cid) : State :=
  match s.sessions cid with
  | none => s.setUploads cid .empty
  | some _ => s

def sessionEnds (cid : Cid) : State :=
  match s.sessions cid with
  | none => s
  | some uploads =>
    let s : State := { s with sessions := update s.sessions cid none }
    s.abandon (uploads.all.map fun upload => upload.number)

/-- `SendFile` of a staged upload. -/
def take (cid : Cid) (id : Uuid) : State :=
  match s.sessions cid with
  | none => s.answer (.error "upload: Server Connection Not Found")
  | some uploads =>
    match uploads.takeComplete id with
    | .error reason => s.answer (.error reason)
    | .ok upload =>
      let s := (s.setUploads cid (uploads.remove id)).abandon [upload.number]
      { s with taken := ⟨upload, s.files upload.number, s.chunks upload.number⟩ :: s.taken }

def drop (number : Nat) : State :=
  if number ∈ s.dropping then
    let s : State := { s with dropping := s.dropping.filter (· ≠ number) }
    s.release number
  else s

def removeDir (number : Nat) : State := if number ∈ s.scheduled then s.setFile number none else s

end State

inductive Act
  | connect (cid : Cid)
  | sessionEnds (cid : Cid)
  | stageChunk (cid : Cid) (id : Uuid) (total offset : Nat) (data : List UInt8) (now : Instant)
  | sendBytes (cid : Cid) (data : List UInt8)
  | reserve (i : Nat) (ready : Except String Unit)
  | list (i : Nat)
  | read (i n : Nat)
  | decide (i : Nat)
  | create (i : Nat)
  | write (i count : Nat)
  | fail (i : Nat) (reason : String)
  | finish (i : Nat)
  | settle (i : Nat) (now : Instant)
  | openFile (i : Nat)
  | appendBytes (i count : Nat)
  | appendFails (i : Nat) (reason : String)
  | land (i : Nat)
  | take (cid : Cid) (id : Uuid)
  | drop (number : Nat)
  | removeDir (number : Nat)

namespace State

def step (s : State) : Act → State
  | .connect cid => s.connect cid
  | .sessionEnds cid => s.sessionEnds cid
  | .stageChunk cid id total offset data now => s.stageChunk cid id total offset data now
  | .sendBytes cid data => s.sendBytes cid data
  | .reserve i ready => s.reserve i ready
  | .list i => s.list i
  | .read i n => s.read i n
  | .decide i => s.decide i
  | .create i => s.create i
  | .write i count => s.write i count
  | .fail i reason => s.fail i reason
  | .finish i => s.finish i
  | .settle i now => s.settle i now
  | .openFile i => s.openFile i
  | .appendBytes i count => s.appendBytes i count
  | .appendFails i reason => s.appendFails i reason
  | .land i => s.land i
  | .take cid id => s.take cid id
  | .drop number => s.drop number
  | .removeDir number => s.removeDir number

def payload (s : State) (number : Nat) : Nat := if (s.files number).isSome then (contents (s.chunks number)).length else 0

/-- A chunk is credited to the upload that it was written to, and an upload that is sent still has its file. -/
def Meets (s : State) : Act → Prop
  | .land i => ∀ append ∈ s.appends i, append.phase = .writing [] → ∀ upload ∈ s.find append.cid append.id,
    upload.number = append.number
  | .take cid id => ∀ upload ∈ s.find cid id, upload.writing = false → upload.total ≤ upload.received →
    s.files upload.number ≠ none
  | _ => True

instance (s : State) : ∀ act, Decidable (s.Meets act)
  | .land i => inferInstanceAs (Decidable (∀ append ∈ s.appends i, _))
  | .take cid id => inferInstanceAs (Decidable (∀ upload ∈ s.find cid id, _))
  | .connect _ | .sessionEnds _ | .stageChunk _ _ _ _ _ _ | .sendBytes _ _ | .reserve _ _ | .list _ | .read _ _ | .decide _
  | .create _ | .write _ _ | .fail _ _ | .finish _ | .settle _ _ | .openFile _ | .appendBytes _ _ | .appendFails _ _ | .drop _
  | .removeDir _ => isTrue trivial

end State

end CitadelAgent.Transfers.Staging
