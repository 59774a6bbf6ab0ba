import CitadelAgent.Transfers.PulledReads

/-!
# Staged uploads: which chunk may land where

`citadel-internal-service/src/kernel/staged_uploads.rs`: the pure part of `StageUploadChunk`, and a session's table of uploads in
progress. What is in the table is told by `get`: the lemmas `get_*` say it after each change.
-/

namespace CitadelAgent.Transfers

def MAX_STAGED_UPLOAD_BYTES : Nat := 2 * 1024 * 1024 * 1024

def MAX_STAGE_CHUNK_BYTES : Nat := 1024 * 1024

def MAX_BROWSER_TRANSFER_TOTAL_BYTES : Nat := MAX_STAGED_UPLOAD_BYTES

def MAX_BYTE_CONTENTS_BYTES : Nat := 16 * 1024 * 1024

def TEMP_FILE_TTL : Nat := 600 * 1000000000

/-- An upload in progress. Its number stands for its request directory, the one file in it, and its reservation. -/
structure StagedUpload where
  number : Nat
  total : Nat
  received : Nat
  writing : Bool
  started : Instant

inductive ChunkPlan
  | Start
  | Append
  | Refuse (reason : String)

def saturatingAdd (a b : Nat) : Nat := min (a + b) (2 ^ 64 - 1)

def planChunk (existing : Option StagedUpload) (offset len total : Nat) : ChunkPlan :=
  if total = 0 then .Refuse "an empty file cannot be staged"
  else if total > MAX_STAGED_UPLOAD_BYTES then
    .Refuse s!"the file is {total} bytes; files sent from the browser are limited to {MAX_STAGED_UPLOAD_BYTES}"
  else if len = 0 ∨ len > MAX_STAGE_CHUNK_BYTES then .Refuse s!"a chunk must hold 1 to {MAX_STAGE_CHUNK_BYTES} bytes"
  else if saturatingAdd offset len > total then .Refuse "the chunk runs past the file's declared size"
  else match existing with
    | none => if offset = 0 then .Start else .Refuse "no staged upload with that id on this session"
    | some upload =>
      if upload.total ≠ total then .Refuse "the chunk declares a different file size"
      else if upload.writing then .Refuse "the previous chunk is still being written"
      else if offset ≠ upload.received then
        .Refuse s!"chunk at {offset}, but {upload.received} bytes have been received"
      else .Append

variable {len offset total : Nat} {existing : Option StagedUpload}

theorem planChunk_bounds (h : ∀ reason, planChunk existing offset len total ≠ .Refuse reason) :
    total ≤ MAX_STAGED_UPLOAD_BYTES ∧ 0 < len ∧ offset + len ≤ total := by
  unfold planChunk at h
  split at h
  case isTrue => exact absurd rfl (h _)
  split at h
  case isTrue => exact absurd rfl (h _)
  split at h
  case isTrue => exact absurd rfl (h _)
  split at h
  case isTrue => exact absurd rfl (h _)
  next hmax hlen hpast =>
    refine ⟨Nat.le_of_not_lt hmax, by omega, ?_⟩
    unfold saturatingAdd at hpast
    unfold MAX_STAGED_UPLOAD_BYTES at hmax
    omega

theorem planChunk_Start (h : planChunk existing offset len total = .Start) : existing = none ∧ offset = 0 ∧ len ≤ total := by
  have hbounds : total ≤ MAX_STAGED_UPLOAD_BYTES ∧ 0 < len ∧ offset + len ≤ total := planChunk_bounds fun reason => by rw [h]; nofun
  unfold planChunk at h
  cases existing with
  | none =>
    dsimp only at h
    split_ifs at h with h1 h2 h3 h4 h5
    exact ⟨rfl, h5, by omega⟩
  | some upload =>
    dsimp only at h
    split_ifs at h

theorem planChunk_Append (h : planChunk existing offset len total = .Append) :
    ∃ upload, existing = some upload ∧ upload.total = total ∧ upload.writing = false ∧ upload.received = offset ∧
      offset + len ≤ total := by
  have hbounds : total ≤ MAX_STAGED_UPLOAD_BYTES ∧ 0 < len ∧ offset + len ≤ total := planChunk_bounds fun reason => by rw [h]; nofun
  unfold planChunk at h
  cases existing with
  | none =>
    dsimp only at h
    split_ifs at h
  | some upload =>
    dsimp only at h
    split_ifs at h with h1 h2 h3 h4 h5 h6 h7
    exact ⟨upload, rfl, not_not.mp h5, Bool.eq_false_iff.mpr h6, (not_not.mp h7).symm, hbounds.2.2⟩

structure StagedUploads where
  byId : AList fun _ : Uuid => StagedUpload

namespace StagedUploads

variable (uploads : StagedUploads) (id other : Uuid) (upload : StagedUpload)

def empty : StagedUploads := ⟨∅⟩

def get : Option StagedUpload := uploads.byId.lookup id

/-- `get_mut`, and what is written through it. -/
def set : StagedUploads := ⟨uploads.byId.insert id upload⟩

/-- Refuses to replace an upload already in progress under the id. -/
def insert : Except StagedUpload StagedUploads :=
  if (uploads.get id).isSome then .error upload else .ok (uploads.set id upload)

def remove : StagedUploads := ⟨uploads.byId.erase id⟩

def takeComplete : Except String StagedUpload :=
  match uploads.get id with
  | none => .error "no staged upload with that id on this session"
  | some upload =>
    if upload.writing ∨ upload.received < upload.total then
      .error s!"the staged upload holds {upload.received} of {upload.total} bytes"
    else .ok upload

def stale (now ttl : Nat) (upload : StagedUpload) : Bool := ttl ≤ now - upload.started

def prune (now ttl : Nat) : List StagedUpload × StagedUploads :=
  ((uploads.byId.entries.filter fun entry => stale now ttl entry.2).map (·.2),
    ⟨uploads.byId.entries.filter fun entry => !stale now ttl entry.2, uploads.byId.nodupKeys.sublist List.filter_sublist⟩)

def all : List StagedUpload := uploads.byId.entries.map (·.2)

theorem get_set : (uploads.set id upload).get other = if other = id then some upload else uploads.get other := by
  unfold get set
  split_ifs with heq
  · rw [heq]
    exact AList.lookup_insert uploads.byId
  · exact AList.lookup_insert_ne heq

theorem get_remove : (uploads.remove id).get other = if other = id then none else uploads.get other := by
  unfold get remove
  split_ifs with heq
  · rw [heq]
    exact AList.lookup_erase id uploads.byId
  · exact AList.lookup_erase_ne heq

theorem mem_entries : (⟨id, upload⟩ : Sigma fun _ : Uuid => StagedUpload) ∈ uploads.byId.entries ↔ uploads.get id = some upload :=
  AList.mem_lookup_iff.symm

variable {uploads id upload} {now ttl : Nat}

theorem get_prune : (uploads.prune now ttl).2.get id = some upload ↔ uploads.get id = some upload ∧ ¬ stale now ttl upload := by
  rw [← mem_entries, ← mem_entries]
  show _ ∈ List.filter _ _ ↔ _
  rw [List.mem_filter, Bool.not_eq_true', Bool.not_eq_true]

theorem mem_pruned : upload ∈ (uploads.prune now ttl).1 ↔ ∃ id, uploads.get id = some upload ∧ stale now ttl upload := by
  show upload ∈ List.map _ (List.filter _ _) ↔ _
  simp only [List.mem_map, List.mem_filter]
  constructor
  · rintro ⟨⟨id, _⟩, ⟨hmem, hstale⟩, rfl⟩
    exact ⟨id, (mem_entries _ _ _).mp hmem, hstale⟩
  · rintro ⟨id, hget, hstale⟩
    exact ⟨⟨id, upload⟩, ⟨(mem_entries _ _ _).mpr hget, hstale⟩, rfl⟩

theorem mem_all : upload ∈ uploads.all ↔ ∃ id, uploads.get id = some upload := by
  unfold all
  simp only [List.mem_map]
  constructor
  · rintro ⟨⟨id, _⟩, hmem, rfl⟩
    exact ⟨id, (mem_entries _ _ _).mp hmem⟩
  · rintro ⟨id, hget⟩
    exact ⟨⟨id, upload⟩, (mem_entries _ _ _).mpr hget, rfl⟩

theorem takeComplete_ok (h : uploads.takeComplete id = .ok upload) :
    uploads.get id = some upload ∧ upload.writing = false ∧ upload.total ≤ upload.received := by
  unfold takeComplete at h
  split at h
  case h_1 => exact nomatch h
  case h_2 found hget =>
    split_ifs at h with hpart
    rw [← Except.ok.inj h, hget]
    rw [not_or, Bool.not_eq_true, Nat.not_lt] at hpart
    exact ⟨rfl, hpart.1, hpart.2⟩

theorem insert_cases (uploads : StagedUploads) (id : Uuid) (upload : StagedUpload) :
    uploads.insert id upload = .error upload ∨ uploads.get id = none ∧ uploads.insert id upload = .ok (uploads.set id upload) := by
  rcases Option.eq_none_or_eq_some (uploads.get id) with hget | ⟨old, hget⟩
  · refine .inr ⟨hget, ?_⟩
    rw [insert, hget]
    rfl
  · refine .inl ?_
    rw [insert, hget]
    rfl

end StagedUploads

end CitadelAgent.Transfers
