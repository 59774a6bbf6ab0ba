import CitadelAgent.Conversations.StoreSpec

/-!
# An append, in two halves

* `draftOf` : what `append` has read when it starts to write;
* `Draft.commit` : its writes, and `exec_append_of_honest` that it is the two in turn.
-/

namespace CitadelAgent.Conversations
open Store StoreRules Result

/-- What `append` has in hand when it starts to write. -/
structure Draft where
  metadata : ConversationMetadata
  page : ConversationPage
  isNew : Bool

/-- The newest page, as `append` takes it. -/
def newestPage (kv : Kv) (own peer : Cid) (latestPage : UInt32) (at_ : F64) : Except KvError ConversationPage :=
  match pageOf kv own peer latestPage with
  | .error e => .error e
  | .ok page => .ok (page.getD (emptyPage peer latestPage at_))

/-- What `already_stored` answers. -/
def storedIn (kv : Kv) (own peer : Cid) (latestPage : UInt32) (page : ConversationPage) (id : String) :
    Except KvError Bool :=
  if page.messages.any (hasId id) then .ok true
  else if latestPage = 0 then .ok false
  else
    match pageOf kv own peer (latestPage - 1) with
    | .error e => .error e
    | .ok previous => .ok (previous.any fun p => p.messages.any (hasId id))

/-- The reads of `append`; nothing, for a duplicate. The clock of the metadata is set by the writes. -/
def draftOf (kv : Kv) (own peer : Cid) (message : ConversationMessage) (peerUsername : Option String) :
    Except KvError (Option Draft) := do
  let existing ← metadataOf kv own peer
  let metadata := stamped own (existing.getD (newMetadata own peer message peerUsername message.timestamp))
  let page ← newestPage kv own peer metadata.latestPage message.timestamp
  let stored ← storedIn kv own peer metadata.latestPage page message.id
  return if stored then none else some ⟨metadata, page, existing.isNone⟩

/-- The writes of `append`. -/
def Draft.commit (d : Draft) (own peer : Cid) (message : ConversationMessage) (now : F64) :
    KvM (Option ConversationMetadata) := do
  let (latestPage, page) ← openPage own peer d.metadata.latestPage d.page message.timestamp
  savePage own (place page message)
  let metadata := recordAppend { d.metadata with latestPage } message d.isNew own now
  saveMetadata own metadata
  return some metadata

section Reads

variable {σ : Type} {handle : (o : KvOp) → σ → o.Ans × σ} {view : σ → Kv} (hon : Honest handle view)
include hon

theorem exec_alreadyStored (own peer : Cid) (latestPage : UInt32) (page : ConversationPage) (id : String) (s : σ) :
    Prog.exec handle (alreadyStored own peer latestPage page id) s =
      (storedIn (view s) own peer latestPage page id, s) := by
  rw [alreadyStored, storedIn]
  split_ifs
  · rfl
  · rfl
  · rw [Prog.exec_bind, exec_loadPage_of_honest hon]
    cases pageOf (view s) own peer (latestPage - 1) <;> rfl

theorem exec_append_of_honest (own peer : Cid) (message : ConversationMessage) (peerUsername : Option String)
    (now : F64) (s : σ) :
    Prog.exec handle (append own peer message peerUsername now) s =
      match draftOf (view s) own peer message peerUsername with
      | .error e => (.error e, s)
      | .ok none => (.ok none, s)
      | .ok (some d) => Prog.exec handle (d.commit own peer message now) s := by
  rw [append, Prog.exec_bind, exec_loadMetadata_of_honest hon, draftOf]
  cases metadataOf (view s) own peer with
  | error e => rfl
  | ok existing =>
    simp only [Prog.resume_ok, Result.ok_bind]
    rw [Prog.exec_bind, exec_loadPage_of_honest hon, newestPage]
    have hlatest : (stamped own (existing.getD (newMetadata own peer message peerUsername now))).latestPage =
        (stamped own (existing.getD (newMetadata own peer message peerUsername message.timestamp))).latestPage := by
      cases existing <;> rfl
    rw [hlatest]
    cases pageOf (view s) own peer
        (stamped own (existing.getD (newMetadata own peer message peerUsername message.timestamp))).latestPage with
    | error e => rfl
    | ok found =>
      simp only [Prog.resume_ok, Result.ok_bind]
      rw [Prog.exec_bind, exec_alreadyStored hon]
      cases storedIn (view s) own peer _ (found.getD _) message.id with
      | error e => rfl
      | ok stored =>
        cases stored with
        | true => rfl
        | false => cases existing <;> rfl

end Reads

/-! ## The reads of an append -/

variable {page : ConversationPage} {kv kv' : Kv} {result : Option ConversationMetadata}

section Drafts

variable {kv kv' : Kv} {own peer : Cid} {message : ConversationMessage} {name : Option String} {d : Draft}

theorem storedIn_eq_false {latest : UInt32} {id : String} :
    storedIn kv own peer latest page id = .ok false ↔ page.messages.any (hasId id) = false ∧
      (latest ≠ 0 → ∃ q, pageOf kv own peer (latest - 1) = .ok q ∧
        (q.any fun p => p.messages.any (hasId id)) = false) := by
  unfold storedIn
  split_ifs with hpage hlatest
  · simp [hpage]
  · simp [hpage, hlatest]
  · cases pageOf kv own peer (latest - 1) with
    | error e => simp [hpage, hlatest]
    | ok q => simp [hpage, hlatest]

theorem draftOf_eq_some :
    draftOf kv own peer message name = .ok (some d) ↔ ∃ existing, metadataOf kv own peer = .ok existing ∧
      d.metadata = stamped own (existing.getD (newMetadata own peer message name message.timestamp)) ∧
      d.isNew = existing.isNone ∧ newestPage kv own peer d.metadata.latestPage message.timestamp = .ok d.page ∧
      storedIn kv own peer d.metadata.latestPage d.page message.id = .ok false := by
  simp only [draftOf, bind_eq_ok]
  constructor
  · rintro ⟨existing, hmeta, page, hpage, stored, hstored, hd⟩
    cases stored with
    | true => simp at hd
    | false =>
      simp only [Bool.false_eq_true, if_false, pure_eq_ok, Except.ok.injEq, Option.some.injEq] at hd
      subst hd
      exact ⟨existing, hmeta, rfl, rfl, hpage, hstored⟩
  · rintro ⟨existing, hmeta, hm, hn, hpage, hstored⟩
    rw [hm] at hpage hstored
    refine ⟨existing, hmeta, d.page, hpage, false, hstored, ?_⟩
    rw [← hm, ← hn]
    rfl

theorem newestPage_eq_ok {latest : UInt32} {at_ : F64} :
    newestPage kv own peer latest at_ = .ok page ↔
      ∃ found, pageOf kv own peer latest = .ok found ∧ page = found.getD (emptyPage peer latest at_) := by
  unfold newestPage
  cases pageOf kv own peer latest with
  | error e => simp
  | ok found => simp [eq_comm]

theorem draftOf_of_pages (hd : draftOf kv own peer message name = .ok (some d))
    (hmeta : metadataOf kv' own peer = metadataOf kv own peer)
    (hpage : newestPage kv' own peer d.metadata.latestPage message.timestamp = .ok page)
    (hstored : storedIn kv' own peer d.metadata.latestPage page message.id = .ok false) :
    draftOf kv' own peer message name = .ok (some { d with page }) := by
  obtain ⟨existing, hm, hdm, hdn, -, -⟩ := draftOf_eq_some.mp hd
  exact draftOf_eq_some.mpr ⟨existing, hmeta.trans hm, hdm, hdn, hpage, hstored⟩

end Drafts

/-! ## The writes -/

section Writes

variable {own peer : Cid} {message : ConversationMessage} {d : Draft}

/-- The newest page is full, and the message goes on a new one. -/
def Draft.Full (d : Draft) : Prop := MESSAGES_PER_PAGE ≤ d.page.messages.length

instance (d : Draft) : Decidable d.Full := inferInstanceAs (Decidable (_ ≤ _))

def Draft.number (d : Draft) : UInt32 := if d.Full then d.metadata.latestPage + 1 else d.metadata.latestPage

def Draft.placed (d : Draft) (peer : Cid) (message : ConversationMessage) : ConversationPage :=
  place (if d.Full then emptyPage peer (d.metadata.latestPage + 1) message.timestamp else d.page) message

def Draft.recorded (d : Draft) (own : Cid) (message : ConversationMessage) (now : F64) : ConversationMetadata :=
  recordAppend { d.metadata with latestPage := d.number } message d.isNew own now

def insertAll : List (Place × Bytes) → Kv → Kv
  | [], kv => kv
  | (p, b) :: writes, kv => insertAll writes (kv.insert p.name b)

theorem insertAll_concat (writes : List (Place × Bytes)) (w : Place × Bytes) (kv : Kv) :
    insertAll (writes ++ [w]) kv = (insertAll writes kv).insert w.1.name w.2 := by
  induction writes generalizing kv with
  | nil => rfl
  | cons v writes ih => exact ih _

def Draft.Writes (d : Draft) (own peer : Cid) (message : ConversationMessage) (writes : List (Place × Bytes)) : Prop :=
  if d.Full then
    d.metadata.latestPage.toNat + 1 < 2 ^ 32 ∧ ∃ closed placed, encodePage d.page = .ok closed ∧
      encodePage (d.placed peer message) = .ok placed ∧
      writes = [(.messages own d.page.peerCid d.page.pageNumber, closed), (.messages own peer d.number, placed)]
  else ∃ placed, encodePage (d.placed peer message) = .ok placed ∧
    writes = [(.messages own d.page.peerCid d.page.pageNumber, placed)]

def Draft.pointer (d : Draft) (own : Cid) (message : ConversationMessage) (now : F64) : Place × Bytes :=
  (.metadata own d.metadata.peerCid, metadataBytes (d.recorded own message now))

section OneWrite

variable {σ : Type} (handle : (o : KvOp) → σ → o.Ans × σ)

theorem exec_nextPage {number : UInt32} (h : number.toNat + 1 < 2 ^ 32) (s : σ) :
    Prog.exec handle (nextPage number) s = (.ok (number + 1), s) := by
  rw [nextPage, if_pos h, Prog.exec_pure]

theorem exec_nextPage_eq_ok {number next : UInt32} (h : Kv.exec (nextPage number) kv = (.ok next, kv')) :
    number.toNat + 1 < 2 ^ 32 ∧ kv' = kv := by
  unfold nextPage at h
  split_ifs at h with hlt
  · cases h
    exact ⟨hlt, rfl⟩
  · cases h

theorem exec_savePage_of_ok {p : ConversationPage} {b : Bytes} (h : encodePage p = .ok b) (s : σ) :
    Prog.exec handle (savePage own p) s = handle (.set (Place.messages own p.peerCid p.pageNumber).name b) s := by
  rw [savePage, Prog.exec_bind, h]
  rfl

theorem exec_pointer (now : F64) (s : σ) :
    Prog.exec handle (saveMetadata own (d.recorded own message now)) s =
      handle (.set (d.pointer own message now).1.name (d.pointer own message now).2) s := by
  rw [saveMetadata, Prog.exec_bind, encodeMetadata_ok]
  rfl

theorem exec_commit (h : ¬ d.Full) (now : F64) (s : σ) :
    Prog.exec handle (d.commit own peer message now) s =
      Prog.exec handle (do
        savePage own (d.placed peer message)
        saveMetadata own (d.recorded own message now)
        return some (d.recorded own message now)) s := by
  rw [Draft.commit, Prog.exec_bind, openPage, if_neg (show ¬ MESSAGES_PER_PAGE ≤ d.page.messages.length from h),
    Prog.exec_pure, Prog.resume_ok]
  simp only [Draft.placed, Draft.recorded, Draft.number, if_neg h]

theorem exec_commit_full (h : d.Full) (now : F64) (s : σ) :
    Prog.exec handle (d.commit own peer message now) s =
      Prog.exec handle (do
        savePage own d.page
        let _ ← nextPage d.metadata.latestPage
        savePage own (d.placed peer message)
        saveMetadata own (d.recorded own message now)
        return some (d.recorded own message now)) s := by
  rw [Draft.commit, Prog.exec_bind, openPage, if_pos (show MESSAGES_PER_PAGE ≤ d.page.messages.length from h)]
  rw [Prog.exec_bind, Prog.exec_bind]
  rcases Prog.exec handle (savePage own d.page) s with ⟨r, s'⟩
  cases r with
  | error e => rfl
  | ok u =>
    simp only [Prog.resume_ok]
    rw [Prog.exec_bind, Prog.exec_bind, nextPage]
    split_ifs
    · simp only [Prog.exec_pure, Prog.resume_ok, Draft.placed, Draft.recorded, Draft.number, if_pos h]
    · rfl

end OneWrite

theorem placed_place (d : Draft) (own peer : Cid) (message : ConversationMessage) :
    Place.messages own (d.placed peer message).peerCid (d.placed peer message).pageNumber =
      if d.Full then .messages own peer d.number else .messages own d.page.peerCid d.page.pageNumber := by
  unfold Draft.placed Draft.number
  split_ifs <;> rfl

theorem exec_tail_eq_ok {now : F64} :
    Kv.exec (do
        savePage own (d.placed peer message)
        saveMetadata own (d.recorded own message now)
        return some (d.recorded own message now)) kv = (.ok result, kv') ↔
      ∃ placed, encodePage (d.placed peer message) = .ok placed ∧ result = some (d.recorded own message now) ∧
        kv' = insertAll [(if d.Full then .messages own peer d.number
          else .messages own d.page.peerCid d.page.pageNumber, placed), d.pointer own message now] kv := by
  simp only [Kv.exec_bind_eq_ok, exec_savePage_eq_ok, exec_saveMetadata, placed_place]
  constructor
  · rintro ⟨u, kv₁, ⟨placed, hp, rfl⟩, u', kv₂, hm, hr⟩
    cases hm
    cases hr
    exact ⟨placed, hp, rfl, rfl⟩
  · rintro ⟨placed, hp, rfl, rfl⟩
    exact ⟨(), _, ⟨placed, hp, rfl⟩, (), _, rfl, rfl⟩

theorem exec_commit_eq_ok {now : F64} :
    Kv.exec (d.commit own peer message now) kv = (.ok result, kv') ↔
      ∃ writes, d.Writes own peer message writes ∧ result = some (d.recorded own message now) ∧
        kv' = insertAll (writes ++ [d.pointer own message now]) kv := by
  unfold Kv.exec Draft.Writes
  by_cases h : d.Full
  · rw [exec_commit_full _ h, ← Kv.exec]
    simp only [if_pos h]
    constructor
    · intro hc
      obtain ⟨u, kv₁, hclose, hc⟩ := Kv.exec_bind_eq_ok.mp hc
      obtain ⟨closed, hclosed, rfl⟩ := exec_savePage_eq_ok.mp hclose
      obtain ⟨number, kv₂, hnext, hc⟩ := Kv.exec_bind_eq_ok.mp hc
      obtain ⟨hroom, rfl⟩ := exec_nextPage_eq_ok hnext
      obtain ⟨placed, hplaced, hresult, hkv⟩ := exec_tail_eq_ok.mp hc
      rw [if_pos h] at hkv
      exact ⟨_, ⟨hroom, closed, placed, hclosed, hplaced, rfl⟩, hresult, hkv⟩
    · rintro ⟨writes, ⟨hroom, closed, placed, hclosed, hplaced, rfl⟩, rfl, rfl⟩
      refine Kv.exec_bind_eq_ok.mpr ⟨(), _, exec_savePage_eq_ok.mpr ⟨closed, hclosed, rfl⟩, ?_⟩
      refine Kv.exec_bind_eq_ok.mpr ⟨_, _, exec_nextPage Kv.handle hroom _, ?_⟩
      refine exec_tail_eq_ok.mpr ⟨placed, hplaced, rfl, ?_⟩
      rw [if_pos h]
      rfl
  · rw [exec_commit _ h, ← Kv.exec, exec_tail_eq_ok]
    simp only [if_neg h]
    constructor
    · rintro ⟨placed, hp, rfl, rfl⟩
      exact ⟨_, ⟨placed, hp, rfl⟩, rfl, rfl⟩
    · rintro ⟨writes, ⟨placed, hp, rfl⟩, rfl, rfl⟩
      exact ⟨placed, hp, rfl, rfl⟩

theorem execRefusing_commit {writes : List (Place × Bytes)} (h : d.Writes own peer message writes) (now : F64)
    (n : Nat) (kv : Kv) :
    Kv.execRefusing n (d.commit own peer message now) kv =
      if n ≤ writes.length then (.error (.host "refused"), insertAll (writes.take n) kv)
      else (.ok (some (d.recorded own message now)), insertAll (writes ++ [d.pointer own message now]) kv) := by
  unfold Draft.Writes at h
  unfold Kv.execRefusing
  split_ifs at h with hf
  · obtain ⟨hroom, closed, placed, hclosed, hplaced, rfl⟩ := h
    rw [exec_commit_full _ hf]
    match n with
    | 0 | 1 | 2 | n + 3 =>
      simp [Prog.exec_bind, Prog.exec_map, exec_savePage_of_ok _ hclosed, exec_savePage_of_ok _ hplaced, exec_nextPage _ hroom,
        exec_pointer, placed_place, if_pos hf, Kv.refusing, insertAll]
  · obtain ⟨placed, hplaced, rfl⟩ := h
    rw [exec_commit _ hf]
    match n with
    | 0 | 1 | n + 2 =>
      simp [Prog.exec_bind, Prog.exec_map, exec_savePage_of_ok _ hplaced, exec_pointer, placed_place, if_neg hf,
        Kv.refusing, insertAll]

theorem pageOf_of_full {name : Option String} (hd : draftOf kv own peer message name = .ok (some d)) (hf : d.Full) :
    pageOf kv own peer d.metadata.latestPage = .ok (some d.page) := by
  obtain ⟨existing, -, -, -, hpage, -⟩ := draftOf_eq_some.mp hd
  obtain ⟨found, hfound, hget⟩ := newestPage_eq_ok.mp hpage
  cases found with
  | some page => rw [hfound, hget, Option.getD_some]
  | none =>
    have hlen : d.page.messages.length = 0 := by
      rw [hget]
      rfl
    unfold Draft.Full MESSAGES_PER_PAGE at hf
    omega

section Whole

variable {kv kv' : Kv} {name : Option String} {now : F64}

theorem exec_append_of_draft (hd : draftOf kv own peer message name = .ok (some d)) {writes : List (Place × Bytes)}
    (hw : d.Writes own peer message writes) (now : F64) :
    Kv.exec (append own peer message name now) kv =
      (.ok (some (d.recorded own message now)), insertAll (writes ++ [d.pointer own message now]) kv) := by
  rw [Kv.exec, exec_append_of_honest honest_handle, id, hd]
  exact exec_commit_eq_ok.mpr ⟨writes, hw, rfl, rfl⟩

theorem append_eq_ok (h : Kv.exec (append own peer message name now) kv = (.ok result, kv')) :
    (result = none ∧ kv' = kv) ∨ ∃ d writes, draftOf kv own peer message name = .ok (some d) ∧
      d.Writes own peer message writes ∧ result = some (d.recorded own message now) ∧
      kv' = insertAll (writes ++ [d.pointer own message now]) kv := by
  rw [Kv.exec, exec_append_of_honest honest_handle, id] at h
  cases hd : draftOf kv own peer message name with
  | error e => simp [hd] at h
  | ok found =>
    rw [hd] at h
    cases found with
    | none =>
      cases h
      exact .inl ⟨rfl, rfl⟩
    | some d =>
      obtain ⟨writes, hw, hresult, hkv⟩ := exec_commit_eq_ok.mp h
      exact .inr ⟨d, writes, rfl, hw, hresult, hkv⟩

theorem append_eq_some {m : ConversationMetadata}
    (h : Kv.exec (append own peer message name now) kv = (.ok (some m), kv')) :
    ∃ d writes, draftOf kv own peer message name = .ok (some d) ∧ d.Writes own peer message writes ∧
      m = d.recorded own message now ∧ kv' = insertAll (writes ++ [d.pointer own message now]) kv := by
  rcases append_eq_ok h with ⟨hnone, -⟩ | ⟨d, writes, hd, hw, hm, hkv⟩
  · cases hnone
  · exact ⟨d, writes, hd, hw, Option.some.inj hm, hkv⟩

end Whole

end Writes

/-! ## The first message of a conversation -/

def firstMessage : ConversationMessage := .text "m1" "hello" 2 1 (F64.ofNat 1) (F64.ofNat 0) .delivered

def firstDraft : Draft where
  metadata := stamped 1 (newMetadata 1 2 firstMessage none firstMessage.timestamp)
  page := emptyPage 2 0 firstMessage.timestamp
  isNew := true

theorem draftOf_empty (own peer : Cid) (message : ConversationMessage) (name : Option String) :
    draftOf ∅ own peer message name = .ok (some ⟨stamped own (newMetadata own peer message name message.timestamp),
      emptyPage peer 0 message.timestamp, true⟩) := by
  have hmeta : metadataOf ∅ own peer = .ok none := by
    simp [metadataOf, metadataAtPlace, Kv.at_, recordRead]
  have hpage : pageOf ∅ own peer 0 = .ok none := by
    simp [pageOf, pageAtPlace, Kv.at_, recordRead]
  refine draftOf_eq_some.mpr ⟨none, hmeta, rfl, rfl, newestPage_eq_ok.mpr ⟨none, hpage, rfl⟩, ?_⟩
  exact storedIn_eq_false.mpr ⟨rfl, fun h => absurd rfl h⟩

theorem draftOf_first : draftOf ∅ 1 2 firstMessage none = .ok (some firstDraft) := draftOf_empty 1 2 firstMessage none

theorem writes_first : ∃ placed, firstDraft.Writes 1 2 firstMessage [(.messages 1 2 0, placed)] := by
  have hf : ¬ firstDraft.Full := by simp [firstDraft, Draft.Full, emptyPage, MESSAGES_PER_PAGE]
  have hfin : (firstDraft.placed 2 firstMessage).FiniteReactions := by
    intro m hm list hlist
    rw [Draft.placed, if_neg hf] at hm
    obtain rfl : m = firstMessage := by simpa [firstDraft, place, emptyPage] using hm
    simp [firstMessage, ConversationMessage.text] at hlist
  refine ⟨.json (.object (jsFields (firstDraft.placed 2 firstMessage).storedFields)), ?_⟩
  rw [Draft.Writes, if_neg hf]
  exact ⟨_, (encodePage_eq_ok _ _).mpr ⟨hfin, rfl⟩, rfl⟩

end CitadelAgent.Conversations
