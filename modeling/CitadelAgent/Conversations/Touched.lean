import CitadelAgent.Conversations.Poison
import CitadelAgent.Conversations.StoreRun

/-!
# What a call of the store touches

Each operation, whatever it answers, as what it does to the pages a conversation reads.

* `WrittenAs` : what is read where a page was written;
* `StoreOp.Rewrites` : how an operation writes a page that it has read;
* `PageAfter`, `MetadataAfter`, `Touched` : what becomes of each page and of the metadata, and that no record of another
  conversation changes.
-/

namespace CitadelAgent.Conversations
open Store StoreRules Result

/-! ## Records of one conversation -/

/-- No record of another conversation, and none that is no conversation's, has changed. -/
def Apart (own peer : Cid) (kv kv' : Kv) : Prop :=
  ∀ key, (∀ part, key ≠ (Place.mk (some own) peer part).name) → kv'.lookup key = kv.lookup key

namespace Apart

variable {own peer : Cid} {kv kv' kv'' : Kv}

theorem refl (own peer : Cid) (kv : Kv) : Apart own peer kv kv := fun _ _ => rfl

theorem trans (h : Apart own peer kv kv') (h' : Apart own peer kv' kv'') : Apart own peer kv kv'' :=
  fun key hkey => (h' key hkey).trans (h key hkey)

theorem insert (part : Option UInt32) (kv : Kv) (b : Bytes) :
    Apart own peer kv (kv.insert (Place.mk (some own) peer part).name b) := by
  intro key hkey
  rw [Kv.lookup_insert_eq, if_neg (hkey part)]

theorem frame (h : Apart own peer kv kv') : Frame own peer kv kv' := by
  refine fun p hp => h p.name fun part heq => hp ?_
  obtain rfl := Place.name_inj.mp heq
  exact ⟨rfl, rfl⟩

end Apart

section Frames

variable {own peer own' peer' : Cid} {kv kv' : Kv}

theorem Frame.pageOf (h : Frame own peer kv kv') (hne : ¬ (own' = own ∧ peer' = peer)) (n : UInt32) :
    pageOf kv' own' peer' n = pageOf kv own' peer' n := by
  have hscoped := h (.messages own' peer' n) (by simpa using hne)
  have hlegacy := h (.legacyMessages peer' n) (by simp)
  simp only [CitadelAgent.Conversations.pageOf, pageAtPlace, hscoped, hlegacy]

theorem Frame.metadataOf (h : Frame own peer kv kv') (hne : ¬ (own' = own ∧ peer' = peer)) :
    metadataOf kv' own' peer' = metadataOf kv own' peer' := by
  have hscoped := h (.metadata own' peer') (by simpa using hne)
  have hlegacy := h (.legacyMetadata peer') (by simp)
  simp only [CitadelAgent.Conversations.metadataOf, metadataAtPlace, hscoped, hlegacy]

end Frames

/-- What is read where `p` was written. -/
def WrittenAs (p : ConversationPage) (after : Except KvError (Option ConversationPage)) : Prop :=
  ∃ b, encodePage p = .ok b ∧ after = recordRead decodePage (some b)

theorem WrittenAs.eq_some {p : ConversationPage} {found : Option ConversationPage} (h : WrittenAs p (.ok found)) :
    found = some p.norm := by
  obtain ⟨b, hb, hread⟩ := h
  exact ((recordRead_encodePage hb found).mp hread.symm).2

theorem WrittenAs.of_readable {p : ConversationPage} {after : Except KvError (Option ConversationPage)}
    (h : WrittenAs p after) (hp : p.Readable) : after = .ok (some p.norm) := by
  obtain ⟨b, hb, rfl⟩ := h
  exact (recordRead_encodePage hb _).mpr ⟨hp, rfl⟩

/-- Every record that can be read names the conversation it is read for, and a page its own number. -/
structure Placed (kv : Kv) (own peer : Cid) : Prop where
  metadata : ∀ m, metadataOf kv own peer = .ok (some m) → m.peerCid = peer
  page : ∀ n p, pageOf kv own peer n = .ok (some p) → p.peerCid = peer ∧ p.pageNumber = n

def ConversationPage.kept (cutoff : F64) (p : ConversationPage) : ConversationPage :=
  { p with
    messages := p.messages.filter fun m => cutoff.le m.timestamp
    pageTimestamps := bounds (p.messages.filter fun m => cutoff.le m.timestamp) (F64.ofNat 0) }

/-- The page with what the loop of `mark_read` makes of its messages. -/
def ConversationPage.marked (peer : Cid) (wanted : Nat) (read : List ConversationMessage) (p : ConversationPage) :
    ConversationPage :=
  { p with messages := (readNewest peer wanted read p.messages.reverse).2.reverse }

namespace StoreOp

def target : StoreOp → Option String
  | .setStatus id _ _ | .patch id _ | .react id _ | .revise id _ _ _ | .remove id _ => some id
  | .append .. | .markRead _ | .pruneOlderThan .. | .setPeerUsername .. | .delete _ => none

def changed : StoreOp → ConversationMessage → Option ConversationMessage
  | .setStatus _ status error, m => statusSet status error m
  | .patch _ p, m => applyPatch p m
  | .react _ change, m => reacted change m
  | .revise _ reviser (.edit contents editedAt) _, m => if m.senderCid = reviser then edited contents editedAt m else none
  | _, _ => none

def Takes : StoreOp → ConversationMessage → Prop
  | .revise _ reviser .delete _, m => m.senderCid = reviser
  | .remove .., _ => True
  | _, _ => False

/-- The numbers an operation brings are finite, and its texts are ones that can be written. -/
def Sound : StoreOp → Prop
  | .append message _ now => message.Sound ∧ now.isFinite = true
  | .revise _ _ _ now | .remove _ now | .markRead now | .pruneOlderThan _ now | .setPeerUsername _ now => now.isFinite = true
  | .setStatus .. | .patch .. | .react .. | .delete _ => True

/-- How an operation writes a page that it has read. -/
inductive Rewrites (own peer : Cid) (kv : Kv) : StoreOp → ConversationPage → ConversationPage → Prop
  | closed (message : ConversationMessage) (name : Option String) (now : F64) (p : ConversationPage) :
    Rewrites own peer kv (.append message name now) p p
  | placed (message : ConversationMessage) (name : Option String) (now : F64) (p : ConversationPage)
    (hroom : p.messages.length < MESSAGES_PER_PAGE) (hnew : p.messages.any (hasId message.id) = false) :
    Rewrites own peer kv (.append message name now) p (place p message)
  | changed (op : StoreOp) (id : String) (f : Found) (m : ConversationMessage) (hid : op.target = some id)
    (hf : foundIn kv own peer id = .ok (some f)) (hm : op.changed f.message = some m) :
    Rewrites own peer kv op f.page (f.replaced m)
  | taken (op : StoreOp) (id : String) (f : Found) (hid : op.target = some id)
    (hf : foundIn kv own peer id = .ok (some f)) (ht : op.Takes f.message) : Rewrites own peer kv op f.page f.removed
  | marked (now : F64) (wanted : Nat) (read : List ConversationMessage) (p : ConversationPage) :
    Rewrites own peer kv (.markRead now) p (p.marked peer wanted read)
  | pruned (cutoff now : F64) (p : ConversationPage) : Rewrites own peer kv (.pruneOlderThan cutoff now) p (p.kept cutoff)

end StoreOp

/-- What is read of page `n` after an operation. -/
inductive PageAfter (own peer : Cid) (op : StoreOp) (kv : Kv) (n : UInt32) (after : Except KvError (Option ConversationPage)) :
    Prop
  | same (h : after = pageOf kv own peer n)
  | rewritten (p p' : ConversationPage) (hp : pageOf kv own peer n = .ok (some p)) (hr : op.Rewrites own peer kv p p')
    (hw : WrittenAs p' after)
  | opened (message : ConversationMessage) (name : Option String) (now : F64) (hop : op = .append message name now)
    (hnew : pageOf kv own peer n = .ok none ∨
      ∃ found, metadataOf kv own peer = .ok found ∧ ∀ m, found = some m → m.latestPage < n)
    (hw : WrittenAs (place (emptyPage peer n message.timestamp) message) after)
  | gone (includeUnattributed : Bool) (hop : op = .delete includeUnattributed) (h : after = .ok none)

def MetadataAs (m : ConversationMetadata) (after : Except KvError (Option ConversationMetadata)) : Prop :=
  after = recordRead decodeMetadata (some (metadataBytes m))

variable {m : ConversationMetadata} {b : Bytes} {id : String} {now : F64}

theorem MetadataAs.eq_some {found : Option ConversationMetadata} (h : MetadataAs m (.ok found)) :
    found = some m.norm := ((recordRead_metadataBytes m found).mp h.symm).2

theorem MetadataAs.of_readable {after : Except KvError (Option ConversationMetadata)}
    (h : MetadataAs m after) (hm : m.Readable) : after = .ok (some m.norm) :=
  h.trans ((recordRead_metadataBytes m _).mpr ⟨hm, rfl⟩)

inductive MetadataAfter (own peer : Cid) (op : StoreOp) (kv : Kv) (after : Except KvError (Option ConversationMetadata)) :
    Prop
  | same (h : after = metadataOf kv own peer)
  | rewritten (m m' : ConversationMetadata) (hm : metadataOf kv own peer = .ok (some m)) (hpeer : m'.peerCid = peer)
    (hlatest : m'.latestPage = m.latestPage) (hr : op.Sound → NoLegacy kv → Good kv own peer → m'.Readable)
    (hw : MetadataAs m' after)
  | appended (message : ConversationMessage) (name : Option String) (now : F64) (d : Draft)
    (hop : op = .append message name now) (hd : draftOf kv own peer message name = .ok (some d))
    (hw : MetadataAs (d.recorded own message now) after)
  | gone (includeUnattributed : Bool) (hop : op = .delete includeUnattributed) (h : after = .ok none)

/-- What an operation, whatever it answers, has done to its conversation; other records are as they were. -/
structure Touched (own peer : Cid) (op : StoreOp) (kv kv' : Kv) : Prop where
  page : ∀ n, PageAfter own peer op kv n (pageOf kv' own peer n)
  metadata : MetadataAfter own peer op kv (metadataOf kv' own peer)
  apart : Apart own peer kv kv'

section Touching

variable {kv kv' : Kv} {own peer : Cid} {op : StoreOp}

theorem Touched.refl (own peer : Cid) (op : StoreOp) (kv : Kv) : Touched own peer op kv kv :=
  ⟨fun _ => .same rfl, .same rfl, .refl _ _ _⟩

theorem Touched.write (h : Touched own peer op kv kv') {m' : ConversationMetadata}
    (hafter : ∀ after, MetadataAs m' after → MetadataAfter own peer op kv after) :
    Touched own peer op kv (kv'.insert (Place.metadata own peer).name (metadataBytes m')) where
  page n := (pageOf_insert_metadata kv' own peer peer n _).symm ▸ h.page n
  metadata := hafter _ (by rw [metadataOf_insert_metadata, if_pos rfl]; rfl)
  apart := h.apart.trans (.insert none kv' _)

theorem Touched.saveMetadata (h : Touched own peer op kv kv') (m' : ConversationMetadata)
    (hm : metadataOf kv own peer = .ok (some m)) (hpeer : m'.peerCid = peer) (hlatest : m'.latestPage = m.latestPage)
    (hr : op.Sound → NoLegacy kv → Good kv own peer → m'.Readable) :
    Touched own peer op kv (Kv.exec (Store.saveMetadata own m') kv').2 := by
  rw [exec_saveMetadata, hpeer]
  exact h.write fun after hw => .rewritten m m' hm hpeer hlatest hr hw

theorem touched_insert {n : UInt32} {p p' : ConversationPage} (hb : encodePage p' = .ok b)
    (hp : pageOf kv own peer n = .ok (some p)) (hr : op.Rewrites own peer kv p p') :
    Touched own peer op kv (kv.insert (Place.messages own peer n).name b) := by
  refine ⟨fun k => ?_, .same (metadataOf_insert_messages ..), .insert (some n) kv b⟩
  rw [pageOf_insert_messages]
  split_ifs with hk
  · rw [hk.2]
    exact .rewritten p p' hp hr ⟨b, hb, rfl⟩
  · exact .same rfl

theorem Placed.found (h : Placed kv own peer) {f : Found} (hf : foundIn kv own peer id = .ok (some f)) :
    pageOf kv own peer f.page.pageNumber = .ok (some f.page) ∧ f.page.peerCid = peer ∧ f.metadata.peerCid = peer := by
  obtain ⟨hmeta, -, n, -, hpage⟩ := foundIn_eq_some hf
  obtain ⟨hpeer, rfl⟩ := h.page n f.page hpage
  exact ⟨hpage, hpeer, h.metadata _ hmeta⟩

/-! ## Changing one message -/

theorem update_touched (h : Placed kv own peer) {change : ConversationMessage → Option ConversationMessage}
    (hid : op.target = some id) (hchange : op.changed = change) :
    Touched own peer op kv (Kv.exec (update own peer id change) kv).2 := by
  rw [update, Kv.exec_bind, exec_find]
  cases hf : foundIn kv own peer id with
  | error e => exact .refl _ _ _ _
  | ok found =>
    cases found with
    | none => exact .refl _ _ _ _
    | some f =>
      obtain ⟨hpage, hpeer, -⟩ := h.found hf
      simp only [Prog.resume_ok]
      cases hm : change f.message with
      | none => exact .refl _ _ _ _
      | some m =>
        have hr : op.Rewrites own peer kv f.page (f.replaced m) := .changed op id f m hid hf (hchange ▸ hm)
        simp only [Kv.exec_bind, exec_savePage]
        cases hb : encodePage (f.replaced m) with
        | error e => exact .refl _ _ _ _
        | ok b =>
          show Touched own peer op kv (kv.insert (Place.messages own f.page.peerCid f.page.pageNumber).name b)
          rw [hpeer]
          exact touched_insert hb hpage hr

theorem remove_touched (h : Placed kv own peer) (hid : op.target = some id)
    (htakes : ∀ f, foundIn kv own peer id = .ok (some f) → op.Takes f.message) (hnow : op.Sound → now.isFinite = true) :
    Touched own peer op kv (Kv.exec (remove own peer id now) kv).2 := by
  rw [remove, Kv.exec_bind, exec_find]
  cases hf : foundIn kv own peer id with
  | error e => exact .refl _ _ _ _
  | ok found =>
    cases found with
    | none => exact .refl _ _ _ _
    | some f =>
      obtain ⟨hpage, hpeer, hmeta⟩ := h.found hf
      have hloaded := (foundIn_eq_some hf).1
      have hr : op.Rewrites own peer kv f.page f.removed := .taken op id f hid hf (htakes f hf)
      simp only [Prog.resume_ok, Kv.exec_bind, exec_savePage]
      cases hb : encodePage f.removed with
      | error e => exact .refl _ _ _ _
      | ok b =>
        have hsaved := (touched_insert hb hpage hr).saveMetadata { f.metadata with
          totalMessageCount := (f.metadata.totalMessageCount.sub (F64.ofNat 1)).max (F64.ofNat 0)
          lastUpdated := now } hloaded hmeta rfl fun hs _ _ => readable_removed (readable_of_metadataOf hloaded) (hnow hs)
        rw [exec_saveMetadata] at hsaved
        simp only [Prog.resume_ok, Kv.exec_bind, exec_saveMetadata, Kv.exec_pure]
        rw [show f.removed.peerCid = peer from hpeer]
        exact hsaved

theorem revise_touched (h : Placed kv own peer) (id : String) (reviser : Cid) (revision : Revision) (now : F64) :
    Touched own peer (.revise id reviser revision now) kv (Kv.exec (revise own peer id reviser revision now) kv).2 := by
  rw [revise, Kv.exec_bind, exec_find]
  cases hf : foundIn kv own peer id with
  | error e => exact .refl _ _ _ _
  | ok found =>
    cases found with
    | none => exact .refl _ _ _ _
    | some f =>
      simp only [Prog.resume_ok]
      split_ifs with hsender
      · exact .refl _ _ _ _
      · rw [not_not] at hsender
        cases revision with
        | delete =>
          have htaken : Touched own peer (.revise id reviser .delete now) kv (Kv.exec (remove own peer id now) kv).2 := by
            refine remove_touched h rfl (fun f' hf' => ?_) fun hs => hs
            rw [hf, Except.ok.injEq, Option.some.injEq] at hf'
            exact hf' ▸ hsender
          simp only [Kv.exec_bind]
          rcases hr : Kv.exec (remove own peer id now) kv with ⟨r, kv'⟩
          rw [hr] at htaken
          cases r with
          | error e => exact htaken
          | ok b => cases b <;> exact htaken
        | edit contents editedAt =>
          obtain ⟨hpage, hpeer, -⟩ := h.found hf
          have hr : (StoreOp.revise id reviser (.edit contents editedAt) now).Rewrites own peer kv f.page
              (f.replaced { f.message with content := contents, editedAt := some editedAt }) :=
            .changed _ id f _ rfl hf (if_pos hsender)
          simp only [Kv.exec_bind, exec_savePage]
          cases hb : encodePage (f.replaced { f.message with content := contents, editedAt := some editedAt }) with
          | error e => exact .refl _ _ _ _
          | ok b =>
            show Touched own peer _ kv (kv.insert (Place.messages own f.page.peerCid f.page.pageNumber).name b)
            rw [hpeer]
            exact touched_insert hb hpage hr

theorem setPeerUsername_touched (h : Placed kv own peer) (username : String) (now : F64) :
    Touched own peer (.setPeerUsername username now) kv (Kv.exec (setPeerUsername own peer username now) kv).2 := by
  rw [setPeerUsername, Kv.exec_bind, exec_loadMetadata]
  cases hm : metadataOf kv own peer with
  | error e => exact .refl _ _ _ _
  | ok found =>
    cases found with
    | none => exact .refl _ _ _ _
    | some m =>
      simp only [Prog.resume_ok]
      split_ifs
      · refine (Touched.refl own peer _ kv).saveMetadata _ hm (h.metadata m hm) rfl fun hs _ _ => ?_
        have hread := readable_of_metadataOf hm
        exact ⟨hread.totalMessageCount, hread.oldestMessageTimestamp, hread.newestMessageTimestamp, hread.unreadCount,
          hread.lastMessageIndex, hs⟩
      · exact .refl _ _ _ _

/-! ## Appending -/

theorem Draft.page_eq (h : Placed kv own peer) {d : Draft} {message : ConversationMessage} {name : Option String}
    (hd : draftOf kv own peer message name = .ok (some d)) :
    d.metadata.peerCid = peer ∧ d.page.peerCid = peer ∧ d.page.pageNumber = d.metadata.latestPage ∧
      d.page.messages.any (hasId message.id) = false ∧
      (pageOf kv own peer d.metadata.latestPage = .ok (some d.page) ∨
        (pageOf kv own peer d.metadata.latestPage = .ok none ∧
          d.page = emptyPage peer d.metadata.latestPage message.timestamp)) := by
  obtain ⟨existing, hmeta, hm, -, hpage, hstored⟩ := draftOf_eq_some.mp hd
  obtain ⟨found, hfound, hget⟩ := newestPage_eq_ok.mp hpage
  have hnew := (storedIn_eq_false.mp hstored).1
  have hpeer : d.metadata.peerCid = peer := by
    rw [hm]
    cases existing with
    | none => rfl
    | some m => exact h.metadata m hmeta
  cases found with
  | none =>
    rw [Option.getD_none] at hget
    exact ⟨hpeer, by rw [hget]; rfl, by rw [hget]; rfl, hnew, .inr ⟨hfound, hget⟩⟩
  | some p =>
    rw [Option.getD_some] at hget
    obtain ⟨h1, h2⟩ := h.page _ p hfound
    rw [hget] at hnew ⊢
    exact ⟨hpeer, h1, h2, hnew, .inl hfound⟩

theorem Draft.latestPage_eq {d : Draft} {message : ConversationMessage} {name : Option String}
    (hd : draftOf kv own peer message name = .ok (some d))
    (hm : metadataOf kv own peer = .ok (some m)) : d.metadata.latestPage = m.latestPage := by
  obtain ⟨existing, hmeta, hdm, -⟩ := draftOf_eq_some.mp hd
  rw [hm, Except.ok.injEq] at hmeta
  rw [hdm, ← hmeta]
  rfl

theorem append_outcome (message : ConversationMessage) (name : Option String) (now : F64) (kv : Kv) :
    (Kv.exec (append own peer message name now) kv).2 = kv ∨
    (∃ d b, draftOf kv own peer message name = .ok (some d) ∧ d.Full ∧ encodePage d.page = .ok b ∧
      (Kv.exec (append own peer message name now) kv).2 =
        kv.insert (Place.messages own d.page.peerCid d.page.pageNumber).name b) ∨
    ∃ d writes, draftOf kv own peer message name = .ok (some d) ∧ d.Writes own peer message writes ∧
      (Kv.exec (append own peer message name now) kv).2 = insertAll (writes ++ [d.pointer own message now]) kv := by
  rcases hrun : Kv.exec (append own peer message name now) kv with ⟨r, kv'⟩
  cases r with
  | ok result =>
    rcases append_eq_ok hrun with ⟨-, rfl⟩ | ⟨d, writes, hd, hw, -, rfl⟩
    · exact .inl rfl
    · exact .inr (.inr ⟨d, writes, hd, hw, rfl⟩)
  | error e =>
    rw [Kv.exec, exec_append_of_honest honest_handle, id] at hrun
    cases hd : draftOf kv own peer message name with
    | error e' =>
      rw [hd] at hrun
      exact .inl (Prod.mk.inj hrun).2.symm
    | ok found =>
      rw [hd] at hrun
      cases found with
      | none => exact .inl (Prod.mk.inj hrun).2.symm
      | some d =>
        dsimp only at hrun
        -- The metadata is always written after the message's page, so a commit fails before that page.
        have htail : ∀ s : Kv, Kv.exec (do
            savePage own (d.placed peer message)
            saveMetadata own (d.recorded own message now)
            return some (d.recorded own message now)) s = (.error e, kv') → kv' = s := by
          intro s hs
          rw [Kv.exec_bind, exec_savePage] at hs
          cases hb : encodePage (d.placed peer message) with
          | error e' =>
            rw [hb] at hs
            exact (Prod.mk.inj hs).2.symm
          | ok b =>
            rw [hb] at hs
            simp only [Prog.resume_ok, Kv.exec_bind, exec_saveMetadata, Kv.exec_pure] at hs
            cases (Prod.mk.inj hs).1
        by_cases hf : d.Full
        · rw [exec_commit_full _ hf, ← Kv.exec, Kv.exec_bind, exec_savePage] at hrun
          cases hb : encodePage d.page with
          | error e' =>
            rw [hb] at hrun
            exact .inl (Prod.mk.inj hrun).2.symm
          | ok b =>
            rw [hb, Prog.resume_ok, Kv.exec_bind, nextPage] at hrun
            refine .inr (.inl ⟨d, b, rfl, hf, hb, ?_⟩)
            split_ifs at hrun with hroom
            · exact htail _ hrun
            · exact (Prod.mk.inj hrun).2.symm
        · rw [exec_commit _ hf, ← Kv.exec] at hrun
          exact .inl (htail _ hrun)

theorem append_touched (h : Placed kv own peer) (message : ConversationMessage) (name : Option String) (now : F64) :
    Touched own peer (.append message name now) kv (Kv.exec (append own peer message name now) kv).2 := by
  rcases append_outcome message name now kv with hkv | ⟨d, b, hd, hf, hb, hkv⟩ | ⟨d, writes, hd, hw, hkv⟩
  · rw [hkv]
    exact .refl _ _ _ _
  · obtain ⟨-, hpeer, hnumber, -⟩ := Draft.page_eq h hd
    rw [hkv, hpeer, hnumber]
    exact touched_insert hb (pageOf_of_full hd hf) (.closed message name now d.page)
  · obtain ⟨hmeta, hpeer, hnumber, hnew, hpage⟩ := Draft.page_eq h hd
    rw [hkv, insertAll_concat, Draft.pointer, hmeta]
    refine Touched.write ?_ fun after has => .appended message name now d rfl hd has
    unfold Draft.Writes at hw
    split_ifs at hw with hf
    · obtain ⟨hroom, closed, placed, hclosed, hplaced, rfl⟩ := hw
      have hnext : d.metadata.latestPage < d.metadata.latestPage + 1 := by
        rw [UInt32.lt_iff_toNat_lt, toNat_add_one hroom]
        omega
      have hclose := touched_insert hclosed (pageOf_of_full hd hf) (.closed message name now d.page)
      rw [insertAll, insertAll, insertAll, hpeer, hnumber]
      refine ⟨fun n => ?_, .same ?_, hclose.apart.trans (.insert (some d.number) _ _)⟩
      swap
      · rw [metadataOf_insert_messages, metadataOf_insert_messages]
      rw [pageOf_insert_messages]
      split_ifs with hn
      · rw [Draft.placed, if_pos hf] at hplaced
        rw [hn.2, Draft.number, if_pos hf]
        obtain ⟨existing, hexisting, -⟩ := draftOf_eq_some.mp hd
        refine .opened message name now rfl (.inr ⟨existing, hexisting, fun m hm => ?_⟩) ⟨placed, hplaced, rfl⟩
        rwa [← Draft.latestPage_eq hd (hm ▸ hexisting)]
      · exact hclose.page n
    · obtain ⟨placed, hplaced, rfl⟩ := hw
      rw [Draft.placed, if_neg hf] at hplaced
      rw [insertAll, insertAll, hpeer, hnumber]
      rcases hpage with hpage | ⟨hpage, hempty⟩
      · exact touched_insert hplaced hpage (.placed message name now d.page (not_le.mp hf) hnew)
      · refine ⟨fun n => ?_, .same (metadataOf_insert_messages ..), .insert (some d.metadata.latestPage) kv placed⟩
        rw [pageOf_insert_messages]
        split_ifs with hn
        · rw [hempty] at hplaced
          rw [hn.2]
          exact .opened message name now rfl (.inl hpage) ⟨placed, hplaced, rfl⟩
        · exact .same rfl

/-! ## The loops -/

theorem Placed.insert (h : Placed kv own peer) {n : UInt32} {p : ConversationPage} (hb : encodePage p = .ok b)
    (hpeer : p.peerCid = peer) (hnumber : p.pageNumber = n) :
    Placed (kv.insert (Place.messages own peer n).name b) own peer where
  metadata m hm := h.metadata m (by rwa [metadataOf_insert_messages] at hm)
  page k q hq := by
    rw [pageOf_insert_messages] at hq
    split_ifs at hq with hk
    · obtain ⟨-, hnorm⟩ := (recordRead_encodePage hb _).mp hq
      rw [hk.2, Option.some.inj hnorm]
      exact ⟨hpeer, hnumber⟩
    · exact h.page k q hq

/-- What a loop over these pages has done, each of them written at most once, as `R` says. -/
structure Looped (own peer : Cid) (R : ConversationPage → ConversationPage → Prop) (numbers : List UInt32) (kv kv' : Kv) :
    Prop where
  page : ∀ n, pageOf kv' own peer n = pageOf kv own peer n ∨ (n ∈ numbers ∧
    ∃ p p', pageOf kv own peer n = .ok (some p) ∧ R p p' ∧ WrittenAs p' (pageOf kv' own peer n))
  metadata : metadataOf kv' own peer = metadataOf kv own peer
  apart : Apart own peer kv kv'

variable {R : ConversationPage → ConversationPage → Prop} {number : UInt32} {numbers : List UInt32}

theorem Looped.refl (own peer : Cid) (R : ConversationPage → ConversationPage → Prop) (numbers : List UInt32) (kv : Kv) :
    Looped own peer R numbers kv kv := ⟨fun _ => .inl rfl, rfl, .refl _ _ _⟩

theorem Looped.skip (h : Looped own peer R numbers kv kv') : Looped own peer R (number :: numbers) kv kv' :=
  ⟨fun n => (h.page n).imp_right fun ⟨hn, hw⟩ => ⟨List.mem_cons_of_mem _ hn, hw⟩, h.metadata, h.apart⟩

theorem Looped.write {p p' : ConversationPage} (hp : pageOf kv own peer number = .ok (some p)) (hr : R p p')
    (hb : encodePage p' = .ok b) (hnot : number ∉ numbers)
    (h : Looped own peer R numbers (kv.insert (Place.messages own peer number).name b) kv') :
    Looped own peer R (number :: numbers) kv kv' where
  page n := by
    have hn := h.page n
    rw [pageOf_insert_messages] at hn
    by_cases hnum : n = number
    · subst hnum
      rw [if_pos ⟨rfl, rfl⟩] at hn
      rcases hn with hn | ⟨hmem, -⟩
      · exact .inr ⟨List.mem_cons_self, p, p', hp, hr, b, hb, hn⟩
      · exact absurd hmem hnot
    · rw [if_neg fun hk => hnum hk.2] at hn
      exact hn.imp_right fun ⟨hmem, hw⟩ => ⟨List.mem_cons_of_mem _ hmem, hw⟩
  metadata := h.metadata.trans (metadataOf_insert_messages _ _ _ _ _ _)
  apart := (Apart.insert (some number) kv b).trans h.apart

theorem Looped.touched (h : Looped own peer R numbers kv kv') (op : StoreOp) (hr : ∀ p p', R p p' → op.Rewrites own peer kv p p') :
    Touched own peer op kv kv' where
  page n := by
    rcases h.page n with hsame | ⟨-, p, p', hp, hpp, hw⟩
    · exact .same hsame
    · exact .rewritten p p' hp (hr p p' hpp) hw
  metadata := .same h.metadata
  apart := h.apart

theorem readPages_looped (h : Placed kv own peer) (wanted : Nat) (hnodup : numbers.Nodup) (read : List ConversationMessage) :
    Looped own peer (fun p p' => ∃ read, p' = p.marked peer wanted read) numbers kv
      (Kv.exec (readPages own peer wanted numbers read) kv).2 := by
  induction numbers generalizing read kv with
  | nil => exact .refl _ _ _ _ _
  | cons number older ih =>
    rw [List.nodup_cons] at hnodup
    rw [readPages]
    split_ifs with hdone
    · exact .refl _ _ _ _ _
    · rw [Kv.exec_bind, exec_loadPage]
      cases hp : pageOf kv own peer number with
      | error e => exact .refl _ _ _ _ _
      | ok found =>
        cases found with
        | none => exact .skip (ih h hnodup.2 read)
        | some page =>
          obtain ⟨hpeer, hnumber⟩ := h.page number page hp
          simp only [Prog.resume_ok]
          split_ifs with hgrew
          · rw [Kv.exec_bind, exec_savePage]
            cases hb : encodePage (page.marked peer wanted read) with
            | error e =>
              rw [ConversationPage.marked] at hb
              rw [hb]
              exact .refl _ _ _ _ _
            | ok b =>
              have hb' := hb
              rw [ConversationPage.marked] at hb'
              rw [hb', hpeer, hnumber]
              exact .write hp ⟨read, rfl⟩ hb hnodup.1 (ih (h.insert hb hpeer hnumber) hnodup.2 _)
          · exact .skip (ih h hnodup.2 _)

theorem readable_marked (hm : m.Readable) (hnow : now.isFinite = true) :
    ({ m with unreadCount := F64.ofNat 0, lastUpdated := now } : ConversationMetadata).Readable := by
  have h0 : (F64.ofNat 0).isFinite = true := F64.isFinite_ofNat (by decide)
  refine ⟨hm.totalMessageCount, hm.oldestMessageTimestamp, hm.newestMessageTimestamp, ?_, hm.lastMessageIndex, hnow⟩
  dsimp only
  exact h0

theorem markRead_touched (h : Placed kv own peer) (now : F64) :
    Touched own peer (.markRead now) kv (Kv.exec (markRead own peer now) kv).2 := by
  rw [markRead, Kv.exec_bind, exec_loadMetadata]
  cases hm : metadataOf kv own peer with
  | error e => exact .refl _ _ _ _
  | ok found =>
    cases found with
    | none => exact .refl _ _ _ _
    | some m =>
      have hloop := readPages_looped h (wantedOf m) (List.nodup_reverse.mpr (nodup_pagesTo m.latestPage)) []
      have htouched := hloop.touched (.markRead now) fun p p' ⟨read, hp'⟩ => hp' ▸ .marked now _ read p
      simp only [Prog.resume_ok, Kv.exec_bind]
      rw [wantedOf] at htouched
      rcases hrun : Kv.exec (readPages own peer (m.unreadCount.max (F64.ofNat 0)).toU64.toNat
        (pagesTo m.latestPage).reverse []) kv with ⟨r, kv₁⟩
      rw [hrun] at htouched
      cases r with
      | error e => exact htouched
      | ok read =>
        have hsaved := htouched.saveMetadata { m with unreadCount := F64.ofNat 0, lastUpdated := now } hm
          (h.metadata m hm) rfl fun hs _ _ => readable_marked (readable_of_metadataOf hm) hs
        rw [exec_saveMetadata] at hsaved
        simp only [Prog.resume_ok, Kv.exec_bind, exec_saveMetadata, Kv.exec_pure]
        exact hsaved

theorem prunePages_looped (h : Placed kv own peer) (cutoff : F64) (hnodup : numbers.Nodup) (removed : Nat)
    (oldest : Option F64) : Looped own peer (fun p p' => p' = p.kept cutoff) numbers kv
      (Kv.exec (prunePages own peer cutoff numbers removed oldest) kv).2 := by
  induction numbers generalizing removed oldest kv with
  | nil => exact .refl _ _ _ _ _
  | cons number newer ih =>
    rw [List.nodup_cons] at hnodup
    rw [prunePages, Kv.exec_bind, exec_loadPage]
    cases hp : pageOf kv own peer number with
    | error e => exact .refl _ _ _ _ _
    | ok found =>
      cases found with
      | none => exact .skip (ih h hnodup.2 removed oldest)
      | some page =>
        obtain ⟨hpeer, hnumber⟩ := h.page number page hp
        simp only [Prog.resume_ok]
        split_ifs with hall
        · exact .skip (ih h hnodup.2 _ _)
        · rw [Kv.exec_bind, exec_savePage]
          cases hb : encodePage (page.kept cutoff) with
          | error e =>
            rw [ConversationPage.kept] at hb
            rw [hb]
            exact .refl _ _ _ _ _
          | ok b =>
            have hb' := hb
            rw [ConversationPage.kept] at hb'
            rw [hb', hpeer, hnumber]
            exact .write hp rfl hb hnodup.1 (ih (h.insert hb hpeer hnumber) hnodup.2 _ _)

theorem pruned_readable (hl : NoLegacy kv) (hg : Good kv own peer) (hm : metadataOf kv own peer = .ok (some m)) {cutoff : F64}
    {removed : Nat} {oldest : Option F64}
    (hrun : Kv.exec (prunePages own peer cutoff (pagesTo m.latestPage) 0 none) kv = (.ok (removed, oldest), kv'))
    (hnow : now.isFinite = true) : ({ m with
      totalMessageCount := (m.totalMessageCount.sub (F64.ofNat removed)).max (F64.ofNat 0)
      oldestMessageTimestamp := oldest.getD (F64.ofNat 0)
      lastUpdated := now } : ConversationMetadata).Readable := by
  rcases hg with habs | ⟨c, hc, hok⟩
  · rw [metadataOf_absent hl habs] at hm
    cases hm
  · have hread := readable_of_metadataOf hm
    obtain rfl := Option.some.inj (metadataOf_holds hc hm)
    obtain ⟨pages', -, hpr, -⟩ := prunePages_mid hl (fun o ho => by cases ho) (Mid.start hc.pages hok.pages) hrun
    have hcount := hpr.count
    have hlt := Conversation.count_lt hok.pages
    refine ⟨?_, ?_, hread.newestMessageTimestamp, hread.unreadCount, hread.lastMessageIndex, hnow⟩
    · show ((c.metadata.norm.totalMessageCount.sub (F64.ofNat removed)).max (F64.ofNat 0)).isFinite = true
      rw [hok.total_norm, F64.ofNat_sub_max (by omega) (by omega)]
      exact F64.isFinite_ofNat (by omega)
    · show (oldest.getD (F64.ofNat 0)).isFinite = true
      cases oldest with
      | none =>
        rw [Option.getD_none]
        exact F64.isFinite_ofNat (by decide)
      | some o => exact hpr.finite o rfl

theorem pruneOlderThan_touched (h : Placed kv own peer) (cutoff now : F64) :
    Touched own peer (.pruneOlderThan cutoff now) kv (Kv.exec (pruneOlderThan own peer cutoff now) kv).2 := by
  rw [pruneOlderThan, Kv.exec_bind, exec_loadMetadata]
  cases hm : metadataOf kv own peer with
  | error e => exact .refl _ _ _ _
  | ok found =>
    cases found with
    | none => exact .refl _ _ _ _
    | some m =>
      have hloop := prunePages_looped h cutoff (nodup_pagesTo m.latestPage) 0 none
      have htouched := hloop.touched (.pruneOlderThan cutoff now) fun p p' hp' => hp' ▸ .pruned cutoff now p
      simp only [Prog.resume_ok]
      split_ifs
      · exact .refl _ _ _ _
      · rw [Kv.exec_bind]
        rcases hrun : Kv.exec (prunePages own peer cutoff (pagesTo m.latestPage) 0 none) kv with ⟨r, kv₁⟩
        rw [hrun] at htouched
        cases r with
        | error e => exact htouched
        | ok result =>
          obtain ⟨removed, oldest⟩ := result
          simp only [Prog.resume_ok]
          split_ifs
          · exact htouched
          · have hsaved := htouched.saveMetadata { m with
              totalMessageCount := (m.totalMessageCount.sub (F64.ofNat removed)).max (F64.ofNat 0)
              oldestMessageTimestamp := oldest.getD (F64.ofNat 0)
              lastUpdated := now } hm (h.metadata m hm) rfl fun hs hl hg => pruned_readable hl hg hm hrun hs
            rw [exec_saveMetadata] at hsaved
            simp only [Kv.exec_bind, exec_saveMetadata, Prog.resume_ok, Kv.exec_pure]
            exact hsaved

/-! ## Deleting -/

theorem delete_outcome (hl : NoLegacy kv) (includeUnattributed : Bool) :
    (Kv.exec (delete own peer includeUnattributed) kv).2 = kv ∨ ∃ m, metadataOf kv own peer = .ok (some m) ∧
      ∀ key, (Kv.exec (delete own peer includeUnattributed) kv).2.lookup key =
        if key = (Place.metadata own peer).name ∨ key ∈ (pagesTo m.latestPage).map (pageKey (scopedKey own peer)) then none
        else kv.lookup key := by
  rw [delete, Kv.exec_bind, exec_loadMetadata]
  cases hm : metadataOf kv own peer with
  | error e => exact .inl rfl
  | ok found =>
    cases found with
    | none => exact .inl rfl
    | some m =>
      simp only [Prog.resume_ok]
      split_ifs with hmay
      · exact .inl rfl
      · refine .inr ⟨m, rfl, fun key => ?_⟩
        obtain ⟨kv₁, hpages, hlookup⟩ := exec_deleteAll ((pagesTo m.latestPage).map (pageKey (scopedKey own peer))) kv
        rw [Kv.exec_bind, hpages, Prog.resume_ok, Kv.exec_bind, Kv.exec_delete, Prog.resume_ok]
        -- What is under the scoped keys is gone, and there is nothing under the others.
        have hscoped : ∀ key, (kv₁.erase (metadataKey (scopedKey own peer))).lookup key =
            if key = (Place.metadata own peer).name ∨ key ∈ (pagesTo m.latestPage).map (pageKey (scopedKey own peer)) then
              none else kv.lookup key := by
          intro key
          rw [Kv.lookup_erase_eq, hlookup, show metadataKey (scopedKey own peer) = (Place.metadata own peer).name from rfl]
          by_cases h1 : key = (Place.metadata own peer).name
          · simp [h1]
          · simp [h1]
        generalize kv₁.erase (metadataKey (scopedKey own peer)) = kv₂ at hscoped ⊢
        have hlegacy : ∀ part, kv₂.lookup (Place.mk none peer part).name = none := by
          intro part
          rw [hscoped]
          split_ifs
          · rfl
          · exact hl peer part
        have hread : Kv.exec (metadataAt (metadataKey (legacyKey peer))) kv₂ = (.ok none, kv₂) := by
          have hnone : Kv.at_ kv₂ (.legacyMetadata peer) = none := hlegacy none
          have hat := exec_metadataAt honest_handle (.legacyMetadata peer) kv₂
          rw [metadataAtPlace, id, hnone] at hat
          exact hat
        rw [Kv.exec_bind, hread, Prog.resume_ok, ← hscoped]
        dsimp only
        split_ifs with hallowed
        · obtain ⟨kv₃, hpages', hlookup'⟩ := exec_deleteAll ((pagesTo m.latestPage).map (pageKey (legacyKey peer))) kv₂
          simp only [Kv.exec_bind, hpages', Prog.resume_ok, Kv.exec_delete, Kv.exec_pure]
          rw [Kv.lookup_erase_eq, hlookup']
          split_ifs with h1 h2
          · rw [h1]
            exact (hlegacy none).symm
          · obtain ⟨n, -, rfl⟩ := List.mem_map.mp h2
            exact (hlegacy (some n)).symm
          · rfl
        · rfl

theorem reads_of_delete (hl : NoLegacy kv)
    (h : ∀ key, kv'.lookup key =
      if key = (Place.metadata own peer).name ∨ key ∈ (pagesTo m.latestPage).map (pageKey (scopedKey own peer)) then none
      else kv.lookup key) :
    metadataOf kv' own peer = .ok none ∧
      ∀ n, pageOf kv' own peer n = if n ≤ m.latestPage then .ok none else pageOf kv own peer n := by
  have hat : ∀ p : Place, kv'.at_ p = if p = .metadata own peer ∨ (p.owner = some own ∧ p.peer = peer ∧
      ∃ n ≤ m.latestPage, p.page = some n) then none else kv.at_ p := by
    intro p
    rw [Kv.at_, h, Kv.at_]
    have hkeys : p.name ∈ (pagesTo m.latestPage).map (pageKey (scopedKey own peer)) ↔
        p.owner = some own ∧ p.peer = peer ∧ ∃ n ≤ m.latestPage, p.page = some n := mem_pageKeys (o := some own)
    simp only [Place.name_inj, hkeys]
  have hnone : ∀ part, kv'.at_ ⟨none, peer, part⟩ = none := by
    intro part
    rw [hat, hl, ite_self]
  constructor
  · simp only [metadataOf, metadataAtPlace, hat (.metadata own peer), hnone, true_or, if_true, recordRead, Option.filter_none]
  · intro n
    have hscoped : kv'.at_ (.messages own peer n) = if n ≤ m.latestPage then none else kv.at_ (.messages own peer n) := by
      rw [hat]
      simp
    have hlegacy : kv.at_ (.legacyMessages peer n) = none := hl peer (some n)
    by_cases hn : n ≤ m.latestPage
    · simp [pageOf, pageAtPlace, hscoped, hnone, hn, recordRead]
    · simp [pageOf, pageAtPlace, hscoped, hnone, hn, hlegacy]

theorem delete_touched (hl : NoLegacy kv) (includeUnattributed : Bool) :
    Touched own peer (.delete includeUnattributed) kv (Kv.exec (delete own peer includeUnattributed) kv).2 := by
  rcases @delete_outcome kv own peer hl includeUnattributed with hkv | ⟨m, -, hlookup⟩
  · rw [hkv]
    exact .refl _ _ _ _
  · refine ⟨fun n => ?_, .gone includeUnattributed rfl (reads_of_delete hl hlookup).1, fun key hkey => ?_⟩
    · rw [(reads_of_delete hl hlookup).2 n]
      split_ifs
      · exact .gone includeUnattributed rfl rfl
      · exact .same rfl
    · rw [hlookup, if_neg]
      rintro (hmeta | hpage)
      · exact hkey none hmeta
      · obtain ⟨n, -, rfl⟩ := List.mem_map.mp hpage
        exact hkey (some n) rfl

/-! ## Every operation -/

theorem StoreOp.snd_program {α : Type} (x : KvM α) (kv : Kv) : (Kv.exec (discard x) kv).2 = (Kv.exec x kv).2 := by
  show (Kv.exec (x >>= fun _ => pure ()) kv).2 = _
  rw [Kv.exec_bind]
  rcases Kv.exec x kv with ⟨r, kv'⟩
  cases r <;> rfl

theorem StoreOp.touched (h : Placed kv own peer) (op : StoreOp) (hl : ∀ b, op = .delete b → NoLegacy kv) :
    Touched own peer op kv (Kv.exec (op.program own peer) kv).2 := by
  have hprogram : ∀ {α : Type} {x : KvM α}, Touched own peer op kv (Kv.exec x kv).2 →
      Touched own peer op kv (Kv.exec (discard x) kv).2 := fun hx => by rwa [snd_program]
  cases op with
  | append message name now => exact hprogram (append_touched h message name now)
  | setStatus id status error => exact hprogram (update_touched h rfl rfl)
  | patch id p => exact hprogram (update_touched h rfl rfl)
  | react id change => exact hprogram (update_touched h rfl rfl)
  | revise id reviser revision now => exact hprogram (revise_touched h id reviser revision now)
  | remove id now => exact hprogram (remove_touched h rfl (fun _ _ => trivial) fun hs => hs)
  | markRead now => exact hprogram (markRead_touched h now)
  | pruneOlderThan cutoff now => exact hprogram (pruneOlderThan_touched h cutoff now)
  | setPeerUsername username now => exact setPeerUsername_touched h username now
  | delete b => exact hprogram (delete_touched (hl b rfl) b)

end Touching

end CitadelAgent.Conversations
