import CitadelAgent.Conversations.Append
import CitadelAgent.Conversations.EngineRun

/-!
# Which payloads make a conversation unreadable

* `Loads` : the metadata and every page up to the newest can be loaded;
* `Poisons` : an append that takes it away, `loads_append` that no other does;
* `arriving` : the message a delivered payload appends, and `delivered_loads` what follows for every payload.
-/

namespace CitadelAgent.Conversations
open Store StoreRules

/-- `load_metadata(peer)` succeeds, and so does `load_page(peer, n)` for every `n` up to the newest page. -/
def Loads (kv : Kv) (own peer : Cid) : Prop :=
  ∃ found, (Kv.exec (loadMetadata own peer) kv).1 = .ok found ∧
    ∀ m, found = some m → ∀ n ≤ m.latestPage, ∃ page, (Kv.exec (loadPage own peer n) kv).1 = .ok page

variable {f : Found} {m m' : ConversationMessage} {name : Option String} {now : F64} {p : ConversationPage}
  {writes : List (Place × Bytes)} {s : Shared}

section

variable {kv : Kv} {own peer : Cid}

theorem loads_iff : Loads kv own peer ↔ ∃ found, metadataOf kv own peer = .ok found ∧
    ∀ m, found = some m → ∀ n ≤ m.latestPage, ∃ page, pageOf kv own peer n = .ok page := by
  simp only [Loads, exec_loadMetadata, exec_loadPage]

theorem loads_of_metadata {m : ConversationMetadata} (hm : metadataOf kv own peer = .ok (some m)) :
    Loads kv own peer ↔ ∀ n ≤ m.latestPage, ∃ page, pageOf kv own peer n = .ok page := by
  rw [loads_iff]
  constructor
  · rintro ⟨found, hfound, hpages⟩
    rw [hm, Except.ok.injEq] at hfound
    exact hpages m hfound.symm
  · intro hpages
    exact ⟨some m, hm, fun m' hm' => Option.some.inj hm' ▸ hpages⟩

/-! ## Records that read back -/

theorem pages_insert {b : Bytes} (hb : encodePage p = .ok b) (hr : p.Readable) (c : Cid) (k n : UInt32)
    (h : ∃ page, pageOf kv own peer n = .ok page) :
    ∃ page, pageOf (kv.insert (Place.messages own c k).name b) own peer n = .ok page := by
  rw [pageOf_insert_messages]
  split_ifs
  · exact ⟨_, (recordRead_encodePage hb _).mpr ⟨hr, rfl⟩⟩
  · exact h

theorem Loads.insertPage (h : Loads kv own peer) {b : Bytes} (hb : encodePage p = .ok b)
    (hr : p.Readable) (c : Cid) (k : UInt32) : Loads (kv.insert (Place.messages own c k).name b) own peer := by
  obtain ⟨found, hfound, hpages⟩ := loads_iff.mp h
  exact loads_iff.mpr ⟨found, (metadataOf_insert_messages ..).trans hfound,
    fun m hm n hn => pages_insert hb hr c k n (hpages m hm n hn)⟩

theorem Loads.savePage (h : Loads kv own peer) (hp : p.Sound) :
    Loads (Kv.exec (Store.savePage own p) kv).2 own peer := by
  rw [exec_savePage, hp.encodePage]
  exact h.insertPage hp.encodePage hp.readable _ _

theorem loads_insertMetadata (m : ConversationMetadata) :
    Loads (kv.insert (Place.metadata own peer).name (metadataBytes m)) own peer ↔
      m.Readable ∧ ∀ n ≤ m.latestPage, ∃ page, pageOf kv own peer n = .ok page := by
  by_cases hm : m.Readable
  · have hread : metadataOf (kv.insert (Place.metadata own peer).name (metadataBytes m)) own peer = .ok (some m.norm) := by
      rw [metadataOf_insert_metadata, if_pos rfl]
      exact (recordRead_metadataBytes m _).mpr ⟨hm, rfl⟩
    rw [loads_of_metadata hread]
    simp only [pageOf_insert_metadata, hm, true_and]
    rfl
  · simp only [loads_iff, metadataOf_insert_metadata, if_true, recordRead_metadataBytes, hm, false_and, exists_false]

theorem loads_insertMetadata_of_ne {c : Cid} (hc : c ≠ peer) (b : Bytes) :
    Loads (kv.insert (Place.metadata own c).name b) own peer ↔ Loads kv own peer := by
  simp only [loads_iff, metadataOf_insert_metadata, if_neg hc.symm, pageOf_insert_metadata]

theorem Loads.insertMetadata (h : Loads kv own peer) {m m' : ConversationMetadata}
    (hm : metadataOf kv own peer = .ok (some m)) (hm' : m'.Readable) (hlatest : m'.latestPage = m.latestPage) (c : Cid) :
    Loads (kv.insert (Place.metadata own c).name (metadataBytes m')) own peer := by
  by_cases hc : c = peer
  · rw [hc, loads_insertMetadata, hlatest]
    exact ⟨hm', (loads_of_metadata hm).mp h⟩
  · exact (loads_insertMetadata_of_ne hc _).mpr h

/-! ## Changes to a message -/

theorem Store.Found.sound_replaced (h : f.page.Sound) {changed : ConversationMessage} (hc : changed.Sound) :
    (f.replaced changed).Sound := by
  refine ⟨h.minTimestamp, h.maxTimestamp, fun m hm => ?_⟩
  rcases List.mem_or_eq_of_mem_set hm with hm | rfl
  · exact h.messages m hm
  · exact hc

theorem Store.Found.sound_removed (h : f.page.Sound) : f.removed.Sound :=
  ⟨h.minTimestamp, h.maxTimestamp, fun m hm => h.messages m (List.mem_of_mem_eraseIdx hm)⟩

theorem sound_of_found {id : String} (h : foundIn kv own peer id = .ok (some f)) :
    f.page.Sound ∧ f.message.Sound := by
  obtain ⟨-, -, n, -, hp⟩ := foundIn_eq_some h
  have hs := sound_of_pageOf hp
  exact ⟨hs, hs.messages _ (List.get_mem _ _)⟩

theorem Loads.update (h : Loads kv own peer) (id : String) {change : ConversationMessage → Option ConversationMessage}
    (hc : ∀ m m', m.Sound → change m = some m' → m'.Sound) :
    Loads (Kv.exec (Store.update own peer id change) kv).2 own peer := by
  rw [Store.update, Kv.exec_bind, exec_find]
  cases hf : foundIn kv own peer id with
  | error e => exact h
  | ok found =>
    cases found with
    | none => exact h
    | some f =>
      obtain ⟨hpage, hmessage⟩ := sound_of_found hf
      simp only [Prog.resume_ok]
      cases hch : change f.message with
      | none => exact h
      | some changed =>
        have hs := Found.sound_replaced hpage (hc _ _ hmessage hch)
        have hloads := h.savePage hs
        rw [exec_savePage, hs.encodePage] at hloads
        simp only [Kv.exec_bind, exec_savePage, hs.encodePage, Prog.resume_ok, Kv.exec_pure]
        exact hloads

theorem readable_removed {m : ConversationMetadata} (hm : m.Readable) (hnow : now.isFinite = true) :
    ({ m with
      totalMessageCount := (m.totalMessageCount.sub (F64.ofNat 1)).max (F64.ofNat 0), lastUpdated := now } :
      ConversationMetadata).Readable where
  totalMessageCount := F64.isFinite_max (F64.isFinite_sub_one hm.totalMessageCount) (F64.isFinite_ofNat (by decide))
  oldestMessageTimestamp := hm.oldestMessageTimestamp
  newestMessageTimestamp := hm.newestMessageTimestamp
  unreadCount := hm.unreadCount
  lastMessageIndex := hm.lastMessageIndex
  lastUpdated := hnow

theorem Loads.remove (h : Loads kv own peer) (id : String) (hnow : now.isFinite = true) :
    Loads (Kv.exec (Store.remove own peer id now) kv).2 own peer := by
  rw [Store.remove, Kv.exec_bind, exec_find]
  cases hf : foundIn kv own peer id with
  | error e => exact h
  | ok found =>
    cases found with
    | none => exact h
    | some f =>
      obtain ⟨hmeta, -, -⟩ := foundIn_eq_some hf
      have hs := Found.sound_removed (sound_of_found hf).1
      have hloads := h.savePage hs
      rw [exec_savePage, hs.encodePage] at hloads
      simp only [Prog.resume_ok, Kv.exec_bind, exec_savePage, hs.encodePage, exec_saveMetadata, Kv.exec_pure]
      exact hloads.insertMetadata ((metadataOf_insert_messages ..).trans hmeta)
        (readable_removed (readable_of_metadataOf hmeta) hnow) rfl _

theorem Loads.revise (h : Loads kv own peer) (id : String) (reviser : Cid) (revision : Revision)
    (hnow : now.isFinite = true) : Loads (Kv.exec (Store.revise own peer id reviser revision now) kv).2 own peer := by
  rw [Store.revise, Kv.exec_bind, exec_find]
  cases hf : foundIn kv own peer id with
  | error e => exact h
  | ok found =>
    cases found with
    | none => exact h
    | some f =>
      obtain ⟨hpage, hmessage⟩ := sound_of_found hf
      simp only [Prog.resume_ok]
      split_ifs
      · exact h
      · cases revision with
        | delete =>
          have hloads := h.remove id hnow
          simp only [Kv.exec_bind]
          rcases hr : Kv.exec (Store.remove own peer id now) kv with ⟨r, kv'⟩
          rw [hr] at hloads
          cases r with
          | error e => exact hloads
          | ok b => cases b <;> exact hloads
        | edit contents editedAt =>
          -- the time of the edit is optional, and left out when it is not finite
          have hedited : ({ f.message with content := contents, editedAt := some editedAt } : ConversationMessage).Sound :=
            ⟨hmessage.timestamp, hmessage.index, hmessage.attachments, hmessage.reactions⟩
          have hs := Found.sound_replaced hpage hedited
          have hloads := h.savePage hs
          rw [exec_savePage, hs.encodePage] at hloads
          simp only [Kv.exec_bind, exec_savePage, hs.encodePage, Prog.resume_ok, Kv.exec_pure]
          exact hloads

theorem loads_setPeerUsername (username : String) (hnow : now.isFinite = true) :
    Loads (Kv.exec (Store.setPeerUsername own peer username now) kv).2 own peer ↔ Loads kv own peer := by
  rw [Store.setPeerUsername, Kv.exec_bind, exec_loadMetadata]
  cases hm : metadataOf kv own peer with
  | error e => rfl
  | ok found =>
    cases found with
    | none => rfl
    | some m =>
      simp only [Prog.resume_ok]
      split_ifs
      · have hr := readable_of_metadataOf hm
        have hnamed : ({ m with peerUsername := some username, lastUpdated := now } : ConversationMetadata).Readable :=
          ⟨hr.totalMessageCount, hr.oldestMessageTimestamp, hr.newestMessageTimestamp, hr.unreadCount,
            hr.lastMessageIndex, hnow⟩
        rw [exec_saveMetadata]
        by_cases hc : m.peerCid = peer
        · subst hc
          rw [loads_insertMetadata, loads_of_metadata hm]
          exact and_iff_right hnamed
        · exact loads_insertMetadata_of_ne hc _
      · rfl

/-! ## An append -/

/-- The message cannot be on a record that reads back: a number it cannot do without is not finite. -/
def Unstorable (m : ConversationMessage) : Prop := ¬ m.Readable

/-- Where an append leaves the message and the metadata, as this conversation will read them: on a page up to the
newest, or in the metadata. -/
def Draft.Reaches (d : Draft) (peer : Cid) (m : ConversationMessage) : Prop :=
  if d.metadata.peerCid = peer then
    m.timestamp.isFinite = false ∨ (d.metadata.lastMessageIndex.max m.index).isFinite = false ∨ d.Full ∨
      (d.page.peerCid = peer ∧ d.page.pageNumber ≤ d.metadata.latestPage)
  else ¬ d.Full ∧ d.page.peerCid = peer ∧ d.page.pageNumber ≤ d.metadata.latestPage

/-- Appending the message leaves a record of the conversation that does not read back: it is not stored yet, there is
room for it, and it cannot be read back. -/
def Poisons (kv : Kv) (own peer : Cid) (m : ConversationMessage) : Prop :=
  ∃ d, draftOf kv own peer m none = .ok (some d) ∧ (d.Full → d.metadata.latestPage.toNat + 1 < 2 ^ 32) ∧
    Unstorable m ∧ d.Reaches peer m

theorem Draft.sound_page {d : Draft} (hd : draftOf kv own peer m name = .ok (some d)) : (∀ x ∈ d.page.messages, x.Sound) := by
  obtain ⟨-, -, -, -, hpage, -⟩ := draftOf_eq_some.mp hd
  obtain ⟨found, hfound, hget⟩ := newestPage_eq_ok.mp hpage
  cases found with
  | some page =>
    rw [Option.getD_some] at hget
    exact hget ▸ (sound_of_pageOf hfound).messages
  | none =>
    rw [hget]
    simp [emptyPage]

theorem mem_place {x : ConversationMessage} :
    x ∈ (place p m).messages ↔ x ∈ p.messages ∨ x = m := by
  simp [place]

theorem readable_place (hp : ∀ x ∈ p.messages, x.Sound) :
    (place p m).Readable ↔ m.Readable := by
  constructor
  · exact fun h => h.messages m (mem_place.mpr (.inr rfl))
  · intro hm
    have hall : ∀ x ∈ (place p m).messages, x.Readable := by
      intro x hx
      rcases mem_place.mp hx with hx | rfl
      · exact (hp x hx).readable
      · exact hm
    have hbound : ∀ o : Option ConversationMessage, (∀ x, o = some x → x ∈ (place p m).messages) →
        ((o.map (·.timestamp)).getD m.timestamp).isFinite = true := by
      intro o ho
      cases o with
      | none => exact hm.timestamp
      | some x => exact (hall x (ho x rfl)).timestamp
    exact ⟨hbound _ fun x hx => List.mem_of_head? hx, hbound _ fun x hx => List.mem_of_getLast? hx, hall⟩

theorem Draft.readable_placed {d : Draft} (hd : draftOf kv own peer m name = .ok (some d)) : (d.placed peer m).Readable ↔ m.Readable := by
  unfold Draft.placed
  split_ifs
  · exact readable_place (by simp [emptyPage])
  · exact readable_place (Draft.sound_page hd)

theorem Draft.metadata_cases {d : Draft} (hd : draftOf kv own peer m name = .ok (some d)) :
    (∃ existing, metadataOf kv own peer = .ok (some existing) ∧ d.metadata = stamped own existing ∧ d.isNew = false) ∨
      (metadataOf kv own peer = .ok none ∧ d.metadata = stamped own (newMetadata own peer m name m.timestamp) ∧
        d.isNew = true) := by
  obtain ⟨existing, hmeta, hm, hn, -, -⟩ := draftOf_eq_some.mp hd
  cases existing with
  | some existing => exact .inl ⟨existing, hmeta, hm, hn⟩
  | none => exact .inr ⟨hmeta, hm, hn⟩

theorem Draft.readable_recorded {d : Draft} (hd : draftOf kv own peer m name = .ok (some d)) (hnow : now.isFinite = true) :
    (d.recorded own m now).Readable ↔
      m.timestamp.isFinite = true ∧ (d.metadata.lastMessageIndex.max m.index).isFinite = true := by
  constructor
  · exact fun h => ⟨h.newestMessageTimestamp, h.lastMessageIndex⟩
  · rintro ⟨htime, hindex⟩
    have h0 : (F64.ofNat 0).isFinite = true := F64.isFinite_ofNat (by decide)
    obtain ⟨htotal, hunread, holdest⟩ : d.metadata.totalMessageCount.isFinite = true ∧
        d.metadata.unreadCount.isFinite = true ∧ (d.isNew = true ∨ d.metadata.oldestMessageTimestamp.isFinite = true) := by
      rcases Draft.metadata_cases hd with ⟨existing, hmeta, hm, -⟩ | ⟨-, hm, hn⟩
      · have hr := readable_of_metadataOf hmeta
        rw [hm]
        exact ⟨hr.totalMessageCount, hr.unreadCount, .inr hr.oldestMessageTimestamp⟩
      · simp only [hm, hn, stamped, newMetadata, h0, true_or, and_self]
    refine ⟨?_, ?_, htime, ?_, hindex, hnow⟩
    · simp only [Draft.recorded, recordAppend, F64.isFinite_add_one htotal]
    · simp only [Draft.recorded, recordAppend]
      split_ifs with hif
      · exact htime
      · rcases holdest with hn | ho
        · simp [hn] at hif
        · exact ho
    · simp only [Draft.recorded, recordAppend]
      split_ifs
      · exact F64.isFinite_add_one hunread
      · exact hunread

theorem Loads.pages_of_draft (h : Loads kv own peer) {d : Draft} (hd : draftOf kv own peer m name = .ok (some d)) :
    ∀ n ≤ d.metadata.latestPage, ∃ page, pageOf kv own peer n = .ok page := by
  rcases Draft.metadata_cases hd with ⟨existing, hmeta, hm, -⟩ | ⟨-, hm, -⟩
  · rw [hm]
    exact (loads_of_metadata hmeta).mp h
  · intro n hn
    obtain ⟨-, -, -, -, hpage, -⟩ := draftOf_eq_some.mp hd
    obtain ⟨found, hfound, -⟩ := newestPage_eq_ok.mp hpage
    have h0 : d.metadata.latestPage = 0 := by rw [hm]; rfl
    rw [h0] at hn hfound
    rw [show n = 0 from UInt32.le_zero_iff.mp hn]
    exact ⟨found, hfound⟩

/-- The place of the message, among the pages of this conversation. -/
def Draft.Target (d : Draft) (peer : Cid) (n : UInt32) : Prop :=
  if d.Full then n = d.metadata.latestPage + 1 else d.page.peerCid = peer ∧ n = d.page.pageNumber

theorem pages_of_writes {d : Draft} (hd : draftOf kv own peer m name = .ok (some d)) (hw : d.Writes own peer m writes)
    {n : UInt32} (hn : d.Target peer n ∨ ∃ page, pageOf kv own peer n = .ok page) :
    (∃ page, pageOf (insertAll writes kv) own peer n = .ok page) ↔ (d.Target peer n → m.Readable) := by
  have hplaced := Draft.readable_placed hd
  unfold Draft.Target at hn ⊢
  unfold Draft.Writes at hw
  by_cases hf : d.Full
  · rw [if_pos hf] at hw hn ⊢
    obtain ⟨-, closed, placed, hclosed, hencode, rfl⟩ := hw
    have hsound := sound_of_pageOf (pageOf_of_full hd hf)
    have hnumber : d.number = d.metadata.latestPage + 1 := if_pos hf
    simp only [insertAll, pageOf_insert_messages, hnumber, true_and]
    split_ifs with ht hc
    · simp only [recordRead_encodePage hencode, hplaced, ht, forall_const]
      exact ⟨fun h => h.choose_spec.1, fun h => ⟨_, h, rfl⟩⟩
    · simp only [recordRead_encodePage hclosed, hsound.readable, true_and, exists_eq, ht, false_imp_iff]
    · simp only [ht, false_imp_iff, iff_true]
      exact hn.resolve_left ht
  · rw [if_neg hf] at hw hn ⊢
    obtain ⟨placed, hencode, rfl⟩ := hw
    simp only [insertAll, pageOf_insert_messages]
    split_ifs with ht
    · have htarget : d.page.peerCid = peer ∧ n = d.page.pageNumber := ⟨ht.1.symm, ht.2⟩
      simp only [recordRead_encodePage hencode, hplaced, htarget, and_self, forall_const]
      exact ⟨fun h => h.choose_spec.1, fun h => ⟨_, h, rfl⟩⟩
    · have hnot : ¬ (d.page.peerCid = peer ∧ n = d.page.pageNumber) := fun h => ht ⟨h.1.symm, h.2⟩
      simp only [hnot, false_imp_iff, iff_true]
      exact hn.resolve_left hnot

theorem metadataOf_of_writes {d : Draft}
    (hw : d.Writes own peer m writes) : metadataOf (insertAll writes kv) own peer = metadataOf kv own peer := by
  unfold Draft.Writes at hw
  split_ifs at hw
  · obtain ⟨-, _, _, -, -, rfl⟩ := hw
    simp only [insertAll, metadataOf_insert_messages]
  · obtain ⟨_, -, rfl⟩ := hw
    simp only [insertAll, metadataOf_insert_messages]

theorem Draft.readable_recorded_of_readable {d : Draft} (hd : draftOf kv own peer m name = .ok (some d)) (hm : m.Readable)
    (hnow : now.isFinite = true) :
    (d.recorded own m now).Readable := by
  refine (Draft.readable_recorded hd hnow).mpr ⟨hm.timestamp, F64.isFinite_max ?_ hm.index⟩
  rcases Draft.metadata_cases hd with ⟨existing, hmeta, hmd, -⟩ | ⟨-, hmd, -⟩
  · rw [hmd]
    exact (readable_of_metadataOf hmeta).lastMessageIndex
  · have h0 : (F64.ofNat 0).isFinite = true := F64.isFinite_ofNat (by decide)
    simp only [hmd, stamped, newMetadata, h0]

theorem Draft.Writes.room {d : Draft} (hw : d.Writes own peer m writes) (hf : d.Full) : d.metadata.latestPage.toNat + 1 < 2 ^ 32 := by
  rw [Draft.Writes, if_pos hf] at hw
  exact hw.1

theorem Draft.exists_target (d : Draft) (peer : Cid) :
    (∃ n ≤ d.number, d.Target peer n) ↔ d.Full ∨ (d.page.peerCid = peer ∧ d.page.pageNumber ≤ d.metadata.latestPage) := by
  unfold Draft.Target Draft.number
  by_cases hf : d.Full
  · simp only [hf, if_true, true_or, iff_true]
    exact ⟨_, UInt32.le_refl _, rfl⟩
  · simp only [hf, if_false, false_or]
    exact ⟨fun ⟨n, hn, hp, hk⟩ => ⟨hp, hk ▸ hn⟩, fun ⟨hp, hk⟩ => ⟨_, hk, hp, rfl⟩⟩

theorem loads_of_draft (h : Loads kv own peer) {d : Draft} (hd : draftOf kv own peer m name = .ok (some d))
    (hw : d.Writes own peer m writes) (hnow : now.isFinite = true) :
    Loads (insertAll (writes ++ [d.pointer own m now]) kv) own peer ↔ ¬ (Unstorable m ∧ d.Reaches peer m) := by
  have hold := h.pages_of_draft hd
  have hrec := Draft.readable_recorded hd hnow
  have hfine := fun hm => Draft.readable_recorded_of_readable hd hm hnow
  rw [insertAll_concat, Draft.pointer]
  by_cases hc : d.metadata.peerCid = peer
  · have hpages : (∀ n ≤ d.number, ∃ page, pageOf (insertAll writes kv) own peer n = .ok page) ↔
        ((∃ n ≤ d.number, d.Target peer n) → m.Readable) := by
      have hiff : ∀ n ≤ d.number, (∃ page, pageOf (insertAll writes kv) own peer n = .ok page) ↔
          (d.Target peer n → m.Readable) := by
        intro n hn
        refine pages_of_writes hd hw ?_
        unfold Draft.number at hn
        unfold Draft.Target
        split_ifs at hn ⊢ with hf
        · by_cases hle : n ≤ d.metadata.latestPage
          · exact .inr (hold n hle)
          · refine .inl (UInt32.toNat_inj.mp ?_)
            have hnext := toNat_add_one (hw.room hf)
            rw [UInt32.le_iff_toNat_le] at hn hle
            omega
        · exact .inr (hold n hn)
      constructor
      · rintro hall ⟨n, hn, ht⟩
        exact (hiff n hn).mp (hall n hn) ht
      · exact fun hall n hn => (hiff n hn).mpr fun ht => hall ⟨n, hn, ht⟩
    rw [hc, loads_insertMetadata, show (d.recorded own m now).latestPage = d.number from rfl, hpages,
      Draft.exists_target, hrec, Unstorable, Draft.Reaches, if_pos hc]
    rw [hrec] at hfine
    simp only [← Bool.not_eq_true]
    tauto
  · rw [loads_insertMetadata_of_ne hc, Unstorable, Draft.Reaches, if_neg hc]
    rcases Draft.metadata_cases hd with ⟨existing, hmeta, hmd, -⟩ | ⟨-, hmd, -⟩
    · have hlatest : existing.latestPage = d.metadata.latestPage := by rw [hmd]; rfl
      rw [loads_of_metadata ((metadataOf_of_writes hw).trans hmeta), hlatest]
      have hiff : ∀ n ≤ d.metadata.latestPage, (∃ page, pageOf (insertAll writes kv) own peer n = .ok page) ↔
          (d.Target peer n → m.Readable) := fun n hn => pages_of_writes hd hw (.inr (hold n hn))
      constructor
      · rintro hall ⟨hm, hf, hp, hk⟩
        refine hm ((hiff _ hk).mp (hall _ hk) ?_)
        rw [Draft.Target, if_neg hf]
        exact ⟨hp, rfl⟩
      · intro hnot n hn
        refine (hiff n hn).mpr fun ht => ?_
        unfold Draft.Target at ht
        split_ifs at ht with hf
        · have hnext := toNat_add_one (hw.room hf)
          rw [ht, UInt32.le_iff_toNat_le] at hn
          omega
        · by_contra hm
          exact hnot ⟨hm, hf, ht.1, ht.2 ▸ hn⟩
    · exact absurd (by rw [hmd]; rfl) hc

theorem draftOf_sameId (m' : ConversationMessage) (hid : m'.id = m.id) (name' : Option String) {d : Draft}
    (hd : draftOf kv own peer m name = .ok (some d)) :
    ∃ d', draftOf kv own peer m' name' = .ok (some d') ∧ d'.metadata.peerCid = d.metadata.peerCid ∧
      d'.metadata.latestPage = d.metadata.latestPage ∧ d'.metadata.lastMessageIndex = d.metadata.lastMessageIndex ∧
      d'.page.peerCid = d.page.peerCid ∧ d'.page.pageNumber = d.page.pageNumber ∧ (d'.Full ↔ d.Full) := by
  obtain ⟨existing, hmeta, hdm, -, hpage, hstored⟩ := draftOf_eq_some.mp hd
  obtain ⟨found, hfound, hget⟩ := newestPage_eq_ok.mp hpage
  have hlatest : (stamped own (existing.getD (newMetadata own peer m' name' m'.timestamp))).latestPage =
      d.metadata.latestPage := by
    rw [hdm]
    cases existing <;> rfl
  have hsame : (found.getD (emptyPage peer d.metadata.latestPage m'.timestamp)).messages = d.page.messages ∧
      (found.getD (emptyPage peer d.metadata.latestPage m'.timestamp)).peerCid = d.page.peerCid ∧
      (found.getD (emptyPage peer d.metadata.latestPage m'.timestamp)).pageNumber = d.page.pageNumber := by
    rw [hget]
    cases found <;> exact ⟨rfl, rfl, rfl⟩
  have hstored' : storedIn kv own peer d.metadata.latestPage
      (found.getD (emptyPage peer d.metadata.latestPage m'.timestamp)) m'.id = .ok false := by
    rw [hid]
    unfold storedIn at hstored ⊢
    rwa [hsame.1]
  refine ⟨⟨stamped own (existing.getD (newMetadata own peer m' name' m'.timestamp)),
    found.getD (emptyPage peer d.metadata.latestPage m'.timestamp), existing.isNone⟩,
    draftOf_eq_some.mpr ⟨existing, hmeta, rfl, rfl, newestPage_eq_ok.mpr ⟨found, ?_, ?_⟩, ?_⟩, ?_, hlatest, ?_, hsame.2.1,
    hsame.2.2, ?_⟩
  · rw [hlatest]
    exact hfound
  · rw [hlatest]
  · rw [hlatest]
    exact hstored'
  · rw [hdm]
    cases existing <;> rfl
  · rw [hdm]
    cases existing <;> rfl
  · rw [Draft.Full, Draft.Full, hsame.1]

theorem poisons_iff (hid : m'.id = m.id) (hindex : m'.index = m.index) (htime : m'.timestamp.isFinite = m.timestamp.isFinite)
    (hread : m'.Readable ↔ m.Readable) {d : Draft} (hd : draftOf kv own peer m' name = .ok (some d)) : Poisons kv own peer m ↔
      (d.Full → d.metadata.latestPage.toNat + 1 < 2 ^ 32) ∧ Unstorable m' ∧ d.Reaches peer m' := by
  obtain ⟨d', hd', hpeer, hlatest, hlast, hpc, hpn, hfull⟩ := draftOf_sameId m hid.symm none hd
  have hreach : d'.Reaches peer m ↔ d.Reaches peer m' := by
    unfold Draft.Reaches
    rw [hpeer, hlast, hindex, htime, hpc, hpn, hlatest, hfull]
  have heach : ((d'.Full → d'.metadata.latestPage.toNat + 1 < 2 ^ 32) ∧ Unstorable m ∧ d'.Reaches peer m) ↔
      (d.Full → d.metadata.latestPage.toNat + 1 < 2 ^ 32) ∧ Unstorable m' ∧ d.Reaches peer m' := by
    rw [hreach, hlatest, hfull, Unstorable, Unstorable, hread]
  rw [← heach]
  constructor
  · rintro ⟨x, hx, hrest⟩
    rw [hd', Except.ok.injEq, Option.some.injEq] at hx
    exact hx ▸ hrest
  · exact fun hrest => ⟨d', hd', hrest⟩

theorem not_poisons (hid : m'.id = m.id) (name : Option String)
    (hd : ∀ d, draftOf kv own peer m' name ≠ .ok (some d)) : ¬ Poisons kv own peer m := by
  rintro ⟨d, hd', -⟩
  obtain ⟨d', hd'', -⟩ := draftOf_sameId m' hid name hd'
  exact hd d' hd''

theorem Draft.finiteReactions_placed {d : Draft} (hd : draftOf kv own peer m name = .ok (some d)) (hreact : m.reactions = none) :
    (d.placed peer m).FiniteReactions := by
  have hsound := Draft.sound_page hd
  intro x hx list hlist
  unfold Draft.placed at hx
  rcases mem_place.mp hx with hx | rfl
  · split_ifs at hx
    · simp [emptyPage] at hx
    · exact ((hsound x hx).reactions list hlist).1
  · simp [hreact] at hlist

/-- An append leaves a conversation that can be loaded exactly when it does not poison it. The text of the message, and
which of two finite times it has, do not matter. -/
theorem loads_append (h : Loads kv own peer) (hid : m'.id = m.id) (hindex : m'.index = m.index)
    (htime : m'.timestamp.isFinite = m.timestamp.isFinite) (hread : m'.Readable ↔ m.Readable) (hreact : m'.reactions = none)
    (name : Option String) (hnow : now.isFinite = true) :
    Loads (Kv.exec (append own peer m' name now) kv).2 own peer ↔ ¬ Poisons kv own peer m := by
  cases hd : draftOf kv own peer m' name with
  | error e =>
    rw [Kv.exec, exec_append_of_honest honest_handle, id, hd]
    exact iff_of_true h (not_poisons hid name fun d => by simp [hd])
  | ok found =>
    cases found with
    | none =>
      rw [Kv.exec, exec_append_of_honest honest_handle, id, hd]
      exact iff_of_true h (not_poisons hid name fun d => by simp [hd])
    | some d =>
      have hplaced := (encodePage_eq_ok _ _).mpr ⟨Draft.finiteReactions_placed hd hreact, rfl⟩
      rw [poisons_iff hid hindex htime hread hd]
      by_cases hf : d.Full
      · have hsound := sound_of_pageOf (pageOf_of_full hd hf)
        by_cases hroom : d.metadata.latestPage.toNat + 1 < 2 ^ 32
        · obtain ⟨writes, hw⟩ : ∃ writes, d.Writes own peer m' writes := by
            simp only [Draft.Writes, if_pos hf]
            exact ⟨_, hroom, _, _, hsound.encodePage, hplaced, rfl⟩
          rw [exec_append_of_draft hd hw, loads_of_draft h hd hw hnow, and_iff_right fun _ => hroom]
        · -- the full page is saved again before the page number runs over
          rw [Kv.exec, exec_append_of_honest honest_handle, id, hd]
          simp only [exec_commit_full _ hf, Prog.exec_bind]
          rw [show Prog.exec Kv.handle (Store.savePage own d.page) kv = Kv.exec (Store.savePage own d.page) kv from rfl,
            exec_savePage, hsound.encodePage]
          simp only [Prog.resume_ok, nextPage, if_neg hroom]
          refine iff_of_true (h.insertPage hsound.encodePage hsound.readable _ _) fun hall => hroom (hall.1 hf)
      · obtain ⟨writes, hw⟩ : ∃ writes, d.Writes own peer m' writes := by
          simp only [Draft.Writes, if_neg hf]
          exact ⟨_, _, hplaced, rfl⟩
        rw [exec_append_of_draft hd hw, loads_of_draft h hd hw hnow, and_iff_right fun h => absurd h hf]

/-! ## Changes of the peer's -/

theorem sound_fold (h : m.Sound) {change : Reaction} {list : List Reaction}
    (hl : Reactions.fold m.reactions change = some list) : ({ m with reactions := some list } : ConversationMessage).Sound := by
  have hshort : ∀ e ∈ Reactions.REACTION_EMOJIS, (Cbor.utf8 e).length < 2 ^ 64 := by decide +kernel
  have hheld : ∀ r ∈ m.reactions.getD [], r.at_.isFinite = true ∧ (Cbor.utf8 r.emoji).length < 2 ^ 64 := by
    intro r hr
    cases hm : m.reactions with
    | none => simp [hm] at hr
    | some held =>
      rw [hm, Option.getD_some] at hr
      exact ⟨(h.reactions held hm).1 r hr, (h.reactions held hm).2 r hr⟩
  unfold Reactions.fold at hl
  split_ifs at hl with hguard
  simp only [not_or, not_not, Bool.not_eq_false] at hguard
  have hchange : change.at_.isFinite = true ∧ (Cbor.utf8 change.emoji).length < 2 ^ 64 :=
    ⟨hguard.2, hshort _ hguard.1⟩
  have hall : ∀ r ∈ list, r.at_.isFinite = true ∧ (Cbor.utf8 r.emoji).length < 2 ^ 64 := by
    intro r hr
    dsimp only at hl
    split at hl
    · split_ifs at hl
      cases hl
      obtain ⟨x, hx, rfl⟩ := List.mem_map.mp hr
      split_ifs
      · exact hchange
      · exact hheld x hx
    · cases hl
      rcases List.mem_append.mp hr with hr | hr
      · exact hheld r hr
      · rw [List.mem_singleton.mp hr]
        exact hchange
  refine ⟨h.timestamp, h.index, h.attachments, fun l hl' => ?_⟩
  cases hl'
  exact ⟨fun r hr => (hall r hr).1, fun r hr => (hall r hr).2⟩

theorem Loads.react (h : Loads kv own peer) (id : String) (change : Reaction) :
    Loads (Kv.exec (Store.react own peer id change) kv).2 own peer := by
  refine h.update id fun m m' hm hm' => ?_
  obtain ⟨list, hl, rfl⟩ := Option.map_eq_some_iff.mp hm'
  exact sound_fold hm hl

theorem Loads.setStatus (h : Loads kv own peer) (id : String) (status : MessageStatus) (error : Option String) :
    Loads (Kv.exec (Store.setStatus own peer id status error) kv).2 own peer := by
  refine h.update id fun m m' hm hm' => ?_
  split at hm'
  · cases hm'
    exact ⟨hm.timestamp, hm.index, hm.attachments, hm.reactions⟩
  · cases hm'

end

/-! ## Delivered payloads -/

namespace Engine

theorem kv_map {α β : Type} (f : α → β) (x : KvM α) (kv : Kv) : (Kv.exec (f <$> x) kv).2 = (Kv.exec x kv).2 := by
  rw [Kv.exec, Prog.exec_map, ← Kv.exec]
  rcases Kv.exec x kv with ⟨r, kv'⟩
  cases r <;> rfl

variable {kv : Kv} {cid peer : Cid}

theorem Loads.revisionOf (h : Loads kv cid peer) (hnow : now.isFinite = true) (command : Inbound) :
    Loads (Kv.exec (revisionOf cid peer now command) kv).2 cid peer := by
  cases command with
  | edit target contents editedAt =>
    rw [Engine.revisionOf, kv_map]
    exact h.revise target peer _ hnow
  | delete target =>
    rw [Engine.revisionOf, kv_map]
    exact h.revise target peer _ hnow
  | reaction target emoji active at_ =>
    rw [Engine.revisionOf, kv_map]
    exact h.react target _
  | ack kind messageId =>
    rw [Engine.revisionOf, kv_map]
    exact h.setStatus messageId _ none
  | message _ _ _ => exact h
  | screenshot _ _ => exact h
  | checkState => exact h
  | ephemeral => exact h
  | forAWindow => exact h

variable (out : Outside)

theorem kv_bind {α β : Type} (x : EngineM α) {f : α → EngineM β} (hf : ∀ a, Silent out (f a)) (n : Nat) (s : Shared) :
    (exec out (x >>= f) n s).2.kv = (exec out x n s).2.kv := by
  rw [exec_bind, hf]

theorem kv_revision {command : Inbound} (hc : ∀ envelope takenAt, command ≠ .screenshot envelope takenAt) (n : Nat) (s : Shared) :
    (exec out (revision cid peer command) n s).2.kv =
      (Kv.exec (revisionOf cid peer (F64.ofNat (out n .nowMs).val) command) s.kv).2 := by
  rw [revision, exec_bind, exec_nowMs]
  dsimp only
  split
  · exact absurd rfl (hc _ _)
  · rw [kv_bind, exec_locked, exec_store]
    intro result
    match result with
    | .ok (some change) => exact (Silent.announce _ _ _).bind fun _ => .pure _
    | .ok none => exact .pure _
    | .error e => exact .pure _

/-- The message a payload appends, when the agent says whether it knows the peer. What is filled in later does not
decide what is stored. -/
def arriving (kv : Kv) (known : Bool) (n : MessageNotification) : Option ConversationMessage :=
  match Command.read n.message, preferencesOf kv n.cid with
  | some (.message envelope contents timestamp), .ok prefs =>
    if prefs.acceptRequestsFromStrangers || known then some (fromPeer n.cid n.peerCid envelope contents timestamp)
    else none
  | some (.screenshot envelope takenAt), .ok prefs =>
    if prefs.notifyOnScreenshot then some (noticeFrom n.cid n.peerCid envelope "" (takenAt.getD (F64.ofNat 0))) else none
  | _, _ => none

theorem loads_appendNamed (h : Loads s.kv cid peer) (hreact : m.reactions = none) (username : Option String) (n : Nat) :
    Loads (exec out (appendNamed cid peer m username) n s).2.kv cid peer ↔ ¬ Poisons s.kv cid peer m := by
  rw [← loads_append h rfl rfl rfl Iff.rfl hreact username (isFinite_millis (out n .nowMs)), appendNamed, exec_bind,
    exec_nowMs, exec_bind, exec_store]
  dsimp only
  split
  · simp only [exec_bind, exec_nowMs, exec_store, exec_pure]
    exact loads_setPeerUsername _ (isFinite_millis (out (n + 1) .nowMs))
  · rfl

theorem loads_storeAndAck (h : Loads s.kv cid peer) (hreact : m.reactions = none)
    (n : Nat) : Loads (exec out (storeAndAck cid peer m) n s).2.kv cid peer ↔ ¬ Poisons s.kv cid peer m := by
  rw [storeAndAck, exec_bind, exec_io, kv_bind, exec_locked]
  · exact loads_appendNamed out h hreact _ _
  · intro result
    cases result with
    | error e => exact .pure _
    | ok added =>
      refine .bind .nowMs fun now => .bind (.io _) fun _ => ?_
      cases added with
      | none => exact .pure _
      | some metadata =>
        exact .bind (.ite (.io _) (.pure _)) fun _ => .bind (.announceAppended cid peer m none _) fun _ => .pure _

theorem exec_hidden (cid peer : Cid) (prefs : AccountPreferences) (n : Nat) (s : Shared) :
    ∃ n', exec out (hidden cid peer prefs) n s =
      ((!(prefs.acceptRequestsFromStrangers || out n (.knowsPeer cid peer)), n'), s) := by
  unfold Engine.hidden
  split_ifs with ha
  · exact ⟨n, by rw [ha]; rfl⟩
  · rw [Bool.not_eq_true] at ha
    exact ⟨n + 1, by rw [ha, exec_bind, exec_io]; rfl⟩

theorem loads_incoming (h : Loads s.kv cid peer) (envelope : Envelope) (contents : String) (timestamp : F64) :
    Loads (exec out (incoming cid peer envelope contents timestamp) 0 s).2.kv cid peer ↔
      ∀ prefs, preferencesOf s.kv cid = .ok prefs →
        (prefs.acceptRequestsFromStrangers || out 0 (.knowsPeer cid peer)) = true →
        ¬ Poisons s.kv cid peer (fromPeer cid peer envelope contents timestamp) := by
  rw [incoming, exec_bind, exec_preferences]
  cases hprefs : preferencesOf s.kv cid with
  | error e => exact iff_of_true h nofun
  | ok prefs =>
    obtain ⟨n, hn⟩ := exec_hidden out cid peer prefs 0 s
    simp only [Except.ok.injEq, forall_eq', exec_bind, hn]
    cases prefs.acceptRequestsFromStrangers || out 0 (.knowsPeer cid peer) with
    | true => simpa using loads_storeAndAck out h rfl n
    | false => simpa using h

theorem poisons_notice (h : Loads s.kv cid peer) (envelope : Envelope) (text : String) {t t' : F64}
    (ht : t.isFinite = t'.isFinite) (hnow : now.isFinite = true) :
    Loads (Kv.exec (append cid peer (noticeFrom cid peer envelope text t) none now) s.kv).2 cid peer ↔
      ¬ Poisons s.kv cid peer (noticeFrom cid peer envelope "" t') := by
  have htime : (noticeFrom cid peer envelope text t).timestamp.isFinite =
      (noticeFrom cid peer envelope "" t').timestamp.isFinite := ht
  have hread : (noticeFrom cid peer envelope text t).Readable ↔ (noticeFrom cid peer envelope "" t').Readable := by
    constructor
    · exact fun hr => ⟨htime ▸ hr.timestamp, hr.index, hr.attachments, fun list hl => by cases hl⟩
    · exact fun hr => ⟨htime ▸ hr.timestamp, hr.index, hr.attachments, fun list hl => by cases hl⟩
  have hreact : (noticeFrom cid peer envelope text t).reactions = none := rfl
  have hid : (noticeFrom cid peer envelope text t).id = (noticeFrom cid peer envelope "" t').id := rfl
  exact loads_append h hid rfl htime hread hreact none hnow

theorem loads_screenshot (h : Loads s.kv cid peer) (envelope : Envelope) (takenAt : Option F64) (n : Nat) :
    Loads (exec out (screenshot cid peer envelope takenAt) n s).2.kv cid peer ↔
      ∀ prefs, preferencesOf s.kv cid = .ok prefs → prefs.notifyOnScreenshot = true →
        ¬ Poisons s.kv cid peer (noticeFrom cid peer envelope "" (takenAt.getD (F64.ofNat 0))) := by
  rw [screenshot, exec_bind, exec_preferences]
  cases hprefs : preferencesOf s.kv cid with
  | error e => exact iff_of_true h nofun
  | ok prefs =>
    simp only [Except.ok.injEq, forall_eq']
    cases prefs.notifyOnScreenshot with
    | false => simpa using h
    | true =>
      have hname : (exec out (currentMetadata cid peer) n s).2.kv = s.kv := Silent.currentMetadata cid peer n s
      rw [Bool.not_true, if_neg Bool.false_ne_true, exec_bind]
      generalize exec out (currentMetadata cid peer) n s = r at hname
      obtain ⟨⟨metadata, n'⟩, s'⟩ := r
      dsimp only at hname ⊢
      rw [← hname] at h ⊢
      rw [exec_bind]
      obtain ⟨t, n'', ht, htaken⟩ : ∃ t n'', t.isFinite = (takenAt.getD (F64.ofNat 0)).isFinite ∧
          exec out (takenOrNow takenAt) n' s' = ((t, n''), s') := by
        cases takenAt with
        | some t => exact ⟨t, n', rfl, rfl⟩
        | none =>
          refine ⟨_, n' + 1, ?_, exec_nowMs out n' s'⟩
          rw [isFinite_millis, Option.getD_none, F64.isFinite_ofNat (by decide)]
      rw [htaken, kv_bind, exec_locked, exec_bind, exec_nowMs, exec_store]
      · simpa using poisons_notice h envelope _ ht (isFinite_millis (out n'' .nowMs))
      · intro appended
        cases appended with
        | error e => exact .pure _
        | ok added => exact .bind (.announceAppended cid peer _ none added) fun _ => .pure _

/-- A conversation that can be loaded still can after a payload, exactly when that appends no message that makes a
record unreadable. -/
theorem delivered_loads (out : Outside) (n : MessageNotification) (s : Shared) (h : Loads s.kv n.cid n.peerCid) :
    Loads (exec out (delivered n) 0 s).2.kv n.cid n.peerCid ↔
      ∀ m, arriving s.kv (out 0 (.knowsPeer n.cid n.peerCid)) n = some m → ¬ Poisons s.kv n.cid n.peerCid m := by
  have hsilent : ∀ x : EngineM Bool, Silent out x → Loads (exec out x 0 s).2.kv n.cid n.peerCid := by
    intro x hx
    rw [hx 0 s]
    exact h
  unfold delivered arriving
  cases hread : Command.read n.message with
  | none =>
    exact iff_of_true (hsilent _ ((Silent.io _).bind fun _ => .pure _)) fun m hm => nomatch hm
  | some command =>
    -- the changes of the peer's to messages that are there
    have hrevision : ∀ c, (∀ e t, c ≠ .screenshot e t) →
        Loads (exec out (revision n.cid n.peerCid c) 0 s).2.kv n.cid n.peerCid := by
      intro c hc
      rw [kv_revision out hc]
      exact Loads.revisionOf h (isFinite_millis (out 0 .nowMs)) c
    cases command with
    | message envelope contents timestamp =>
      rw [loads_incoming out h]
      cases preferencesOf s.kv n.cid with
      | error e => simp
      | ok prefs =>
        cases prefs.acceptRequestsFromStrangers || out 0 (.knowsPeer n.cid n.peerCid) with
        | true => simp
        | false => simp
    | screenshot envelope takenAt =>
      have hrun : (exec out (revision n.cid n.peerCid (.screenshot envelope takenAt)) 0 s).2 =
          (exec out (screenshot n.cid n.peerCid envelope takenAt) 1 s).2 := by
        rw [revision, exec_bind, exec_nowMs]
        dsimp only
        rw [exec_bind, exec_locked, exec_pure]
      show Loads (exec out (revision n.cid n.peerCid (.screenshot envelope takenAt)) 0 s).2.kv n.cid n.peerCid ↔ _
      rw [hrun, loads_screenshot out h]
      cases preferencesOf s.kv n.cid with
      | error e => simp
      | ok prefs =>
        cases prefs.notifyOnScreenshot with
        | true => simp
        | false => simp
    | edit target contents editedAt => exact iff_of_true (hrevision _ (by simp)) fun m hm => by cases hm
    | delete target => exact iff_of_true (hrevision _ (by simp)) fun m hm => by cases hm
    | reaction target emoji active at_ => exact iff_of_true (hrevision _ (by simp)) fun m hm => by cases hm
    | ack kind messageId => exact iff_of_true (hrevision _ (by simp)) fun m hm => by cases hm
    | checkState =>
      exact iff_of_true (hsilent _ ((Silent.rawEnvelope _ _).bind fun _ => (Silent.io _).bind fun _ => .pure _))
        fun m hm => by cases hm
    | ephemeral =>
      refine iff_of_true (hsilent _ (.bind ?_ fun _ => (Silent.io _).bind fun _ => .pure _)) fun m hm => by cases hm
      exact .ite ((Silent.io _).bind fun _ => .io _) (.pure _)
    | forAWindow =>
      exact iff_of_true (hsilent _ ((Silent.io _).bind fun _ => .pure _)) fun m hm => by cases hm

/-! ## A message from the end of time -/

/-- A text of account 2 to account 1, sent at `timestamp`. -/
def textAt (timestamp : F64) : Cbor.Value :=
  .object [("type", .text "MessagingLayerCommand"), ("payload", .object [("layer", .object [("type", .text "Message"),
    ("contents", .text "hello"), ("timestamp", .float timestamp)]), ("sender_cid", .bigint 2), ("recipient_cid", .bigint 1),
    ("message_id", .text "m1")])]

def textEnvelope : Envelope where
  senderCid := 2
  recipientCid := 1
  messageId := "m1"
  index := F64.ofNat 0
  replyTo := none
  mentions := none
  attachments := none
  messageType := .text
  documentId := none
  documentTitle := none

def textNotification (timestamp : F64) : MessageNotification where
  message := (textAt timestamp).encode
  cid := 1
  peerCid := 2
  requestId := none

def nobody : Outside
  | _, .publish .. => 0
  | _, .sendP2p .. => .ok ()
  | _, .nowMs => 0
  | _, .newId => "id"
  | _, .accountUsername _ => "account"
  | _, .peerUsername .. => none
  | _, .knowsPeer .. => true
  | _, .raiseNotice .. => ()
  | _, .rowsChanged => ()

def atRest : Shared := ⟨∅, fun _ => 0, []⟩

theorem read_textAt (timestamp : F64) :
    Command.read (textAt timestamp).encode = some (.message textEnvelope "hello" timestamp) := by
  have hlen : ∀ t ∈ ["type", "MessagingLayerCommand", "payload", "layer", "Message", "contents", "hello", "timestamp",
      "sender_cid", "recipient_cid", "message_id", "m1"], (Cbor.utf8 t).length < 2 ^ 64 := by decide +kernel
  have hfits : (textAt timestamp).Fits := by
    simp only [List.forall_mem_cons] at hlen
    simp [textAt, Cbor.Value.object, Cbor.Value.bigint, Cbor.Value.Fits, Cbor.Value.FitsEntries, Cbor.Width.capacity]
    omega
  have hnest : (textAt timestamp).nesting ≤ Cbor.MAX_DEPTH := by
    simp [textAt, Cbor.Value.object, Cbor.Value.bigint, Cbor.Value.nesting, Cbor.Value.nestingEntries, Cbor.MAX_DEPTH]
  rw [Command.read, Cbor.Value.decode_encode hfits hnest]
  simp [textAt, Cbor.Value.object, Cbor.Value.get, Cbor.Value.isKey, Cbor.Value.asStr,
    Command.readLayer, Command.envelope, Command.string, Cbor.Value.bigint, Cbor.Value.asBigint, Cbor.Value.asNumber,
    Command.items, Command.messageType, MessageType.variants, textEnvelope, Except.toOption]

theorem loads_empty (own peer : Cid) : Loads ∅ own peer := by
  have hmeta : metadataOf ∅ own peer = .ok none := by
    simp [metadataOf, metadataAtPlace, Kv.at_, recordRead]
  exact loads_iff.mpr ⟨none, hmeta, by rintro _ ⟨⟩⟩

theorem poisons_empty (own peer : Cid) (hm : m.timestamp.isFinite = false) :
    Poisons ∅ own peer m := by
  refine ⟨_, draftOf_empty own peer m none, fun hf => ?_, fun hr => ?_, ?_⟩
  · simp [Draft.Full, emptyPage, MESSAGES_PER_PAGE] at hf
  · simp [hr.timestamp] at hm
  · have hpeer : (stamped own (newMetadata own peer m none m.timestamp)).peerCid = peer := rfl
    simp only [Draft.Reaches, hpeer, if_true, hm, true_or]

theorem delivered_textNotification (timestamp : F64) :
    delivered (textNotification timestamp) = incoming 1 2 textEnvelope "hello" timestamp := by
  rw [delivered, show (textNotification timestamp).message = (textAt timestamp).encode from rfl, read_textAt]
  rfl

theorem preferencesOf_empty (cid : Cid) : preferencesOf ∅ cid = .ok .UI_DEFAULTS := by
  simp [preferencesOf, readPreferences]

/-- A text sent at infinity: the conversation can be loaded before it arrives, and not after. -/
theorem delivered_infinite_time : Loads atRest.kv 1 2 ∧
    ¬ Loads (exec nobody (delivered (textNotification F64.infinity)) 0 atRest).2.kv 1 2 := by
  have hinf : F64.infinity.isFinite = false := by decide +kernel
  have htime : (fromPeer 1 2 textEnvelope "hello" F64.infinity).timestamp.isFinite = false := by
    simp only [fromPeer, received, hinf]
  have hrest : Loads atRest.kv 1 2 := loads_empty 1 2
  refine ⟨hrest, fun h => ?_⟩
  rw [delivered_textNotification, loads_incoming nobody hrest] at h
  exact h .UI_DEFAULTS (preferencesOf_empty 1) rfl (poisons_empty 1 2 htime)

/-- A text sent at one millisecond. -/
theorem delivered_loads_text : Loads atRest.kv 1 2 ∧
    Loads (exec nobody (delivered (textNotification (F64.ofNat 1))) 0 atRest).2.kv 1 2 := by
  refine ⟨loads_empty 1 2, (delivered_loads nobody (textNotification (F64.ofNat 1)) atRest (loads_empty 1 2)).mpr ?_⟩
  rintro m hm ⟨-, -, -, hun, -⟩
  have hprefs : preferencesOf atRest.kv (textNotification (F64.ofNat 1)).cid = .ok .UI_DEFAULTS := preferencesOf_empty 1
  rw [arriving, show (textNotification (F64.ofNat 1)).message = (textAt (F64.ofNat 1)).encode from rfl, read_textAt,
    hprefs] at hm
  obtain rfl := Option.some.inj hm
  have h0 := F64.isFinite_ofNat (n := 0) (by decide)
  have h1 := F64.isFinite_ofNat (n := 1) (by decide)
  refine hun ⟨?_, ?_, fun list hl => ?_, fun list hl => ?_⟩
  · simp only [fromPeer, received, h1]
  · simp only [fromPeer, received, textEnvelope, h0]
  · cases hl
  · cases hl

end Engine

end CitadelAgent.Conversations
