import CitadelAgent.Conversations.Append

/-!
# Appending again after a refused write

`Engine::store_and_ack` answers `false` when `append` failed, so that the message is delivered, and appended, again.

* `SameRecords` : the same pages, and metadata that differs in `last_updated` only;
* `AppendedOnce` : the two calls left what one would have, and one of them reported the message;
* `append_retry` : exactly when they do.
-/

namespace CitadelAgent.Conversations
open Store StoreRules Result

/-! ## What counts as the same -/

inductive SameRecord : Option Bytes → Option Bytes → Prop
  | same (r : Option Bytes) : SameRecord r r
  | page {a b : Bytes} {p : ConversationPage} (ha : decodePage a = .ok p) (hb : decodePage b = .ok p) :
    SameRecord (some a) (some b)
  | metadata (m : ConversationMetadata) (t u : F64) :
    SameRecord (some (metadataBytes { m with lastUpdated := t })) (some (metadataBytes { m with lastUpdated := u }))

def SameRecords (kv kv' : Kv) : Prop := ∀ key, SameRecord (kv.lookup key) (kv'.lookup key)

theorem SameRecords.insert {kv kv' : Kv} (h : SameRecords kv kv') (key : String) {a b : Bytes}
    (hab : SameRecord (some a) (some b)) : SameRecords (kv.insert key a) (kv'.insert key b) := by
  intro k
  rw [Kv.lookup_insert_eq, Kv.lookup_insert_eq]
  split_ifs
  · exact hab
  · exact h k

/-- One call of `append` that succeeds left `once`; a call that failed and the call after it, answered `first` and
`second` and left `again`. -/
def AppendedOnce (once again : Kv) (first second : Except KvError (Option ConversationMetadata)) : Prop :=
  SameRecords once again ∧ Xor (∃ m, first = .ok (some m)) (∃ m, second = .ok (some m))

theorem any_hasId_norm (id : String) (p : ConversationPage) :
    p.norm.messages.any (hasId id) = p.messages.any (hasId id) := by
  simp only [ConversationPage.norm, List.any_map]
  rfl

variable {p : ConversationPage} {writes : List (Place × Bytes)}

section

variable {kv kv' : Kv} {own peer : Cid} {message : ConversationMessage} {name : Option String} {d : Draft}

/-! ## A rollover -/

/-- A page as it was read, or as it reads once saved again. -/
def Reread (p q : ConversationPage) : Prop := q = p ∨ q = p.norm

theorem Reread.any_hasId {q : ConversationPage} (h : Reread p q) (id : String) :
    q.messages.any (hasId id) = p.messages.any (hasId id) := by
  rcases h with rfl | rfl
  · rfl
  · exact any_hasId_norm id p

theorem Reread.decode_encode {q : ConversationPage} (h : Reread p q) (hp : p.Sound) :
    ∃ b, encodePage q = .ok b ∧ decodePage b = .ok p.norm := by
  rcases h with rfl | rfl
  · exact ⟨_, hp.encodePage, (decodePage_encodePage hp.encodePage _).mpr ⟨hp.readable, rfl⟩⟩
  · exact ⟨_, hp.norm.encodePage, (decodePage_encodePage hp.norm.encodePage _).mpr ⟨hp.norm.readable, hp.norm_norm.symm⟩⟩

theorem pageOf_insert_reread {b : Bytes} (hb : decodePage b = .ok p.norm) (n : UInt32) :
    pageOf (kv.insert (Place.messages own p.peerCid p.pageNumber).name b) own peer n = pageOf kv own peer n ∨
      pageOf (kv.insert (Place.messages own p.peerCid p.pageNumber).name b) own peer n = .ok (some p.norm) := by
  rw [pageOf_insert_messages]
  split_ifs
  · exact .inr (recordRead_ok hb)
  · exact .inl rfl

theorem ne_add_one (k : UInt32) : k ≠ k + 1 := by
  intro he
  have hn := congrArg UInt32.toNat he
  simp only [UInt32.toNat_add, UInt32.toNat_one] at hn
  omega

theorem sub_one_ne_add_one (k : UInt32) : k - 1 ≠ k + 1 := by
  intro he
  have hn := congrArg UInt32.toNat he
  simp only [UInt32.toNat_add, UInt32.toNat_sub, UInt32.toNat_one] at hn
  omega

theorem reads_rollover (hd : draftOf kv own peer message name = .ok (some d)) (hf : d.Full)
    (hw : d.Writes own peer message writes) (n : Nat) :
    metadataOf (insertAll (writes.take n) kv) own peer = metadataOf kv own peer ∧
      ∀ k, k ≠ d.metadata.latestPage + 1 → pageOf (insertAll (writes.take n) kv) own peer k = pageOf kv own peer k ∨
        pageOf (insertAll (writes.take n) kv) own peer k = .ok (some d.page.norm) := by
  have hsound := sound_of_pageOf (pageOf_of_full hd hf)
  rw [Draft.Writes, if_pos hf] at hw
  obtain ⟨-, closed, placed, hclosed, -, rfl⟩ := hw
  have hdecode : decodePage closed = .ok d.page.norm :=
    (decodePage_encodePage hclosed _).mpr ⟨hsound.readable, rfl⟩
  have hnumber : d.number = d.metadata.latestPage + 1 := if_pos hf
  rcases n with _ | _ | n
  · exact ⟨rfl, fun k _ => .inl rfl⟩
  · exact ⟨metadataOf_insert_messages .., fun k _ => pageOf_insert_reread hdecode k⟩
  · have htake : ∀ a b : Place × Bytes, [a, b].take (n + 2) = [a, b] := fun a b => by simp
    rw [htake]
    refine ⟨by simp only [insertAll, metadataOf_insert_messages], fun k hk => ?_⟩
    simp only [insertAll]
    rw [pageOf_insert_messages, hnumber, if_neg fun h => hk h.2]
    exact pageOf_insert_reread hdecode k

theorem draftOf_rollover (hd : draftOf kv own peer message name = .ok (some d)) (hf : d.Full)
    (hw : d.Writes own peer message writes) (n : Nat) :
    ∃ page, Reread d.page page ∧
      draftOf (insertAll (writes.take n) kv) own peer message name = .ok (some { d with page }) := by
  obtain ⟨hmeta, hpages⟩ := reads_rollover hd hf hw n
  have hread := pageOf_of_full hd hf
  obtain ⟨existing, -, -, -, -, hstored⟩ := draftOf_eq_some.mp hd
  obtain ⟨hfresh, hprevious⟩ := storedIn_eq_false.mp hstored
  obtain ⟨page, hpage, hre⟩ : ∃ page, pageOf (insertAll (writes.take n) kv) own peer d.metadata.latestPage =
      .ok (some page) ∧ Reread d.page page := by
    rcases hpages _ (ne_add_one _) with h | h
    · exact ⟨d.page, h.trans hread, .inl rfl⟩
    · exact ⟨d.page.norm, h, .inr rfl⟩
  refine ⟨page, hre, draftOf_of_pages hd hmeta (newestPage_eq_ok.mpr ⟨_, hpage, rfl⟩) ?_⟩
  refine storedIn_eq_false.mpr ⟨(hre.any_hasId _).trans hfresh, fun h0 => ?_⟩
  rcases hpages _ (sub_one_ne_add_one _) with h | h
  · obtain ⟨q, hq, hnone⟩ := hprevious h0
    exact ⟨q, h.trans hq, hnone⟩
  · exact ⟨_, h, (any_hasId_norm _ _).trans hfresh⟩

/-! ## The call after -/

theorem retry_of_draft {half : Kv} {d' : Draft} {writes' : List (Place × Bytes)}
    (hd : draftOf half own peer message name = .ok (some d')) (hw : d'.Writes own peer message writes')
    (hmeta : d'.metadata = d.metadata) (hnew : d'.isNew = d.isNew) (hnumber : d'.number = d.number)
    (hsame : SameRecords (insertAll writes kv) (insertAll writes' half)) (now now' : F64) :
    ∃ m again, Kv.exec (append own peer message name now') half = (.ok (some m), again) ∧
      SameRecords (insertAll (writes ++ [d.pointer own message now]) kv) again := by
  refine ⟨d'.recorded own message now', insertAll (writes' ++ [d'.pointer own message now']) half, ?_, ?_⟩
  · rw [Kv.exec, exec_append_of_honest honest_handle, id, hd]
    exact exec_commit_eq_ok.mpr ⟨writes', hw, rfl, rfl⟩
  · rw [insertAll_concat, insertAll_concat]
    have hplace : (d'.pointer own message now').1 = (d.pointer own message now).1 := by
      simp only [Draft.pointer, hmeta]
    rw [hplace]
    refine hsame.insert _ ?_
    have hclock : d'.recorded own message now' = { d.recorded own message now with lastUpdated := now' } := by
      simp only [Draft.recorded, hmeta, hnew, hnumber]
      rfl
    rw [Draft.pointer, Draft.pointer, hclock]
    exact .metadata (d.recorded own message now) now now'

theorem Reread.full {page : ConversationPage} (h : Reread d.page page) (hf : d.Full) : ({ d with page } : Draft).Full := by
  rcases h with rfl | rfl
  · exact hf
  · simpa [Draft.Full, ConversationPage.norm] using hf

theorem retry_rollover (hd : draftOf kv own peer message name = .ok (some d)) (hf : d.Full)
    (hw : d.Writes own peer message writes) (n : Nat) (now now' : F64) :
    ∃ m again, Kv.exec (append own peer message name now') (insertAll (writes.take n) kv) = (.ok (some m), again) ∧
      SameRecords (insertAll (writes ++ [d.pointer own message now]) kv) again := by
  obtain ⟨page, hre, hdraft⟩ := draftOf_rollover hd hf hw n
  have hf' := hre.full hf
  have hsound := sound_of_pageOf (pageOf_of_full hd hf)
  obtain ⟨closed', hclosed', hdecode'⟩ := hre.decode_encode hsound
  rw [Draft.Writes, if_pos hf] at hw
  obtain ⟨hroom, closed, placed, hclosed, hplaced, rfl⟩ := hw
  have hdecode := (decodePage_encodePage hclosed _).mpr ⟨hsound.readable, rfl⟩
  have hnumber : ({ d with page } : Draft).number = d.number := by
    rw [Draft.number, Draft.number, if_pos hf, if_pos hf']
  have hplaced' : ({ d with page } : Draft).placed peer message = d.placed peer message := by
    rw [Draft.placed, Draft.placed, if_pos hf, if_pos hf']
  have hkey : Place.messages own page.peerCid page.pageNumber = .messages own d.page.peerCid d.page.pageNumber := by
    rcases hre with rfl | rfl <;> rfl
  have hw' : ({ d with page } : Draft).Writes own peer message
      [(.messages own d.page.peerCid d.page.pageNumber, closed'), (.messages own peer d.number, placed)] := by
    rw [Draft.Writes, if_pos hf']
    refine ⟨hroom, closed', placed, hclosed', hplaced'.symm ▸ hplaced, ?_⟩
    rw [hnumber]
    simp only [hkey]
  refine retry_of_draft (d := d) hdraft hw' rfl rfl hnumber ?_ now now'
  · -- Both end with the same two pages written; what was there of them before does not matter.
    intro key
    have hhalf : key ≠ (Place.messages own d.page.peerCid d.page.pageNumber).name →
        key ≠ (Place.messages own peer d.number).name → (insertAll ([(Place.messages own d.page.peerCid d.page.pageNumber, closed),
        (Place.messages own peer d.number, placed)].take n) kv).lookup key = kv.lookup key := by
      intro h1 h2
      rcases n with _ | _ | n
      · rfl
      · simp [insertAll, h1]
      · simp [insertAll, h1, h2]
    simp only [insertAll, Kv.lookup_insert_eq]
    split_ifs with h2 h1
    · exact .same _
    · exact .page hdecode hdecode'
    · rw [hhalf h1 h2]
      exact .same _

/-! ## Any other append -/

theorem retry_unwritten (hd : draftOf kv own peer message name = .ok (some d)) (hw : d.Writes own peer message writes)
    (now now' : F64) :
    ∃ m again, Kv.exec (append own peer message name now') kv = (.ok (some m), again) ∧
      SameRecords (insertAll (writes ++ [d.pointer own message now]) kv) again :=
  retry_of_draft hd hw rfl rfl rfl (fun _ => .same _) now now'

/-- The page a redelivery looks at when the newest page of a conversation is saved as page `number` of `c`. -/
def LooksAt (peer : Cid) (latest : UInt32) (c : Cid) (number : UInt32) : Prop :=
  c = peer ∧ (number = latest ∨ latest ≠ 0 ∧ number = latest - 1)

theorem retry_misfiled (hd : draftOf kv own peer message name = .ok (some d)) (hf : ¬ d.Full)
    (hfar : ¬ LooksAt peer d.metadata.latestPage d.page.peerCid d.page.pageNumber) (hw : d.Writes own peer message writes)
    (now now' : F64) :
    ∃ m again, Kv.exec (append own peer message name now') (insertAll (writes.take 1) kv) = (.ok (some m), again) ∧
      SameRecords (insertAll (writes ++ [d.pointer own message now]) kv) again := by
  have hw' := hw
  rw [Draft.Writes, if_neg hf] at hw
  obtain ⟨placed, hplaced, rfl⟩ := hw
  obtain ⟨existing, -, -, -, hpage, hstored⟩ := draftOf_eq_some.mp hd
  obtain ⟨found, hfound, hget⟩ := newestPage_eq_ok.mp hpage
  obtain ⟨hfresh, hprevious⟩ := storedIn_eq_false.mp hstored
  have hlatest : ¬ (peer = d.page.peerCid ∧ d.metadata.latestPage = d.page.pageNumber) :=
    fun h => hfar ⟨h.1.symm, .inl h.2.symm⟩
  have hdraft : draftOf (kv.insert (Place.messages own d.page.peerCid d.page.pageNumber).name placed) own peer message
      name = .ok (some d) := by
    refine draftOf_of_pages hd (metadataOf_insert_messages ..) (newestPage_eq_ok.mpr ⟨found, ?_, hget⟩) ?_
    · rw [pageOf_insert_messages, if_neg hlatest, hfound]
    · refine storedIn_eq_false.mpr ⟨hfresh, fun h0 => ?_⟩
      obtain ⟨q, hq, hnone⟩ := hprevious h0
      refine ⟨q, ?_, hnone⟩
      rw [pageOf_insert_messages, if_neg fun h => hfar ⟨h.1.symm, .inr ⟨h0, h.2.symm⟩⟩, hq]
  refine retry_of_draft (d := d) hdraft hw' rfl rfl rfl (fun key => ?_) now now'
  simp only [insertAll, Kv.lookup_insert_eq]
  split_ifs
  · exact .same _
  · exact .same _

theorem mem_placed (d : Draft) (peer : Cid) (message : ConversationMessage) :
    message ∈ (d.placed peer message).messages := by
  simp [Draft.placed, place, List.mem_mergeSort]

theorem any_hasId_placed (d : Draft) (peer : Cid) (message : ConversationMessage) :
    (d.placed peer message).messages.any (hasId message.id) = true :=
  List.any_eq_true.mpr ⟨message, mem_placed d peer message, by simp [hasId]⟩

/-- The page with the message saved where the second call looks: it takes the message for a redelivery (or cannot read
the page), and nobody writes the metadata. -/
theorem retry_lost (hd : draftOf kv own peer message name = .ok (some d)) (hf : ¬ d.Full)
    (hnear : LooksAt peer d.metadata.latestPage d.page.peerCid d.page.pageNumber) (hw : d.Writes own peer message writes)
    (now' : F64) (m : ConversationMetadata) (again : Kv) :
    Kv.exec (append own peer message name now') (insertAll (writes.take 1) kv) ≠ (.ok (some m), again) := by
  intro happ
  rw [Draft.Writes, if_neg hf] at hw
  obtain ⟨placed, hplaced, rfl⟩ := hw
  obtain ⟨d', -, hd', -, -, -⟩ := append_eq_some happ
  obtain ⟨existing, hmeta, hdm, -, -, -⟩ := draftOf_eq_some.mp hd
  obtain ⟨existing', hmeta', hdm', -, hpage', hstored'⟩ := draftOf_eq_some.mp hd'
  have hsame : d'.metadata = d.metadata := by
    have he : existing' = existing := by
      rw [show insertAll _ kv = kv.insert _ placed from rfl, metadataOf_insert_messages, hmeta] at hmeta'
      exact (Except.ok.inj hmeta').symm
    rw [hdm', hdm, he]
  rw [hsame] at hpage' hstored'
  obtain ⟨hfresh, hprevious⟩ := storedIn_eq_false.mp hstored'
  obtain ⟨hpeer, hnumber⟩ := hnear
  have hholds : ∀ {r : Option ConversationPage}, recordRead decodePage (some placed) = .ok r →
      ∃ q, r = some q ∧ q.messages.any (hasId message.id) = true := by
    intro r hr
    cases hq : decodePage placed with
    | error e => simp [recordRead, hq] at hr
    | ok q =>
      rw [recordRead_ok hq] at hr
      obtain ⟨-, rfl⟩ := (decodePage_encodePage hplaced q).mp hq
      exact ⟨_, (Except.ok.inj hr).symm, (any_hasId_norm _ _).trans (any_hasId_placed d peer message)⟩
  rcases hnumber with hlatest | ⟨h0, hprev⟩
  · obtain ⟨found, hfound, hget⟩ := newestPage_eq_ok.mp hpage'
    rw [show insertAll _ kv = kv.insert _ placed from rfl, pageOf_insert_messages,
      if_pos ⟨hpeer.symm, hlatest.symm⟩] at hfound
    obtain ⟨q, rfl, hany⟩ := hholds hfound
    rw [hget, Option.getD_some, hany] at hfresh
    cases hfresh
  · obtain ⟨q, hq, hnone⟩ := hprevious h0
    rw [show insertAll _ kv = kv.insert _ placed from rfl, pageOf_insert_messages,
      if_pos ⟨hpeer.symm, hprev.symm⟩] at hq
    obtain ⟨q, rfl, hany⟩ := hholds hq
    simp [hany] at hnone

end

/-! ## When a failed append is made good -/

def latestOf (kv : Kv) (own peer : Cid) : UInt32 :=
  match metadataOf kv own peer with
  | .ok (some m) => m.latestPage
  | _ => 0

def newestOf (kv : Kv) (own peer : Cid) : Option ConversationPage :=
  match pageOf kv own peer (latestOf kv own peer) with
  | .ok page => page
  | .error _ => none

def NewestFull (kv : Kv) (own peer : Cid) : Prop :=
  ∃ p ∈ newestOf kv own peer, MESSAGES_PER_PAGE ≤ p.messages.length

/-- The record of the newest page says it is another page, of a conversation or number that a redelivery does not
look at. -/
def NewestMisfiled (kv : Kv) (own peer : Cid) : Prop :=
  ∃ p ∈ newestOf kv own peer, ¬ LooksAt peer (latestOf kv own peer) p.peerCid p.pageNumber

section

variable {kv : Kv} {own peer : Cid} {message : ConversationMessage} {name : Option String} {d : Draft}

theorem latestPage_of_draft (hd : draftOf kv own peer message name = .ok (some d)) :
    d.metadata.latestPage = latestOf kv own peer := by
  obtain ⟨existing, hmeta, hdm, -, -, -⟩ := draftOf_eq_some.mp hd
  rw [hdm, latestOf, hmeta]
  cases existing <;> rfl

theorem newestOf_of_draft (hd : draftOf kv own peer message name = .ok (some d)) :
    d.page = (newestOf kv own peer).getD (emptyPage peer (latestOf kv own peer) message.timestamp) := by
  obtain ⟨existing, -, -, -, hpage, -⟩ := draftOf_eq_some.mp hd
  obtain ⟨found, hfound, hget⟩ := newestPage_eq_ok.mp hpage
  rw [latestPage_of_draft hd] at hfound hget
  rw [hget, newestOf, hfound]

theorem full_iff_of_draft (hd : draftOf kv own peer message name = .ok (some d)) : d.Full ↔ NewestFull kv own peer := by
  rw [Draft.Full, newestOf_of_draft hd, NewestFull]
  cases newestOf kv own peer with
  | none => simp [emptyPage, MESSAGES_PER_PAGE]
  | some p => simp

theorem misfiled_iff_of_draft (hd : draftOf kv own peer message name = .ok (some d)) :
    ¬ LooksAt peer d.metadata.latestPage d.page.peerCid d.page.pageNumber ↔ NewestMisfiled kv own peer := by
  rw [newestOf_of_draft hd, latestPage_of_draft hd, NewestMisfiled]
  cases newestOf kv own peer with
  | none => simp [emptyPage, LooksAt]
  | some p => simp

theorem Draft.Writes.length_of_not_full (hw : d.Writes own peer message writes) (hf : ¬ d.Full) : writes.length = 1 := by
  rw [Draft.Writes, if_neg hf] at hw
  obtain ⟨placed, -, rfl⟩ := hw
  rfl

theorem execRefusing_append_of_draft (hd : draftOf kv own peer message name = .ok (some d))
    (hw : d.Writes own peer message writes) (now : F64) {n : Nat} (hn : n ≤ writes.length) :
    Kv.execRefusing n (append own peer message name now) kv =
      (.error (.host "refused"), insertAll (writes.take n) kv) := by
  have hrun := execRefusing_commit hw now n kv
  rw [if_pos hn] at hrun
  rw [← hrun, Kv.execRefusing, exec_append_of_honest honest_refusing, hd]
  rfl

theorem draft_of_refused {now now₁ : F64} {m : ConversationMetadata} {once half : Kv} {n : Nat} {e : KvError}
    (honce : Kv.exec (append own peer message name now) kv = (.ok (some m), once))
    (hfirst : Kv.execRefusing n (append own peer message name now₁) kv = (.error e, half)) :
    ∃ d writes, draftOf kv own peer message name = .ok (some d) ∧ d.Writes own peer message writes ∧
      once = insertAll (writes ++ [d.pointer own message now]) kv ∧ n ≤ writes.length ∧
      half = insertAll (writes.take n) kv := by
  obtain ⟨d, writes, hd, hw, -, hkv⟩ := append_eq_some honce
  have hrun := execRefusing_commit hw now₁ n kv
  have happend : Kv.execRefusing n (append own peer message name now₁) kv =
      Kv.execRefusing n (d.commit own peer message now₁) kv := by
    rw [Kv.execRefusing, exec_append_of_honest honest_refusing, hd]
    rfl
  rw [happend, hrun] at hfirst
  split_ifs at hfirst with hn
  · exact ⟨d, writes, hd, hw, hkv, hn, (Prod.mk.inj hfirst).2.symm⟩
  · simp at hfirst

/-- An append again after a refused write leaves what one append leaves, and is reported once, exactly when nothing
was written, or the newest page was full, or it is saved where the second call does not look. -/
theorem append_retry {now now₁ now₂ : F64} {m : ConversationMetadata} {once half again : Kv} {n : Nat} {e : KvError}
    {second : Except KvError (Option ConversationMetadata)}
    (honce : Kv.exec (append own peer message name now) kv = (.ok (some m), once))
    (hfirst : Kv.execRefusing n (append own peer message name now₁) kv = (.error e, half))
    (hagain : Kv.exec (append own peer message name now₂) half = (second, again)) :
    AppendedOnce once again (.error e) second ↔ n = 0 ∨ NewestFull kv own peer ∨ NewestMisfiled kv own peer := by
  obtain ⟨d, writes, hd, hw, rfl, hn, rfl⟩ := draft_of_refused honce hfirst
  rw [← full_iff_of_draft hd, ← misfiled_iff_of_draft hd]
  constructor
  · rintro ⟨-, hone⟩
    by_contra hcon
    simp only [not_or, not_not] at hcon
    obtain ⟨h0, hf, hnear⟩ := hcon
    obtain ⟨m', rfl⟩ : ∃ m', second = .ok (some m') := by
      rcases hone with ⟨⟨_, h⟩, -⟩ | ⟨h, -⟩
      · cases h
      · exact h
    have hlen := hw.length_of_not_full hf
    obtain rfl : n = 1 := by omega
    exact retry_lost hd hf hnear hw now₂ m' again hagain
  · intro hcond
    have hgood : ∃ m' again', Kv.exec (append own peer message name now₂) (insertAll (writes.take n) kv) =
        (.ok (some m'), again') ∧ SameRecords (insertAll (writes ++ [d.pointer own message now]) kv) again' := by
      by_cases hf : d.Full
      · exact retry_rollover hd hf hw n now now₂
      · by_cases h0 : n = 0
        · rw [h0]
          exact retry_unwritten hd hw now now₂
        · have hfar := (hcond.resolve_left h0).resolve_left hf
          have hlen := hw.length_of_not_full hf
          obtain rfl : n = 1 := by omega
          exact retry_misfiled hd hf hfar hw now now₂
    obtain ⟨m', again', hrun, hsame⟩ := hgood
    rw [hrun] at hagain
    obtain ⟨rfl, rfl⟩ := Prod.mk.inj hagain
    exact ⟨hsame, .inr ⟨⟨m', rfl⟩, fun h => by simp at h⟩⟩

end

/-! ## The first message of a conversation -/

theorem append_retry_first_page : ∃ m once half second again,
    Kv.exec (append 1 2 firstMessage none (F64.ofNat 10)) ∅ = (.ok (some m), once) ∧
    Kv.execRefusing 0 (append 1 2 firstMessage none (F64.ofNat 20)) ∅ = (.error (.host "refused"), half) ∧
    Kv.exec (append 1 2 firstMessage none (F64.ofNat 30)) half = (second, again) ∧
    AppendedOnce once again (.error (.host "refused")) second := by
  obtain ⟨placed, hw⟩ := writes_first
  have honce := exec_append_of_draft draftOf_first hw (F64.ofNat 10)
  have hfirst := execRefusing_append_of_draft draftOf_first hw (F64.ofNat 20) (n := 0) (by simp)
  exact ⟨_, _, _, _, _, honce, hfirst, rfl, (append_retry honce hfirst rfl).mpr (.inl rfl)⟩

/-- The write of the metadata refused, the second call takes the message for a redelivery. -/
theorem append_retry_first_metadata : ∃ m once half second again,
    Kv.exec (append 1 2 firstMessage none (F64.ofNat 10)) ∅ = (.ok (some m), once) ∧
    Kv.execRefusing 1 (append 1 2 firstMessage none (F64.ofNat 20)) ∅ = (.error (.host "refused"), half) ∧
    Kv.exec (append 1 2 firstMessage none (F64.ofNat 30)) half = (second, again) ∧
    ¬ AppendedOnce once again (.error (.host "refused")) second := by
  obtain ⟨placed, hw⟩ := writes_first
  have honce := exec_append_of_draft draftOf_first hw (F64.ofNat 10)
  have hfirst := execRefusing_append_of_draft draftOf_first hw (F64.ofNat 20) (n := 1) (by simp)
  refine ⟨_, _, _, _, _, honce, hfirst, rfl, ?_⟩
  rintro ⟨-, ⟨⟨m, hm⟩, -⟩ | ⟨⟨m, hm⟩, -⟩⟩
  · cases hm
  · have hf : ¬ firstDraft.Full := by simp [firstDraft, Draft.Full, emptyPage, MESSAGES_PER_PAGE]
    exact retry_lost draftOf_first hf ⟨rfl, .inl rfl⟩ hw _ m _ (Prod.ext hm rfl)

end CitadelAgent.Conversations
