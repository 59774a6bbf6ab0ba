import CitadelAgent.Conversations.Copies
import CitadelAgent.Conversations.Unread

/-!
# The newest and the oldest mark

* `Appends` : successful appends from an empty bucket, with what they stored and the metadata that the last one gave;
* `Marks` : what holds of that metadata, `Appends.marks` after every such run;
* `newest_bounds` : the newest mark is not before any message exactly when the last one stored is not.
-/

namespace CitadelAgent.Conversations
open Store StoreRules

/-- Successful appends: the messages stored, in the order they were, and the metadata after the last of them. -/
inductive Appends (own peer : Cid) : List ConversationMessage → Option ConversationMetadata → Kv → Prop
  | empty : Appends own peer [] none ∅
  | stored {l : List ConversationMessage} {found : Option ConversationMetadata} {kv kv' : Kv} (h : Appends own peer l found kv)
    (message : ConversationMessage) (name : Option String) (now : F64) (m : ConversationMetadata)
    (hrun : Kv.exec (append own peer message name now) kv = (.ok (some m), kv')) :
    Appends own peer (l ++ [message]) (some m) kv'
  | again {l : List ConversationMessage} {found : Option ConversationMetadata} {kv kv' : Kv} (h : Appends own peer l found kv)
    (message : ConversationMessage) (name : Option String) (now : F64)
    (hrun : Kv.exec (append own peer message name now) kv = (.ok none, kv')) : Appends own peer l found kv'

structure Marks (own peer : Cid) (l : List ConversationMessage) (m : ConversationMetadata) (kv : Kv) : Prop where
  record : kv.at_ (.metadata own peer) = some (metadataBytes m)
  peerCid : m.peerCid = peer
  newest : ∃ earlier last, l = earlier ++ [last] ∧ m.newestMessageTimestamp = last.timestamp ∧
    ∀ x ∈ earlier, x.timestamp.isFinite = true
  /-- The oldest mark is compared by `<`: it says nothing of what is not a number. -/
  oldest : (∀ x ∈ l, x.timestamp.isNaN = false) → ∀ x ∈ l, m.oldestMessageTimestamp.le x.timestamp = true
  total : (∀ x ∈ l, x.timestamp.isFinite = true) → m.totalMessageCount = F64.ofNat l.length ∧ l.length < 2 ^ 53

variable {d : Draft} {message : ConversationMessage} {now : F64} {writes : List (Place × Bytes)}

section

variable {own peer : Cid} {l : List ConversationMessage} {found : Option ConversationMetadata} {kv kv' : Kv}

theorem Appends.reached (h : Appends own peer l found kv) : Reached kv := by
  induction h with
  | empty => exact .refl
  | stored _ message name now m hrun ih | again _ message name now hrun ih =>
    have hcall := ih.program own peer (.append message name now)
    rwa [StoreOp.program, StoreOp.snd_program, hrun] at hcall

theorem Appends.run (h : Appends own peer l found kv) (hfin : ∀ x ∈ l, x.timestamp.isFinite = true) : Run kv := by
  induction h with
  | empty => exact .empty
  | stored _ message name now m hrun ih =>
    exact .step own peer (.append message name now) (ih fun x hx => hfin x (List.mem_append_left _ hx))
      (hfin message (by simp)) (StoreOp.exec_discard.mpr ⟨_, hrun⟩)
  | again _ message name now hrun ih =>
    rcases append_eq_ok hrun with ⟨-, rfl⟩ | ⟨d, writes, -, -, hsome, -⟩
    · exact ih hfin
    · cases hsome

theorem Appends.pages (h : Appends own peer l found kv) {n : UInt32} {p : ConversationPage}
    (hp : pageOf kv own peer n = .ok (some p)) {x : ConversationMessage} (hx : x ∈ p.messages) :
    ∃ m ∈ l, x.id = m.id ∧ x.timestamp = m.timestamp.norm := by
  induction h generalizing n p x with
  | empty =>
    have hnone : pageOf ∅ own peer n = .ok none := (Sited.empty own peer).unstarted
      (metadataOf_absent (fun _ _ => rfl) ⟨rfl, fun _ => rfl⟩) n
    rw [hnone] at hp
    cases hp
  | @stored l found kv kv' h message name now m hrun ih =>
    have ht := append_touched (h.reached.sited.2 own peer).placed message name now
    rw [hrun] at ht
    rcases ht.origin (h.reached.sited.2 own peer) hp hx with ⟨q, hq, y, hy, hmade⟩ | ⟨_, _, _, heq, rfl, -⟩
    · obtain ⟨z, hz, hid, htime⟩ := ih hq hy
      refine ⟨z, List.mem_append_left _ hz, hmade.id_eq.trans hid, ?_⟩
      rcases hmade with (rfl | rfl) | ⟨id, f, c, htarget, -⟩ | ⟨now, heq, -⟩
      · exact htime
      · show y.timestamp.norm = z.timestamp.norm
        rw [htime, F64.norm_norm]
      · cases htarget
      · cases heq
    · cases heq
      exact ⟨message, by simp, rfl, rfl⟩
  | again _ message name now hrun ih =>
    rcases append_eq_ok hrun with ⟨-, rfl⟩ | ⟨d, writes, -, -, hsome, -⟩
    · exact ih hp hx
    · cases hsome

theorem recorded_oldest (d : Draft) (message : ConversationMessage) (now : F64) :
    (d.recorded own message now).oldestMessageTimestamp =
      if d.isNew || (d.metadata.totalMessageCount.add (F64.ofNat 1)).eq (F64.ofNat 1) ||
        message.timestamp.lt d.metadata.oldestMessageTimestamp then message.timestamp
      else d.metadata.oldestMessageTimestamp := rfl

theorem record_after (hpeer : d.metadata.peerCid = peer) :
    (insertAll (writes ++ [d.pointer own message now]) kv).at_ (.metadata own peer) =
      some (metadataBytes (d.recorded own message now)) := by
  rw [insertAll_concat, Draft.pointer, hpeer, Kv.at_insert, if_pos rfl]

theorem marks_first {name : Option String} (hd : draftOf ∅ own peer message name = .ok (some d)) :
    Marks own peer [message] (d.recorded own message now) (insertAll (writes ++ [d.pointer own message now]) kv) := by
  rw [draftOf_empty, Except.ok.injEq, Option.some.injEq] at hd
  have hpeer : d.metadata.peerCid = peer := by rw [← hd]; rfl
  have hnew : d.isNew = true := by rw [← hd]
  have htotal : d.metadata.totalMessageCount = F64.ofNat 0 := by
    rw [← hd]
    simp only [stamped, newMetadata]
  refine ⟨record_after hpeer, hpeer, ⟨[], message, rfl, rfl, fun x hx => by cases hx⟩, fun hnan x hx => ?_, fun _ => ?_⟩
  · rw [recorded_oldest, hnew, Bool.true_or, Bool.true_or, if_pos rfl, List.mem_singleton.mp hx]
    exact F64.le_eq_true.mpr ⟨hnan message (by simp), hnan message (by simp), le_refl _⟩
  · refine ⟨?_, by simp⟩
    show d.metadata.totalMessageCount.add (F64.ofNat 1) = F64.ofNat [message].length
    rw [htotal, F64.ofNat_add_one (by decide)]
    rfl

theorem Marks.next {m : ConversationMetadata} {name : Option String} (hm : Marks own peer l m kv)
    (hrun : (∀ x ∈ l, x.timestamp.isFinite = true) → Run kv) (hd : draftOf kv own peer message name = .ok (some d)) :
    Marks own peer (l ++ [message]) (d.recorded own message now)
      (insertAll (writes ++ [d.pointer own message now]) kv) := by
  obtain ⟨existing, hmeta, hdm, hdn, -⟩ := draftOf_eq_some.mp hd
  have hread := hmeta
  rw [metadataOf, metadataAtPlace, hm.record] at hread
  have hreadable : m.Readable ∧ existing = some m.norm := by
    refine (recordRead_metadataBytes m existing).mp ?_
    cases hr : recordRead decodeMetadata (some (metadataBytes m)) with
    | error e => simp [hr] at hread
    | ok found =>
      obtain ⟨-, rfl⟩ := (recordRead_metadataBytes m found).mp hr
      rw [hr] at hread
      exact hread
  obtain ⟨hreadable, rfl⟩ := hreadable
  rw [Option.getD_some] at hdm
  have hpeer : d.metadata.peerCid = peer := by
    rw [hdm]
    exact hm.peerCid
  have holdest : d.metadata.oldestMessageTimestamp = m.oldestMessageTimestamp.norm := by rw [hdm]; rfl
  have htotal : d.metadata.totalMessageCount = m.totalMessageCount.norm := by rw [hdm]; rfl
  -- Metadata that was read back has a newest mark that is a number, so the messages before this one are all finite.
  obtain ⟨earlier, last, hl, hnewest, hfinite⟩ := hm.newest
  have hfin : ∀ x ∈ l, x.timestamp.isFinite = true := by
    intro x hx
    rw [hl] at hx
    rcases List.mem_append.mp hx with hin | hin
    · exact hfinite x hin
    · rw [List.mem_singleton.mp hin, ← hnewest]
      exact hreadable.newestMessageTimestamp
  obtain ⟨hcount, hlt⟩ := hm.total hfin
  have hnorm : d.metadata.totalMessageCount = F64.ofNat l.length := by rw [htotal, hcount, F64.norm_ofNat hlt]
  have hroom : l.length + 1 < 2 ^ 53 := by
    obtain ⟨hlegacy, hgood⟩ := (hrun hfin).good
    rcases hgood own peer with habs | ⟨c, hc, hok⟩
    · rw [metadataOf_absent hlegacy habs] at hmeta
      cases hmeta
    · have hsame := congrArg (·.totalMessageCount) (Option.some.inj (metadataOf_holds hc hmeta))
      have hbound := Conversation.count_lt hok.pages
      have hboth : F64.ofNat l.length = F64.ofNat (Conversation.count c.pages) := by
        rw [← hok.total_norm, ← hsame, ← hnorm, htotal]
        rfl
      have heq : (F64.ofNat l.length).eq (F64.ofNat (Conversation.count c.pages)) = true := by
        rw [← hboth]
        exact (F64.ofNat_eq_iff hlt hlt).mpr rfl
      have hlen := (F64.ofNat_eq_iff hlt (by omega)).mp heq
      omega
  have hnonempty : 0 < l.length := by
    rw [hl]
    simp
  refine ⟨record_after hpeer, hpeer, ⟨l, message, rfl, rfl, hfin⟩, fun hnan x hx => ?_, fun _ => ?_⟩
  · have hmessage := hnan message (by simp)
    have hold : ∀ y ∈ l, d.metadata.oldestMessageTimestamp.le y.timestamp = true := by
      intro y hy
      rw [holdest, F64.norm_le]
      exact hm.oldest (fun z hz => hnan z (List.mem_append_left _ hz)) y hy
    have hfirst : (d.metadata.totalMessageCount.add (F64.ofNat 1)).eq (F64.ofNat 1) = false := by
      rw [hnorm, F64.ofNat_add_one hlt, Bool.eq_false_iff, Ne, F64.ofNat_eq_iff hroom (by decide)]
      omega
    rw [recorded_oldest, show d.isNew = false from hdn, Bool.false_or, hfirst, Bool.false_or]
    split_ifs with hbefore
    · rcases List.mem_append.mp hx with hin | hin
      · exact F64.le_trans (F64.le_of_lt hbefore) (hold x hin)
      · rw [List.mem_singleton.mp hin]
        exact F64.le_eq_true.mpr ⟨hmessage, hmessage, le_refl _⟩
    · rcases List.mem_append.mp hx with hin | hin
      · exact hold x hin
      · rw [List.mem_singleton.mp hin]
        refine F64.le_of_not_lt hmessage ?_ hbefore
        obtain ⟨y, hy⟩ := List.exists_mem_of_length_pos hnonempty
        exact (F64.le_eq_true.mp (hold y hy)).1
  · refine ⟨?_, by rwa [List.length_append, List.length_singleton]⟩
    show d.metadata.totalMessageCount.add (F64.ofNat 1) = F64.ofNat (l ++ [message]).length
    rw [hnorm, F64.ofNat_add_one hlt, List.length_append, List.length_singleton]

theorem Appends.marks (h : Appends own peer l found kv) :
    (found = none → l = [] ∧ kv = ∅) ∧ ∀ m, found = some m → Marks own peer l m kv := by
  induction h with
  | empty => exact ⟨fun _ => ⟨rfl, rfl⟩, fun m hm => by cases hm⟩
  | @stored l found kv kv' h message name now m hrun ih =>
    refine ⟨nofun, fun m' hm' => ?_⟩
    rw [Option.some.injEq] at hm'
    subst hm'
    obtain ⟨d, writes, hd, -, rfl, rfl⟩ := append_eq_some hrun
    cases found with
    | none =>
      obtain ⟨rfl, rfl⟩ := ih.1 rfl
      exact marks_first hd
    | some x => exact (ih.2 x rfl).next h.run hd
  | again _ message name now hrun ih =>
    rcases append_eq_ok hrun with ⟨-, rfl⟩ | ⟨d, writes, -, -, hsome, -⟩
    · exact ih
    · cases hsome

/-- After successful appends the newest mark is not before any message stored, and the oldest not after, exactly when the
message that was stored last is not before any of them. -/
theorem newest_bounds (h : Appends own peer l found kv) :
    (∀ n p, pageOf kv own peer n = .ok (some p) → ∀ x ∈ p.messages, ∃ m ∈ l, x.id = m.id ∧ x.timestamp = m.timestamp.norm) ∧
    ∀ m, found = some m → kv.at_ (.metadata own peer) = some (metadataBytes m) ∧
      ((∀ x ∈ l, x.timestamp.le m.newestMessageTimestamp = true ∧ m.oldestMessageTimestamp.le x.timestamp = true) ↔
        ∀ last, l.getLast? = some last → ∀ x ∈ l, x.timestamp.le last.timestamp = true) := by
  refine ⟨fun n p hp x hx => h.pages hp hx, fun m hm => ?_⟩
  have hmarks := h.marks.2 m hm
  obtain ⟨earlier, last, hl, hnewest, -⟩ := hmarks.newest
  have hlast : l.getLast? = some last := by rw [hl, List.getLast?_concat]
  refine ⟨hmarks.record, ?_, ?_⟩
  · intro hall last' hlast' x hx
    rw [hlast, Option.some.injEq] at hlast'
    rw [← hlast', ← hnewest]
    exact (hall x hx).1
  · intro hall x hx
    rw [hnewest]
    refine ⟨hall last hlast x hx, hmarks.oldest (fun y hy => ?_) x hx⟩
    exact (F64.le_eq_true.mp (hall last hlast y hy)).1

end

/-! ## Two messages -/

def secondMessage (timestamp : F64) : ConversationMessage := .text "m2" "again" 2 1 timestamp (F64.ofNat 0) .delivered

theorem sound_first : firstMessage.Sound := by
  have h1 := F64.isFinite_ofNat (n := 1) (by decide)
  refine ⟨by simp only [firstMessage, ConversationMessage.text, h1], by decide +kernel, fun list hlist => (nomatch hlist), fun list hlist => (nomatch hlist)⟩

theorem sound_second {t : F64} (ht : t.isFinite = true) : (secondMessage t).Sound := by
  have hindex : (secondMessage t).index.isFinite = true := by
    have h0 := F64.isFinite_ofNat (n := 0) (by decide)
    simp only [secondMessage, ConversationMessage.text, h0]
  exact ⟨ht, hindex, by rintro _ ⟨⟩, by rintro _ ⟨⟩⟩

def secondDraft : Draft where
  metadata := stamped 1 firstMetadata
  page := (firstDraft.placed 2 firstMessage).norm
  isNew := false

theorem timestamp_firstMessage : firstMessage.timestamp = F64.ofNat 1 := by simp only [firstMessage, ConversationMessage.text]

theorem newest_second (timestamp now : F64) :
    (secondDraft.recorded 1 (secondMessage timestamp) now).newestMessageTimestamp = timestamp := rfl

theorem messages_firstPage : secondDraft.page.messages = [firstMessage.norm] := by
  rw [secondDraft, ConversationPage.norm, messages_first]
  rfl

theorem not_full_second : ¬ secondDraft.Full := by
  rw [Draft.Full, messages_firstPage]
  decide

theorem exec_append_second (timestamp : F64) : ∃ kv r kv' placed,
    Kv.exec (append 1 2 firstMessage none (F64.ofNat 10)) ∅ = (.ok (some r), kv) ∧
    encodePage (secondDraft.placed 2 (secondMessage timestamp)) = .ok placed ∧
    kv' = (kv.insert (Place.messages 1 2 0).name placed).insert (Place.metadata 1 2).name
      (metadataBytes (secondDraft.recorded 1 (secondMessage timestamp) (F64.ofNat 11))) ∧
    Kv.exec (append 1 2 (secondMessage timestamp) none (F64.ofNat 11)) kv =
      (.ok (some (secondDraft.recorded 1 (secondMessage timestamp) (F64.ofNat 11))), kv') := by
  obtain ⟨kv, r, hadded, hmeta, hpage⟩ := exec_append_first
  have hdraft : draftOf kv 1 2 (secondMessage timestamp) none = .ok (some secondDraft) := by
    refine draftOf_eq_some.mpr ⟨some firstMetadata, hmeta, rfl, rfl, newestPage_eq_ok.mpr ⟨_, hpage, rfl⟩, ?_⟩
    refine storedIn_eq_false.mpr ⟨?_, fun h => absurd rfl h⟩
    rw [messages_firstPage, List.any_cons, List.any_nil, Bool.or_false]
    exact decide_eq_false (show firstMessage.norm.id ≠ (secondMessage timestamp).id from (by decide : "m1" ≠ "m2"))
  have hwritable : (secondDraft.placed 2 (secondMessage timestamp)).FiniteReactions := by
    intro m hm list hlist
    rw [Draft.placed, if_neg not_full_second, mem_place, messages_firstPage, List.mem_singleton] at hm
    rcases hm with rfl | rfl <;> cases hlist
  obtain ⟨placed, hb⟩ : ∃ placed, encodePage (secondDraft.placed 2 (secondMessage timestamp)) = .ok placed :=
    ⟨_, (encodePage_eq_ok _ _).mpr ⟨hwritable, rfl⟩⟩
  have hw : secondDraft.Writes 1 2 (secondMessage timestamp) [(.messages 1 2 0, placed)] := by
    rw [Draft.Writes, if_neg not_full_second]
    exact ⟨placed, hb, rfl⟩
  obtain ⟨r', rfl⟩ : ∃ r', r = some r' := by
    rcases append_eq_ok hadded with ⟨-, rfl⟩ | ⟨d, writes, -, -, rfl, -⟩
    · rw [metadataOf_absent (fun _ _ => rfl) ⟨rfl, fun _ => rfl⟩] at hmeta
      cases hmeta
    · exact ⟨_, rfl⟩
  exact ⟨kv, r', _, placed, hadded, hb, rfl, exec_append_of_draft hdraft hw (F64.ofNat 11)⟩

theorem newest_goes_back : ∃ m kv, Appends 1 2 [firstMessage, secondMessage (F64.ofNat 0)] (some m) kv ∧
    firstMessage.timestamp.le m.newestMessageTimestamp = false := by
  obtain ⟨kv, r, kv', -, hfirst, -, -, hsecond⟩ := exec_append_second (F64.ofNat 0)
  have hback : (F64.ofNat 1).le (F64.ofNat 0) = false := by decide +kernel
  refine ⟨_, kv', .stored (.stored .empty _ _ _ _ hfirst) _ _ _ _ hsecond, ?_⟩
  rw [newest_second, timestamp_firstMessage, hback]

/-- A message of time 5 after one of time 1. -/
theorem newest_bounds_second : ∃ m kv, Appends 1 2 [firstMessage, secondMessage (F64.ofNat 5)] (some m) kv ∧
    ∀ x ∈ [firstMessage, secondMessage (F64.ofNat 5)],
      x.timestamp.le m.newestMessageTimestamp = true ∧ m.oldestMessageTimestamp.le x.timestamp = true := by
  obtain ⟨kv, r, kv', -, hfirst, -, -, hsecond⟩ := exec_append_second (F64.ofNat 5)
  have hrun : Appends 1 2 [firstMessage, secondMessage (F64.ofNat 5)] _ kv' :=
    .stored (.stored .empty _ _ _ _ hfirst) _ _ _ _ hsecond
  refine ⟨_, kv', hrun, ((newest_bounds hrun).2 _ rfl).2.mpr fun last hlast x hx => ?_⟩
  obtain rfl : secondMessage (F64.ofNat 5) = last := Option.some.inj hlast
  have htime : ∀ t, (secondMessage t).timestamp = t := fun _ => rfl
  have h15 : (F64.ofNat 1).le (F64.ofNat 5) = true := by decide +kernel
  have h55 : (F64.ofNat 5).le (F64.ofNat 5) = true := by decide +kernel
  rw [List.mem_cons, List.mem_singleton] at hx
  rcases hx with rfl | rfl
  · rw [timestamp_firstMessage, htime, h15]
  · rw [htime, h55]

end CitadelAgent.Conversations
