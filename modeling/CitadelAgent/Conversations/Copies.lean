import CitadelAgent.Conversations.EngineCalls
import CitadelAgent.Conversations.Touched

/-!
# The stored copies of a message

* `Sited` : ids that differ on every page, and no page after the newest; `Sited.program` that every operation keeps it,
  whatever it answers;
* `copyOn` : the copy of a message on one page, which no operation confuses with another;
* `Reached.makes`, `Reached.comes_from` : what a call makes of a copy, and what it made a copy of;
* `copyOn_found` : a message that is changed where it was found.
-/

namespace CitadelAgent.Conversations
open Store StoreRules Result

/-! ## What an operation keeps of a message -/

variable {m m' : ConversationMessage} {n : UInt32} {f : Found} {kv' : Kv}

namespace StoreOp

theorem changed_keeps (op : StoreOp) (h : op.changed m = some m') :
    m'.id = m.id ∧ m'.senderCid = m.senderCid ∧ m'.recipientCid = m.recipientCid ∧ m'.timestamp = m.timestamp ∧
      m'.index = m.index := by
  unfold changed at h
  split at h
  · unfold statusSet at h
    split at h
    · cases h
      exact ⟨rfl, rfl, rfl, rfl, rfl⟩
    · cases h
  · simp only [applyPatch] at h
    split at h
    · cases h
      exact ⟨rfl, rfl, rfl, rfl, rfl⟩
    · cases h
  · obtain ⟨list, -, rfl⟩ := Option.map_eq_some_iff.mp h
    exact ⟨rfl, rfl, rfl, rfl, rfl⟩
  · split at h
    · cases h
      exact ⟨rfl, rfl, rfl, rfl, rfl⟩
    · cases h
  · cases h

theorem id_changed (op : StoreOp) (h : op.changed m = some m') : m'.id = m.id :=
  (op.changed_keeps h).1

theorem senderCid_changed (op : StoreOp) (h : op.changed m = some m') :
    m'.senderCid = m.senderCid := (op.changed_keeps h).2.1

end StoreOp

section Ids

variable {own peer : Cid} {kv : Kv} {op : StoreOp}

def ConversationPage.ids (p : ConversationPage) : List String := p.messages.map (·.id)

@[simp] theorem ConversationPage.ids_norm (p : ConversationPage) : p.norm.ids = p.ids := by
  simp [ConversationPage.ids, ConversationPage.norm, ConversationMessage.norm]

theorem ids_readNewest {wanted : Nat} (read messages : List ConversationMessage) :
    (readNewest peer wanted read messages).2.map (·.id) = messages.map (·.id) := by
  induction messages generalizing read with
  | nil => rfl
  | cons m older ih =>
    rw [readNewest]
    split_ifs
    · rfl
    · exact congrArg (m.id :: ·) (ih _)
    · exact congrArg (m.id :: ·) (ih _)

theorem ids_replaced (f : Found) (h : m.id = f.message.id) : (f.replaced m).ids = f.page.ids := by
  show (f.page.messages.set f.index m).map (·.id) = f.page.messages.map (·.id)
  rw [List.map_set, h]
  refine List.ext_getElem (by simp) fun i h₁ h₂ => ?_
  rw [List.getElem_set]
  split_ifs with hi
  · subst hi
    simp [Found.message]
  · rfl

theorem ids_place_perm (p : ConversationPage) (m : ConversationMessage) : (place p m).ids.Perm (m.id :: p.ids) := by
  have hperm := (List.mergeSort_perm (p.messages ++ [m]) earlier).map (·.id)
  rw [List.map_append, List.map_singleton] at hperm
  exact hperm.trans (List.perm_append_singleton _ _)

theorem StoreOp.Rewrites.keeps {p p' : ConversationPage} (h : op.Rewrites own peer kv p p') :
    p'.peerCid = p.peerCid ∧ p'.pageNumber = p.pageNumber ∧ (p.ids.Nodup → p'.ids.Nodup) := by
  cases h with
  | closed message name now => exact ⟨rfl, rfl, fun hn => hn⟩
  | placed message name now _ hroom hnew =>
    refine ⟨rfl, rfl, fun hn => (ids_place_perm p message).nodup_iff.mpr (List.nodup_cons.mpr ⟨fun hmem => ?_, hn⟩)⟩
    obtain ⟨m, hm, hid⟩ := List.mem_map.mp hmem
    exact List.any_eq_false.mp hnew m hm (by simpa [hasId] using hid)
  | changed _ id f m hid hf hm => exact ⟨rfl, rfl, fun hn => (ids_replaced f (op.id_changed hm)).symm ▸ hn⟩
  | taken _ id f hid hf ht => exact ⟨rfl, rfl, fun hn => hn.sublist ((List.eraseIdx_sublist _ _).map _)⟩
  | marked now wanted read _ =>
    have hids : (p.marked peer wanted read).ids = p.ids := by
      show (readNewest peer wanted read p.messages.reverse).2.reverse.map (·.id) = p.messages.map (·.id)
      rw [List.map_reverse, ids_readNewest, List.map_reverse, List.reverse_reverse]
    exact ⟨rfl, rfl, fun hn => hids.symm ▸ hn⟩
  | pruned cutoff now _ => exact ⟨rfl, rfl, fun hn => hn.sublist (List.filter_sublist.map _)⟩

end Ids

/-! ## Every record in its place -/

/-- The records of a conversation, whatever was answered on the way to them: in their places, with ids that differ on a
page, no page after the newest, and none without metadata. -/
structure Sited (kv : Kv) (own peer : Cid) : Prop where
  placed : Placed kv own peer
  ids : ∀ n p, pageOf kv own peer n = .ok (some p) → p.ids.Nodup
  newest : ∀ m, metadataOf kv own peer = .ok (some m) → ∀ n, m.latestPage < n → pageOf kv own peer n = .ok none
  unstarted : metadataOf kv own peer = .ok none → ∀ n, pageOf kv own peer n = .ok none

section Siting

variable {own peer : Cid} {kv kv' : Kv} {op : StoreOp}

theorem Sited.empty (own peer : Cid) : Sited ∅ own peer := by
  have hmeta : metadataOf ∅ own peer = .ok none := metadataOf_absent (fun _ _ => rfl) ⟨rfl, fun _ => rfl⟩
  have hpage : ∀ n, pageOf ∅ own peer n = .ok none := fun n => by simp [pageOf, pageAtPlace, Kv.at_, recordRead]
  refine ⟨⟨fun m hm => ?_, fun n p hp => ?_⟩, fun n p hp => ?_, fun m hm => ?_, fun _ => hpage⟩
  · rw [hmeta] at hm
    cases hm
  · rw [hpage] at hp
    cases hp
  · rw [hpage] at hp
    cases hp
  · rw [hmeta] at hm
    cases hm

theorem Sited.after_draft (h : Sited kv own peer) {d : Draft} {message : ConversationMessage} {name : Option String}
    (hd : draftOf kv own peer message name = .ok (some d)) (hn : d.metadata.latestPage < n) :
    pageOf kv own peer n = .ok none := by
  obtain ⟨existing, hmeta, -⟩ := draftOf_eq_some.mp hd
  cases existing with
  | none => exact h.unstarted hmeta n
  | some m =>
    rw [Draft.latestPage_eq hd hmeta] at hn
    exact h.newest m hmeta n hn

theorem Placed.touched (h : Placed kv own peer) (ht : Touched own peer op kv kv') : Placed kv' own peer where
  metadata := by
    intro m hm
    have hafter := ht.metadata
    rw [hm] at hafter
    rcases hafter with hsame | ⟨m₀, m', -, hpeer, -, -, hw⟩ | ⟨message, name, now, d, -, hd, hw⟩ | ⟨b, -, hgone⟩
    · exact h.metadata m hsame.symm
    · rw [Option.some.inj hw.eq_some]
      exact hpeer
    · rw [Option.some.inj hw.eq_some]
      exact (Draft.page_eq h hd).1
    · cases hgone
  page := by
    intro n p hp
    have hafter := ht.page n
    rw [hp] at hafter
    rcases hafter with hsame | ⟨q, p', hq, hr, hw⟩ | ⟨message, name, now, -, -, hw⟩ | ⟨b, -, hgone⟩
    · exact h.page n p hsame.symm
    · rw [Option.some.inj hw.eq_some]
      obtain ⟨hpeer, hnumber, -⟩ := hr.keeps
      obtain ⟨hpeer', hnumber'⟩ := h.page n q hq
      exact ⟨hpeer.trans hpeer', hnumber.trans hnumber'⟩
    · rw [Option.some.inj hw.eq_some]
      exact ⟨rfl, rfl⟩
    · cases hgone

theorem Sited.ids_touched (h : Sited kv own peer) (ht : Touched own peer op kv kv') {p : ConversationPage}
    (hp : pageOf kv' own peer n = .ok (some p)) : p.ids.Nodup := by
  have hafter := ht.page n
  rw [hp] at hafter
  rcases hafter with hsame | ⟨q, p', hq, hr, hw⟩ | ⟨message, name, now, -, -, hw⟩ | ⟨b, -, hgone⟩
  · exact h.ids n p hsame.symm
  · rw [Option.some.inj hw.eq_some, ConversationPage.ids_norm]
    exact hr.keeps.2.2 (h.ids n q hq)
  · rw [Option.some.inj hw.eq_some, ConversationPage.ids_norm, (ids_place_perm _ message).nodup_iff]
    exact List.nodup_cons.mpr ⟨List.not_mem_nil, .nil⟩
  · cases hgone

theorem Touched.stays_none (ht : Touched own peer op kv kv') (hop : ∀ message name now, op ≠ .append message name now)
    (hn : pageOf kv own peer n = .ok none) : pageOf kv' own peer n = .ok none := by
  rcases ht.page n with hsame | ⟨q, p', hq, -, -⟩ | ⟨message, name, now, happend, -, -⟩ | ⟨b, -, hgone⟩
  · exact hsame.trans hn
  · rw [hn] at hq
    cases hq
  · exact absurd happend (hop message name now)
  · exact hgone

theorem Sited.append (h : Sited kv own peer) (message : ConversationMessage) (name : Option String) (now : F64) :
    Sited (Kv.exec (Store.append own peer message name now) kv).2 own peer := by
  have ht := append_touched h.placed message name now
  refine ⟨h.placed.touched ht, fun n p hp => h.ids_touched ht hp, ?_, ?_⟩
  · rcases append_outcome message name now kv with hkv | ⟨d, b, hd, hf, hb, hkv⟩ | ⟨d, writes, hd, hw, hkv⟩
    · rw [hkv]
      exact h.newest
    · obtain ⟨-, hpeer, hnumber, -⟩ := Draft.page_eq h.placed hd
      rw [hkv, hpeer, hnumber]
      intro m hm n hn
      rw [metadataOf_insert_messages] at hm
      rw [pageOf_insert_messages, if_neg, h.newest m hm n hn]
      rintro ⟨-, rfl⟩
      rw [Draft.latestPage_eq hd hm] at hn
      exact absurd hn (UInt32.lt_irrefl _)
    · obtain ⟨hmeta, hpeer, hnumber, -⟩ := Draft.page_eq h.placed hd
      rw [hkv, insertAll_concat, Draft.pointer, hmeta]
      intro m hm n hn
      rw [metadataOf_insert_metadata, if_pos rfl] at hm
      have hlatest : m.latestPage = d.number := by
        rw [Option.some.inj ((recordRead_metadataBytes _ _).mp hm).2]
        rfl
      rw [hlatest] at hn
      rw [pageOf_insert_metadata]
      unfold Draft.Writes at hw
      split_ifs at hw with hf
      · obtain ⟨hroom, closed, placed, -, -, rfl⟩ := hw
        have hnext := UInt32.lt_iff_toNat_lt.mp hn
        have hnumber' : d.number = d.metadata.latestPage + 1 := if_pos hf
        rw [hnumber', toNat_add_one hroom] at hnext
        have hlt : d.metadata.latestPage < n := UInt32.lt_iff_toNat_lt.mpr (by omega)
        have hopened : ¬ (peer = peer ∧ n = d.number) := fun hk => UInt32.lt_irrefl _ (hk.2 ▸ hn)
        have hclosed : ¬ (peer = d.page.peerCid ∧ n = d.page.pageNumber) :=
          fun hk => UInt32.lt_irrefl _ (hnumber ▸ hk.2 ▸ hlt)
        rw [insertAll, insertAll, insertAll, pageOf_insert_messages, if_neg hopened, pageOf_insert_messages, if_neg hclosed,
          h.after_draft hd hlt]
      · obtain ⟨placed, -, rfl⟩ := hw
        rw [show d.number = d.metadata.latestPage from if_neg hf] at hn
        have hplaced : ¬ (peer = d.page.peerCid ∧ n = d.page.pageNumber) :=
          fun hk => UInt32.lt_irrefl _ (hnumber ▸ hk.2 ▸ hn)
        rw [insertAll, insertAll, pageOf_insert_messages, if_neg hplaced, h.after_draft hd hn]
  · intro hnone n
    rcases append_outcome message name now kv with hkv | ⟨d, b, hd, hf, hb, hkv⟩ | ⟨d, writes, hd, hw, hkv⟩
    · rw [hkv] at hnone ⊢
      exact h.unstarted hnone n
    · rw [hkv, metadataOf_insert_messages] at hnone
      have hpage := pageOf_of_full hd hf
      rw [h.unstarted hnone] at hpage
      cases hpage
    · rw [hkv, insertAll_concat, Draft.pointer, (Draft.page_eq h.placed hd).1, metadataOf_insert_metadata, if_pos rfl] at hnone
      cases ((recordRead_metadataBytes _ _).mp hnone).2

theorem Sited.delete (h : Sited kv own peer) (hl : NoLegacy kv) (b : Bool) :
    Sited (Kv.exec (Store.delete own peer b) kv).2 own peer := by
  have ht := @delete_touched kv own peer hl b
  refine ⟨h.placed.touched ht, fun n p hp => h.ids_touched ht hp, ?_, ?_⟩
  · intro m hm n hn
    refine ht.stays_none (by simp) ?_
    have hafter := ht.metadata
    rw [hm] at hafter
    rcases hafter with hsame | ⟨_, _, hold, -, hlatest, -, hw⟩ | ⟨_, _, _, _, hop, -, -⟩ | ⟨_, -, hgone⟩
    · exact h.newest m hsame.symm n hn
    · rw [Option.some.inj hw.eq_some] at hn
      exact h.newest _ hold n (hlatest ▸ hn)
    · cases hop
    · cases hgone
  · intro hnone n
    rcases @delete_outcome kv own peer hl b with hkv | ⟨m, hm, hlookup⟩
    · rw [hkv] at hnone ⊢
      exact h.unstarted hnone n
    · rw [(reads_of_delete hl hlookup).2 n]
      split_ifs with hn
      · rfl
      · exact h.newest m hm n (UInt32.not_le.mp hn)

theorem Sited.program (h : Sited kv own peer) (hl : NoLegacy kv) (op : StoreOp) :
    Sited (Kv.exec (op.program own peer) kv).2 own peer := by
  have ht := StoreOp.touched h.placed op fun _ _ => hl
  by_cases hadd : ∃ message name now, op = .append message name now
  · obtain ⟨message, name, now, rfl⟩ := hadd
    rw [StoreOp.program, StoreOp.snd_program]
    exact h.append message name now
  by_cases hdel : ∃ b, op = .delete b
  · obtain ⟨b, rfl⟩ := hdel
    rw [StoreOp.program, StoreOp.snd_program]
    exact h.delete hl b
  have hop : ∀ message name now, op ≠ .append message name now := fun message name now heq => hadd ⟨message, name, now, heq⟩
  refine ⟨h.placed.touched ht, fun n p hp => h.ids_touched ht hp, fun m hm n hn => ht.stays_none hop ?_, fun hnone n => ht.stays_none hop ?_⟩
  · have hafter := ht.metadata
    rw [hm] at hafter
    rcases hafter with hsame | ⟨_, _, hold, -, hlatest, -, hw⟩ | ⟨message, name, now, _, heq, -, -⟩ | ⟨b, heq, -⟩
    · exact h.newest m hsame.symm n hn
    · rw [Option.some.inj hw.eq_some] at hn
      exact h.newest _ hold n (hlatest ▸ hn)
    · exact absurd heq (hop message name now)
    · exact absurd ⟨b, heq⟩ hdel
  · have hafter := ht.metadata
    rw [hnone] at hafter
    rcases hafter with hsame | ⟨_, _, -, -, -, -, hw⟩ | ⟨message, name, now, _, heq, -, -⟩ | ⟨b, heq, -⟩
    · exact h.unstarted hsame.symm n
    · cases hw.eq_some
    · exact absurd heq (hop message name now)
    · exact absurd ⟨b, heq⟩ hdel

theorem Sited.frame {own' peer' : Cid} (h : Sited kv own peer) (hf : Frame own' peer' kv kv')
    (hne : ¬ (own = own' ∧ peer = peer')) : Sited kv' own peer := by
  have hpage := hf.pageOf hne
  have hmeta := hf.metadataOf hne
  refine ⟨⟨fun m hm => ?_, fun n p hp => ?_⟩, fun n p hp => ?_, fun m hm n hn => ?_, fun hnone n => ?_⟩
  · exact h.placed.metadata m (hmeta ▸ hm)
  · exact h.placed.page n p (hpage n ▸ hp)
  · exact h.ids n p (hpage n ▸ hp)
  · exact (hpage n).trans (h.newest m (hmeta ▸ hm) n hn)
  · exact (hpage n).trans (h.unstarted (hmeta ▸ hnone) n)

end Siting

/-! ## Copies -/

/-- What becomes of a message that stays on its page: nothing, but for what a record does to its numbers, or what the
operation does to the message it looks for, or to one that it marks as read. -/
inductive StoreOp.Makes (own peer : Cid) (kv : Kv) (op : StoreOp) (m m' : ConversationMessage) : Prop
  | same (h : m' = m ∨ m' = m.norm)
  | changed (id : String) (f : Found) (c : ConversationMessage) (hid : op.target = some id)
    (hf : foundIn kv own peer id = .ok (some f)) (hm : f.message = m) (hc : op.changed m = some c) (h : m' = c.norm)
  | read (now : F64) (hop : op = .markRead now) (hpeer : m.senderCid = peer) (hstatus : m.status = .delivered)
    (h : m' = { m with status := .read }.norm)

section Origins

variable {own peer : Cid} {kv kv' : Kv} {op : StoreOp}

theorem mem_readNewest {wanted : Nat} {read messages : List ConversationMessage}
    (h : m' ∈ (readNewest peer wanted read messages).2) : ∃ m ∈ messages, m' = m ∨
      (m.senderCid = peer ∧ m.status = .delivered ∧ m' = { m with status := .read }) := by
  induction messages generalizing read with
  | nil => cases h
  | cons m older ih =>
    have hrest : ∀ read, m' ∈ (readNewest peer wanted read older).2 → ∃ x ∈ m :: older, m' = x ∨
        (x.senderCid = peer ∧ x.status = .delivered ∧ m' = { x with status := .read }) := by
      intro read hin
      obtain ⟨x, hx, hmade⟩ := ih hin
      exact ⟨x, List.mem_cons_of_mem _ hx, hmade⟩
    rw [readNewest] at h
    split_ifs at h with hdone hm
    · exact ⟨m', h, .inl rfl⟩
    · rcases List.mem_cons.mp h with rfl | hin
      · exact ⟨m, List.mem_cons_self, .inr ⟨hm.1, hm.2, rfl⟩⟩
      · exact hrest _ hin
    · rcases List.mem_cons.mp h with rfl | hin
      · exact ⟨m', List.mem_cons_self, .inl rfl⟩
      · exact hrest _ hin

theorem StoreOp.Rewrites.origin {p p' : ConversationPage} (h : op.Rewrites own peer kv p p') {x : ConversationMessage}
    (hx : x ∈ p'.messages) : (∃ m ∈ p.messages, op.Makes own peer kv m x.norm) ∨
      ∃ message name now, op = .append message name now ∧ x = message ∧ message.id ∉ p.ids := by
  have hkept : x ∈ p.messages → ∃ m ∈ p.messages, op.Makes own peer kv m x.norm :=
    fun hin => ⟨x, hin, .same (.inr rfl)⟩
  cases h with
  | closed message name now => exact .inl (hkept hx)
  | placed message name now _ hroom hnew =>
    rcases mem_place.mp hx with hold | rfl
    · exact .inl (hkept hold)
    · refine .inr ⟨x, name, now, rfl, rfl, fun hmem => ?_⟩
      obtain ⟨m, hm, hid⟩ := List.mem_map.mp hmem
      exact List.any_eq_false.mp hnew m hm (by simpa [hasId] using hid)
  | changed _ id f m hid hf hm =>
    rcases List.mem_or_eq_of_mem_set hx with hold | rfl
    · exact .inl (hkept hold)
    · exact .inl ⟨f.message, List.get_mem _ _, .changed id f x hid hf rfl hm rfl⟩
  | taken _ id f hid hf ht => exact .inl (hkept (List.mem_of_mem_eraseIdx hx))
  | marked now wanted read _ =>
    rw [ConversationPage.marked, List.mem_reverse] at hx
    obtain ⟨m, hm, rfl | ⟨hpeer, hstatus, rfl⟩⟩ := mem_readNewest hx
    · exact .inl ⟨x, List.mem_reverse.mp hm, .same (.inr rfl)⟩
    · exact .inl ⟨m, List.mem_reverse.mp hm, .read now rfl hpeer hstatus rfl⟩
  | pruned cutoff now _ => exact .inl (hkept (List.mem_of_mem_filter hx))

theorem Touched.origin (hs : Sited kv own peer) (ht : Touched own peer op kv kv') {p' : ConversationPage}
    (hp' : pageOf kv' own peer n = .ok (some p')) (hm' : m' ∈ p'.messages) :
    (∃ p, pageOf kv own peer n = .ok (some p) ∧ ∃ m ∈ p.messages, op.Makes own peer kv m m') ∨
      ∃ message name now, op = .append message name now ∧ m' = message.norm ∧
        ∀ p, pageOf kv own peer n = .ok (some p) → message.id ∉ p.ids := by
  have hafter := ht.page n
  rw [hp'] at hafter
  rcases hafter with hsame | ⟨p, q, hp, hr, hw⟩ | ⟨message, name, now, rfl, hnew, hw⟩ | ⟨b, -, hgone⟩
  · exact .inl ⟨p', hsame.symm, m', hm', .same (.inl rfl)⟩
  · rw [Option.some.inj hw.eq_some] at hm'
    obtain ⟨x, hx, rfl⟩ := List.mem_map.mp hm'
    rcases hr.origin hx with hold | ⟨message, name, now, hop, rfl, hid⟩
    · exact .inl ⟨p, hp, hold⟩
    · refine .inr ⟨x, name, now, hop, rfl, fun p₀ hp₀ => ?_⟩
      rw [hp, Except.ok.injEq, Option.some.injEq] at hp₀
      exact hp₀ ▸ hid
  · rw [Option.some.inj hw.eq_some] at hm'
    obtain ⟨x, hx, rfl⟩ := List.mem_map.mp hm'
    obtain rfl : x = message := by
      rcases mem_place.mp hx with hold | rfl
      · cases hold
      · rfl
    have hnone : pageOf kv own peer n = .ok none := by
      rcases hnew with hnone | ⟨found, hfound, hbeyond⟩
      · exact hnone
      · cases found with
        | none => exact hs.unstarted hfound n
        | some m => exact hs.newest m hfound n (hbeyond m rfl)
    refine .inr ⟨x, name, now, rfl, rfl, fun p hp => ?_⟩
    rw [hnone] at hp
    cases hp
  · cases hgone

theorem StoreOp.Makes.id_eq (h : op.Makes own peer kv m m') : m'.id = m.id := by
  rcases h with (rfl | rfl) | ⟨id, f, c, -, -, -, hc, rfl⟩ | ⟨now, -, -, -, rfl⟩
  · rfl
  · rfl
  · show c.id = m.id
    exact op.id_changed hc
  · rfl

theorem StoreOp.Makes.senderCid_eq (h : op.Makes own peer kv m m') :
    m'.senderCid = m.senderCid := by
  rcases h with (rfl | rfl) | ⟨id, f, c, -, -, -, hc, rfl⟩ | ⟨now, -, -, -, rfl⟩
  · rfl
  · rfl
  · show c.senderCid = m.senderCid
    exact op.senderCid_changed hc
  · rfl

theorem StoreOp.Makes.recipientCid_eq (h : op.Makes own peer kv m m') :
    m'.recipientCid = m.recipientCid := by
  rcases h with (rfl | rfl) | ⟨id, f, c, -, -, -, hc, rfl⟩ | ⟨now, -, -, -, rfl⟩
  · rfl
  · rfl
  · show c.recipientCid = m.recipientCid
    exact (op.changed_keeps hc).2.2.1
  · rfl

/-- The copy of a message on page `n`, if it is there and can be read. -/
def copyOn (kv : Kv) (own peer : Cid) (n : UInt32) (id : String) : Option ConversationMessage :=
  match pageOf kv own peer n with
  | .ok (some p) => p.messages.find? (hasId id)
  | _ => none

theorem copyOn_eq_some (hs : Sited kv own peer) {id : String} :
    copyOn kv own peer n id = some m ↔ ∃ p, pageOf kv own peer n = .ok (some p) ∧ m ∈ p.messages ∧ m.id = id := by
  unfold copyOn
  constructor
  · intro h
    split at h
    · next p hp =>
      exact ⟨p, hp, List.mem_of_find?_eq_some h, by simpa [hasId] using List.find?_some h⟩
    · cases h
  · rintro ⟨p, hp, hm, rfl⟩
    simp only [hp]
    obtain ⟨x, hx⟩ : ∃ x, p.messages.find? (hasId m.id) = some x := by
      refine Option.ne_none_iff_exists'.mp fun hnone => ?_
      have hmiss := List.find?_eq_none.mp hnone m hm
      simp [hasId] at hmiss
    have hid : x.id = m.id := by simpa [hasId] using List.find?_some hx
    rw [hx, List.inj_on_of_nodup_map (hs.ids n p hp) (List.mem_of_find?_eq_some hx) hm hid]

theorem Touched.copy (hs : Sited kv own peer) (hs' : Sited kv' own peer) (ht : Touched own peer op kv kv') {id : String}
    (h : copyOn kv own peer n id = some m) (h' : copyOn kv' own peer n id = some m') : op.Makes own peer kv m m' := by
  obtain ⟨p, hp, hm, rfl⟩ := (copyOn_eq_some hs).mp h
  obtain ⟨p', hp', hm', hid⟩ := (copyOn_eq_some hs').mp h'
  rcases ht.origin hs hp' hm' with ⟨q, hq, x, hx, hmade⟩ | ⟨message, name, now, -, rfl, hnew⟩
  · rw [hp, Except.ok.injEq, Option.some.injEq] at hq
    subst hq
    obtain rfl := List.inj_on_of_nodup_map (hs.ids n p hp) hx hm (hmade.id_eq.symm.trans hid)
    exact hmade
  · refine absurd ?_ (hnew p hp)
    rw [show message.id = m.id from hid]
    exact List.mem_map_of_mem hm

end Origins

/-! ## Every call -/

/-- The buckets that calls on the store reach from an empty one: of any accounts, on any conversations, whatever they
answer. -/
def Reached (kv : Kv) : Prop := Relation.ReflTransGen (fun kv kv' => ∃ cid, Engine.Call cid kv kv') ∅ kv

theorem Reached.sited {kv : Kv} (h : Reached kv) : NoLegacy kv ∧ ∀ own peer, Sited kv own peer := by
  induction h with
  | refl => exact ⟨fun _ _ => rfl, Sited.empty⟩
  | tail _ hstep ih =>
    obtain ⟨hl, hs⟩ := ih
    obtain ⟨own, peer, op, rfl⟩ := hstep
    have hf := (StoreOp.touched (hs own peer).placed op fun _ _ => hl).apart.frame
    refine ⟨hl.frame hf, fun own' peer' => ?_⟩
    by_cases hsame : own' = own ∧ peer' = peer
    · rw [hsame.1, hsame.2]
      exact (hs own peer).program hl op
    · exact (hs own' peer').frame hf hsame

section Calls

variable {own peer own' peer' : Cid} {kv : Kv} {n : UInt32} {id : String}

theorem Reached.call {cid : Cid} (h : Reached kv) (hcall : Engine.Call cid kv kv') : Reached kv' :=
  .tail h ⟨cid, hcall⟩

theorem Reached.program (h : Reached kv) (own peer : Cid) (op : StoreOp) :
    Reached (Kv.exec (op.program own peer) kv).2 := h.call ⟨peer, op, rfl⟩

theorem Reached.touched (h : Reached kv) (own peer : Cid) (op : StoreOp) :
    Touched own peer op kv (Kv.exec (op.program own peer) kv).2 :=
  StoreOp.touched (h.sited.2 own peer).placed op fun _ _ => h.sited.1

theorem Reached.copyOn_apart (h : Reached kv) (op : StoreOp) (hne : ¬ (own = own' ∧ peer = peer')) :
    copyOn (Kv.exec (op.program own' peer') kv).2 own peer n id = copyOn kv own peer n id := by
  rw [copyOn, copyOn, (h.touched own' peer' op).apart.frame.pageOf hne n]

theorem Reached.makes (h : Reached kv) (op : StoreOp) (hm : copyOn kv own peer n id = some m)
    (hm' : copyOn (Kv.exec (op.program own' peer') kv).2 own peer n id = some m') :
    m' = m ∨ (own' = own ∧ peer' = peer ∧ op.Makes own peer kv m m') := by
  by_cases hsame : own = own' ∧ peer = peer'
  · obtain ⟨rfl, rfl⟩ := hsame
    exact .inr ⟨rfl, rfl, Touched.copy (h.sited.2 own peer) ((h.program own peer op).sited.2 own peer)
      (h.touched own peer op) hm hm'⟩
  · rw [h.copyOn_apart op hsame, hm, Option.some.injEq] at hm'
    exact .inl hm'.symm

theorem Reached.comes_from (h : Reached kv) (op : StoreOp)
    (hm' : copyOn (Kv.exec (op.program own' peer') kv).2 own peer n id = some m') :
    (∃ m, copyOn kv own peer n id = some m) ∨
      (own' = own ∧ peer' = peer ∧ ∃ message name now, op = .append message name now ∧ m' = message.norm) := by
  by_cases hsame : own = own' ∧ peer = peer'
  · obtain ⟨rfl, rfl⟩ := hsame
    obtain ⟨p', hp', hin, hid⟩ := (copyOn_eq_some ((h.program own peer op).sited.2 own peer)).mp hm'
    rcases (h.touched own peer op).origin (h.sited.2 own peer) hp' hin with
      ⟨p, hp, m, hm, hmade⟩ | ⟨message, name, now, hop, hmessage, -⟩
    · exact .inl ⟨m, (copyOn_eq_some (h.sited.2 own peer)).mpr ⟨p, hp, hm, hmade.id_eq.symm.trans hid⟩⟩
    · exact .inr ⟨rfl, rfl, message, name, now, hop, hmessage⟩
  · rw [h.copyOn_apart op hsame] at hm'
    exact .inl ⟨m', hm'⟩

/-! ## Changed where it was found -/

theorem copyOn_found (hs : Sited kv own peer) (hf : foundIn kv own peer id = .ok (some f)) :
    copyOn kv own peer f.page.pageNumber id = some f.message :=
  (copyOn_eq_some hs).mpr ⟨f.page, (hs.placed.found hf).1, List.get_mem _ _, (foundIn_eq_some hf).2.1⟩

theorem exec_update_refused {change : ConversationMessage → Option ConversationMessage}
    (hf : foundIn kv own peer id = .ok (some f)) (hc : change f.message = none) :
    Kv.exec (update own peer id change) kv = (.ok none, kv) := by
  rw [update, Kv.exec_bind, exec_find, hf]
  simp only [Prog.resume_ok, hc, Kv.exec_pure]

theorem exec_update_made {change : ConversationMessage → Option ConversationMessage} {c : ConversationMessage}
    (hs : Placed kv own peer) (hf : foundIn kv own peer id = .ok (some f)) (hc : change f.message = some c)
    (hsound : c.Sound) : ∃ kv', Kv.exec (update own peer id change) kv = (.ok (some c), kv') ∧
      metadataOf kv' own peer = metadataOf kv own peer ∧
      pageOf kv' own peer f.page.pageNumber = .ok (some (f.replaced c).norm) ∧
      ∀ n, n ≠ f.page.pageNumber → pageOf kv' own peer n = pageOf kv own peer n := by
  have hpage := Found.sound_replaced (sound_of_found hf).1 hsound
  obtain ⟨b, hb⟩ : ∃ b, encodePage (f.replaced c) = .ok b := ⟨_, hpage.encodePage⟩
  refine ⟨kv.insert (Place.messages own peer f.page.pageNumber).name b, ?_, metadataOf_insert_messages .., ?_, fun n hn => ?_⟩
  · rw [update, Kv.exec_bind, exec_find, hf]
    simp only [Prog.resume_ok, hc, Kv.exec_bind, exec_savePage, hb, Kv.exec_pure]
    rw [show (f.replaced c).peerCid = peer from (hs.found hf).2.1]
    rfl
  · rw [pageOf_saved hb hpage.readable, if_pos rfl]
  · rw [pageOf_saved hb hpage.readable, if_neg hn]

theorem exec_remove_made {now : F64} (hs : Placed kv own peer) (hf : foundIn kv own peer id = .ok (some f))
    (hnow : now.isFinite = true) : ∃ kv', Kv.exec (remove own peer id now) kv = (.ok true, kv') ∧
      metadataOf kv' own peer = .ok (some ({ f.metadata with
        totalMessageCount := (f.metadata.totalMessageCount.sub (F64.ofNat 1)).max (F64.ofNat 0)
        lastUpdated := now } : ConversationMetadata).norm) ∧
      pageOf kv' own peer f.page.pageNumber = .ok (some f.removed.norm) ∧
      ∀ n, n ≠ f.page.pageNumber → pageOf kv' own peer n = pageOf kv own peer n := by
  have hpage := Found.sound_removed (sound_of_found hf).1
  obtain ⟨b, hb⟩ : ∃ b, encodePage f.removed = .ok b := ⟨_, hpage.encodePage⟩
  have hreadable := readable_removed (readable_of_metadataOf (foundIn_eq_some hf).1) hnow
  obtain ⟨-, hpeer, hmeta⟩ := hs.found hf
  refine ⟨(kv.insert (Place.messages own peer f.page.pageNumber).name b).insert (Place.metadata own peer).name
    (metadataBytes { f.metadata with
      totalMessageCount := (f.metadata.totalMessageCount.sub (F64.ofNat 1)).max (F64.ofNat 0)
      lastUpdated := now }), ?_, ?_, ?_, fun n hn => ?_⟩
  · rw [remove, Kv.exec_bind, exec_find, hf]
    simp only [Prog.resume_ok, Kv.exec_bind, exec_savePage, hb, exec_saveMetadata, Kv.exec_pure]
    rw [show f.removed.peerCid = peer from hpeer, ← hmeta]
    rfl
  · rw [metadataOf_insert_metadata, if_pos rfl, (recordRead_metadataBytes _ _).mpr ⟨hreadable, rfl⟩]
  · rw [pageOf_insert_metadata, pageOf_saved hb hpage.readable, if_pos rfl]
  · rw [pageOf_insert_metadata, pageOf_saved hb hpage.readable, if_neg hn]

theorem Store.Found.mem_replaced (f : Found) (c : ConversationMessage) : c ∈ (f.replaced c).messages :=
  List.mem_iff_getElem.mpr ⟨f.index, by simp [Found.replaced], by simp [Found.replaced]⟩

theorem foundOn_replaced (hs : Placed kv own peer) {metadata : ConversationMetadata} {numbers : List UInt32}
    (hf : foundOn kv own peer id metadata numbers = .ok (some f)) {p : ConversationPage} {index : Fin p.messages.length}
    (hindex : p.messages.findFinIdx? (hasId id) = some index) (hpage : pageOf kv' own peer f.page.pageNumber = .ok (some p))
    (hother : ∀ n, n ≠ f.page.pageNumber → pageOf kv' own peer n = pageOf kv own peer n) :
    foundOn kv' own peer id metadata numbers = .ok (some ⟨metadata, p, index⟩) := by
  obtain ⟨-, hid, n, -, hn⟩ := foundOn_eq_some hf
  obtain rfl := (hs.page n f.page hn).2
  have hhas : f.page.messages.findFinIdx? (hasId id) ≠ none := by
    intro hnone
    have hmiss := List.findFinIdx?_eq_none_iff.mp hnone f.message (List.get_mem _ _)
    simp [hasId, hid] at hmiss
  induction numbers with
  | nil => cases hf
  | cons number rest ih =>
    rw [foundOn] at hf ⊢
    by_cases hnumber : number = f.page.pageNumber
    · subst hnumber
      simp only [hpage, hindex]
    · rw [hother number hnumber]
      split at hf
      · cases hf
      · exact ih hf
      · next q hq =>
        split at hf
        · next index' hindex' =>
          cases hf
          exact absurd (hs.page number q hq).2.symm hnumber
        · exact ih hf

theorem foundIn_made (hs : Sited kv own peer) (hs' : Sited kv' own peer) {c : ConversationMessage}
    (hf : foundIn kv own peer id = .ok (some f)) (hid : c.id = id) (hmeta : metadataOf kv' own peer = metadataOf kv own peer)
    (hpage : pageOf kv' own peer f.page.pageNumber = .ok (some (f.replaced c).norm))
    (hother : ∀ n, n ≠ f.page.pageNumber → pageOf kv' own peer n = pageOf kv own peer n) :
    ∃ f', foundIn kv' own peer id = .ok (some f') ∧ f'.message = c.norm := by
  have hmem : c.norm ∈ (f.replaced c).norm.messages := List.mem_map_of_mem (f.mem_replaced c)
  obtain ⟨index, hindex⟩ : ∃ index, (f.replaced c).norm.messages.findFinIdx? (hasId id) = some index := by
    refine Option.ne_none_iff_exists'.mp fun hnone => ?_
    have hmiss := List.findFinIdx?_eq_none_iff.mp hnone c.norm hmem
    simp [hasId, ConversationMessage.norm, hid] at hmiss
  have hfound : foundIn kv' own peer id = .ok (some ⟨f.metadata, (f.replaced c).norm, index⟩) := by
    have hm := (foundIn_eq_some hf).1
    rw [foundIn, hm] at hf
    rw [foundIn, hmeta, hm]
    exact foundOn_replaced hs.placed hf hindex hpage hother
  refine ⟨_, hfound, ?_⟩
  have hcopy := copyOn_found hs' hfound
  rw [show copyOn kv' own peer (f.replaced c).norm.pageNumber id = some c.norm from
    (copyOn_eq_some hs').mpr ⟨_, hpage, hmem, hid⟩, Option.some.injEq] at hcopy
  exact hcopy.symm

/-! ## Whole operations -/

/-- A copy that is there before an operation of the engine and after it was there all the while, and has become what the
operation's calls make of it, one after another. -/
theorem Engine.Operation.copies {out : Outside} {cid p : Cid} {o : Operation} {I : Kv → Prop}
    {R : ConversationMessage → ConversationMessage → Prop} (hreached : ∀ kv, I kv → Reached kv)
    (hkeep : ∀ kv q op, I kv → o.Calls out cid p q op → I (Kv.exec (op.program cid q) kv).2)
    (hmade : ∀ kv q op m m', I kv → o.Calls out cid p q op → copyOn kv own peer n id = some m → copyOn (Kv.exec (op.program cid q) kv).2 own peer n id = some m' → R m m')
    {k : Nat} {s : Shared} (hs : I s.kv) (hm : copyOn s.kv own peer n id = some m)
    (hm' : copyOn (exec out (o.program cid p) k s).2.kv own peer n id = some m') : Relation.ReflTransGen R m m' := by
  obtain ⟨kv₁, hfirst, hrest⟩ := o.byCalls out cid p k s
  -- Backwards through the calls that append nothing.
  have hback : ∀ kv₁ kv₂, Relation.ReflTransGen (CallIn (fun q op => o.Calls out cid p q op ∧ ¬ Appends op) cid) kv₁ kv₂ →
      I kv₁ → copyOn kv₂ own peer n id = some m' →
      ∃ m₁, copyOn kv₁ own peer n id = some m₁ ∧ Relation.ReflTransGen R m₁ m' := by
    intro kv₁ kv₂ hchain
    induction hchain using Relation.ReflTransGen.head_induction_on with
    | refl => exact fun _ h => ⟨m', h, .refl⟩
    | head hcall _ ih =>
      intro hI h₂
      obtain ⟨q, op, ⟨hop, happ⟩, rfl⟩ := hcall
      obtain ⟨x, hx, hR⟩ := ih (hkeep _ q op hI hop) h₂
      rcases (hreached _ hI).comes_from op hx with ⟨m₁, hm₁⟩ | ⟨-, -, message, name, now, rfl, -⟩
      · exact ⟨m₁, hm₁, .head (hmade _ q op m₁ x hI hop hm₁ hx) hR⟩
      · exact absurd trivial happ
  cases hfirst with
  | refl =>
    obtain ⟨m₁, hm₁, hR⟩ := hback _ _ hrest hs hm'
    rw [hm, Option.some.injEq] at hm₁
    exact hm₁ ▸ hR
  | single hcall =>
    obtain ⟨q, op, ⟨hop, -⟩, rfl⟩ := hcall
    obtain ⟨m₁, hm₁, hR⟩ := hback _ _ hrest (hkeep _ q op hs hop) hm'
    exact .head (hmade _ q op m m₁ hs hop hm hm₁) hR

end Calls

end CitadelAgent.Conversations
