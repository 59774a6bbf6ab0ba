import CitadelAgent.Conversations.Copies

/-!
# A conversation that can be loaded

* `messagesTo` : the messages that are read on the pages up to the newest;
* `Loads.conversation` : on any run, what is read is a conversation as it should be;
* `Touched.fate` : where a message is after an operation, or why it is nowhere;
* `Loads.program` : an operation that brings finite numbers leaves what can be loaded.
-/

namespace CitadelAgent.Conversations
open Store StoreRules

def loadedOn (kv : Kv) (own peer : Cid) (n : UInt32) : List ConversationMessage :=
  match pageOf kv own peer n with
  | .ok (some p) => p.messages
  | _ => []

def messagesOn (kv : Kv) (own peer : Cid) (numbers : List UInt32) : List ConversationMessage :=
  numbers.flatMap (loadedOn kv own peer)

def messagesTo (kv : Kv) (own peer : Cid) (latest : UInt32) : List ConversationMessage := messagesOn kv own peer (pagesTo latest)

variable {n : UInt32} {p p' : ConversationPage}

section Pages

variable {own peer : Cid} {kv : Kv}

theorem loadedOn_eq (h : pageOf kv own peer n = .ok (some p)) :
    loadedOn kv own peer n = p.messages := by rw [loadedOn, h]

theorem loadedOn_none (h : pageOf kv own peer n = .ok none) : loadedOn kv own peer n = [] := by rw [loadedOn, h]

theorem messagesOn_congr {kv' : Kv} {numbers : List UInt32} (h : ∀ n ∈ numbers, pageOf kv' own peer n = pageOf kv own peer n) :
    messagesOn kv' own peer numbers = messagesOn kv own peer numbers := by
  refine List.flatMap_congr fun n hn => ?_
  rw [loadedOn, loadedOn, h n hn]

/-- A loop passed these pages, and made of each what `f` does. -/
def Passed (f : Except KvError (Option ConversationPage) → Except KvError (Option ConversationPage)) (kv kv' : Kv) (own peer : Cid)
    (numbers : List UInt32) : Prop :=
  ∀ n, pageOf kv' own peer n = if n ∈ numbers then f (pageOf kv own peer n) else pageOf kv own peer n

section Passed

variable {f : Except KvError (Option ConversationPage) → Except KvError (Option ConversationPage)} {kv' : Kv} {number : UInt32}
  {rest : List UInt32}

theorem Passed.skip (h : Passed f kv kv' own peer rest) (hnot : number ∉ rest)
    (hsame : f (pageOf kv own peer number) = pageOf kv own peer number) : Passed f kv kv' own peer (number :: rest) := by
  intro n
  rw [h n]
  by_cases hn : n = number
  · rw [hn, if_neg hnot, if_pos List.mem_cons_self, hsame]
  · simp [hn]

theorem pageOf_others (kv : Kv) (own peer : Cid) {b : Bytes} (hb : encodePage p = .ok b) (hp : p.Readable) (hnot : number ∉ rest) :
    ∀ n ∈ rest, pageOf (kv.insert (Place.messages own peer number).name b) own peer n = pageOf kv own peer n := by
  intro n hn
  rw [pageOf_saved hb hp, if_neg]
  rintro rfl
  exact hnot hn

theorem Passed.write {b : Bytes} (hb : encodePage p = .ok b) (hp : p.Readable)
    (h : Passed f (kv.insert (Place.messages own peer number).name b) kv' own peer rest) (hnot : number ∉ rest)
    (hmade : f (pageOf kv own peer number) = .ok (some p.norm)) : Passed f kv kv' own peer (number :: rest) := by
  intro n
  rw [h n, pageOf_saved hb hp]
  by_cases hn : n = number
  · rw [hn, if_neg hnot, if_pos rfl, if_pos List.mem_cons_self, hmade]
  · simp [hn]

end Passed

theorem mem_loadedOn {m : ConversationMessage} :
    m ∈ loadedOn kv own peer n ↔ ∃ p, pageOf kv own peer n = .ok (some p) ∧ m ∈ p.messages := by
  constructor
  · intro hm
    rw [loadedOn] at hm
    split at hm
    · exact ⟨_, by assumption, hm⟩
    · cases hm
  · rintro ⟨p, hp, hm⟩
    exact (loadedOn_eq hp).symm ▸ hm

theorem mem_messagesTo {latest : UInt32} {m : ConversationMessage} :
    m ∈ messagesTo kv own peer latest ↔ ∃ n ≤ latest, ∃ p, pageOf kv own peer n = .ok (some p) ∧ m ∈ p.messages := by
  simp only [messagesTo, messagesOn, List.mem_flatMap, mem_pagesTo, mem_loadedOn]

theorem sum_pagesTo (g : UInt32 → Nat) (latest : UInt32) (h : ∀ n, latest < n → g n = 0) :
    ((pagesTo latest).map g).sum = ∑ n, g n := by
  rw [← List.sum_toFinset g (nodup_pagesTo latest)]
  refine Finset.sum_subset (Finset.subset_univ _) fun n _ hn => h n ?_
  rw [List.mem_toFinset, mem_pagesTo] at hn
  exact UInt32.not_le.mp hn

end Pages

/-! ## On any run -/

theorem Run.reached {kv : Kv} (h : Run kv) : Reached kv := by
  induction h with
  | empty => exact .refl
  | step own peer op _ _ hstep ih =>
    have hcall := ih.program own peer op
    rwa [hstep] at hcall

structure ReadsAs (kv : Kv) (own peer : Cid) (m : ConversationMetadata) (c : Conversation) : Prop where
  holds : Holds kv own peer c
  ok : c.Ok own peer
  metadata : m = c.metadata.norm
  page : ∀ n, pageOf kv own peer n = .ok ((c.pages n).map ConversationPage.norm)

section

variable {own peer : Cid} {kv : Kv} {m : ConversationMetadata} {c : Conversation}

theorem Loads.found (hloads : Loads kv own peer) (hs : Sited kv own peer) (n : UInt32) :
    ∃ found, pageOf kv own peer n = .ok found := by
  obtain ⟨existing, hm, hpages⟩ := loads_iff.mp hloads
  cases existing with
  | none => exact ⟨none, hs.unstarted hm n⟩
  | some m =>
    by_cases hn : n ≤ m.latestPage
    · exact hpages m rfl n hn
    · exact ⟨none, hs.newest m hm n (UInt32.not_le.mp hn)⟩

theorem Loads.page (h : Run kv) (hloads : Loads kv own peer) (n : UInt32) : ∃ found, pageOf kv own peer n = .ok found :=
  hloads.found (h.reached.sited.2 own peer) n

theorem Loads.readsAs (h : Run kv) (hloads : Loads kv own peer) (hc : Holds kv own peer c) (hok : c.Ok own peer) :
    ReadsAs kv own peer c.metadata.norm c := by
  refine ⟨hc, hok, rfl, fun n => ?_⟩
  obtain ⟨found, hfound⟩ := hloads.page h n
  rw [hfound, pageOf_holds h.good.1 hc.pages hok.pages hfound]

theorem Loads.conversation (h : Run kv) (hloads : Loads kv own peer) (hm : metadataOf kv own peer = .ok (some m)) :
    ∃ c, ReadsAs kv own peer m c := by
  obtain ⟨hl, hg⟩ := h.good
  rcases hg own peer with habs | ⟨c, hc, hok⟩
  · rw [metadataOf_absent hl habs] at hm
    cases hm
  · obtain rfl := Option.some.inj (metadataOf_holds hc hm)
    exact ⟨c, hloads.readsAs h hc hok⟩

namespace ReadsAs

theorem loadedOn (h : ReadsAs kv own peer m c) (n : UInt32) :
    loadedOn kv own peer n = ((c.pages n).map fun p => p.norm.messages).getD [] := by
  rw [Conversations.loadedOn, h.page n]
  cases c.pages n <;> rfl

theorem none_after (h : ReadsAs kv own peer m c) (hn : m.latestPage < n) : c.pages n = none := by
  refine Option.eq_none_iff_forall_ne_some.mpr fun p hp => ?_
  have hle := h.ok.latest n p hp
  rw [h.metadata] at hn
  exact absurd hle (UInt32.not_le.mpr hn)

theorem countP_messagesTo (h : ReadsAs kv own peer m c) (q : ConversationMessage → Bool) :
    (messagesTo kv own peer m.latestPage).countP q =
      ∑ n, ((c.pages n).map fun p => p.norm.messages.countP q).getD 0 := by
  rw [messagesTo, messagesOn, List.countP_flatMap, ← sum_pagesTo _ m.latestPage]
  · refine congrArg List.sum (List.map_congr_left fun n _ => ?_)
    rw [Function.comp_apply, h.loadedOn n]
    cases c.pages n <;> rfl
  · intro n hn
    rw [h.none_after hn]
    rfl

theorem length_messagesTo (h : ReadsAs kv own peer m c) :
    (messagesTo kv own peer m.latestPage).length = Conversation.count c.pages := by
  have hcount := h.countP_messagesTo fun _ => true
  rw [List.countP_true] at hcount
  rw [hcount]
  refine Finset.sum_congr rfl fun n _ => ?_
  cases c.pages n with
  | none => rfl
  | some p => simp [Conversation.size, ConversationPage.norm]

theorem unread_messagesTo (h : ReadsAs kv own peer m c) :
    (messagesTo kv own peer m.latestPage).countP (Conversation.isUnread peer) = Conversation.unread peer c.pages := by
  rw [h.countP_messagesTo]
  refine Finset.sum_congr rfl fun n _ => ?_
  cases c.pages n with
  | none => rfl
  | some p => exact Conversation.countP_isUnread_norm peer p

theorem total (h : ReadsAs kv own peer m c) :
    m.totalMessageCount = F64.ofNat (messagesTo kv own peer m.latestPage).length ∧
      (messagesTo kv own peer m.latestPage).length + 1 < 2 ^ 53 := by
  rw [h.length_messagesTo, h.metadata]
  exact ⟨h.ok.total_norm, Conversation.count_lt h.ok.pages⟩

theorem oldest (h : ReadsAs kv own peer m c) {x : ConversationMessage} (hx : x ∈ messagesTo kv own peer m.latestPage) :
    x.timestamp.isFinite = true ∧ m.oldestMessageTimestamp.le x.timestamp = true := by
  obtain ⟨n, -, p, hp, hmem⟩ := mem_messagesTo.mp hx
  rw [h.page n, Except.ok.injEq, Option.map_eq_some_iff] at hp
  obtain ⟨q, hq, rfl⟩ := hp
  obtain ⟨y, hy, rfl⟩ := List.mem_map.mp hmem
  have hfin := (h.ok.pages n q hq).finite y hy
  have hle := h.ok.oldest n q hq _ (List.mem_map_of_mem hy)
  refine ⟨(F64.isFinite_norm _).trans hfin, ?_⟩
  rw [h.metadata]
  show c.metadata.oldestMessageTimestamp.norm.le y.timestamp.norm = true
  rw [F64.norm_le, F64.le_norm]
  exact (F64.le_iff h.ok.oldestFinite hfin).mpr hle

theorem norm_timestamp (h : ReadsAs kv own peer m c) {x : ConversationMessage}
    (hx : x ∈ messagesTo kv own peer m.latestPage) : x.timestamp.norm = x.timestamp := by
  obtain ⟨n, -, p, hp, hmem⟩ := mem_messagesTo.mp hx
  rw [h.page n, Except.ok.injEq, Option.map_eq_some_iff] at hp
  obtain ⟨q, -, rfl⟩ := hp
  obtain ⟨y, -, rfl⟩ := List.mem_map.mp hmem
  exact F64.norm_norm y.timestamp

end ReadsAs

end

/-! ## Where a message goes -/

inductive StoreOp.Loses (own peer : Cid) (kv : Kv) (op : StoreOp) (m : ConversationMessage) : Prop
  | taken (id : String) (f : Found) (hid : op.target = some id) (hf : foundIn kv own peer id = .ok (some f))
    (hm : f.message = m) (ht : op.Takes m)
  | pruned (cutoff now : F64) (hop : op = .pruneOlderThan cutoff now) (hold : cutoff.le m.timestamp = false)
  | deleted (includeUnattributed : Bool) (hop : op = .delete includeUnattributed)

section Fates

variable {own peer : Cid} {kv kv' : Kv} {op : StoreOp}

theorem mem_set_or {α : Type} {l : List α} (i : Fin l.length) (a : α) {x : α} (h : x ∈ l) : x ∈ l.set i a ∨ x = l.get i := by
  obtain ⟨k, hk, rfl⟩ := List.mem_iff_getElem.mp h
  by_cases hi : k = i
  · subst hi
    exact .inr rfl
  · exact .inl (List.mem_iff_getElem.mpr ⟨k, by simpa using hk, List.getElem_set_ne (Ne.symm hi) _⟩)

theorem mem_eraseIdx_or {α : Type} {l : List α} (i : Fin l.length) {x : α} (h : x ∈ l) : x ∈ l.eraseIdx i ∨ x = l.get i := by
  obtain ⟨k, hk, rfl⟩ := List.mem_iff_getElem.mp h
  by_cases hi : k = i
  · subst hi
    exact .inr rfl
  · exact .inl (List.mem_eraseIdx_iff_getElem.mpr ⟨k, hk, hi, rfl⟩)

theorem readNewest_mem (peer : Cid) (wanted : Nat) (read : List ConversationMessage) {messages : List ConversationMessage}
    {m : ConversationMessage} (h : m ∈ messages) : m ∈ (readNewest peer wanted read messages).2 ∨ (m.senderCid = peer ∧ m.status = .delivered ∧
      { m with status := .read } ∈ (readNewest peer wanted read messages).2) := by
  induction messages generalizing read with
  | nil => cases h
  | cons a older ih =>
    rw [readNewest]
    split_ifs with hdone hunread
    · exact .inl h
    · rcases List.mem_cons.mp h with rfl | hin
      · exact .inr ⟨hunread.1, hunread.2, List.mem_cons_self⟩
      · exact (ih _ hin).imp (List.mem_cons_of_mem _) fun h => ⟨h.1, h.2.1, List.mem_cons_of_mem _ h.2.2⟩
    · rcases List.mem_cons.mp h with rfl | hin
      · exact .inl List.mem_cons_self
      · exact (ih _ hin).imp (List.mem_cons_of_mem _) fun h => ⟨h.1, h.2.1, List.mem_cons_of_mem _ h.2.2⟩

theorem length_readNewest {wanted : Nat} (read messages : List ConversationMessage) :
    (readNewest peer wanted read messages).2.length = messages.length := by
  have hids : ((readNewest peer wanted read messages).2.map (·.id)).length = (messages.map (·.id)).length :=
    congrArg List.length (ids_readNewest read messages)
  rwa [List.length_map, List.length_map] at hids

theorem StoreOp.Rewrites.fate (h : op.Rewrites own peer kv p p') {m : ConversationMessage}
    (hm : m ∈ p.messages) : (∃ x ∈ p'.messages, op.Makes own peer kv m x.norm) ∨ op.Loses own peer kv m := by
  have hkept : m ∈ p'.messages → ∃ x ∈ p'.messages, op.Makes own peer kv m x.norm := fun hin => ⟨m, hin, .same (.inr rfl)⟩
  cases h with
  | closed message name now => exact .inl (hkept hm)
  | placed message name now _ hroom hnew => exact .inl (hkept (mem_place.mpr (.inl hm)))
  | changed _ id f c hid hf hc =>
    rcases mem_set_or f.index c hm with hin | hfound
    · exact .inl (hkept hin)
    · exact .inl ⟨c, f.mem_replaced c, .changed id f c hid hf hfound.symm (hfound ▸ hc) rfl⟩
  | taken _ id f hid hf ht =>
    rcases mem_eraseIdx_or f.index hm with hin | hfound
    · exact .inl (hkept hin)
    · exact .inr (.taken id f hid hf hfound.symm (hfound ▸ ht))
  | marked now wanted read _ =>
    rcases readNewest_mem peer wanted read (List.mem_reverse.mpr hm) with
      hin | ⟨hpeer, hstatus, hin⟩
    · exact .inl (hkept (List.mem_reverse.mpr hin))
    · exact .inl ⟨_, List.mem_reverse.mpr hin, .read now rfl hpeer hstatus rfl⟩
  | pruned cutoff now _ =>
    cases hold : cutoff.le m.timestamp with
    | true => exact .inl (hkept (List.mem_filter.mpr ⟨hm, hold⟩))
    | false => exact .inr (.pruned cutoff now rfl hold)

theorem StoreOp.Rewrites.length_le (h : op.Rewrites own peer kv p p')
    (hop : ∀ message name now, op ≠ .append message name now) : p'.messages.length ≤ p.messages.length := by
  cases h with
  | closed message name now => exact absurd rfl (hop message name now)
  | placed message name now => exact absurd rfl (hop message name now)
  | changed _ id f c =>
    show (f.page.messages.set f.index c).length ≤ f.page.messages.length
    rw [List.length_set]
  | taken _ id f => exact (List.eraseIdx_sublist _ _).length_le
  | marked now wanted read =>
    rw [ConversationPage.marked, List.length_reverse, length_readNewest, List.length_reverse]
  | pruned cutoff now => exact List.length_filter_le _ _

theorem Touched.fate (ht : Touched own peer op kv kv') (hs : Sited kv own peer) {found : Option ConversationPage}
    (hfound : pageOf kv' own peer n = .ok found) {m : ConversationMessage} (hm : m ∈ loadedOn kv own peer n) :
    (∃ x ∈ loadedOn kv' own peer n, op.Makes own peer kv m x) ∨ op.Loses own peer kv m := by
  obtain ⟨p, hp, hin⟩ := mem_loadedOn.mp hm
  have hafter := ht.page n
  rw [hfound] at hafter
  rcases hafter with hsame | ⟨q, q', hq, hr, hw⟩ | ⟨message, name, now, -, hnew, -⟩ | ⟨b, hop, -⟩
  · rw [hp, Except.ok.injEq] at hsame
    subst hsame
    exact .inl ⟨m, mem_loadedOn.mpr ⟨p, hfound, hin⟩, .same (.inl rfl)⟩
  · rw [hp, Except.ok.injEq, Option.some.injEq] at hq
    subst hq
    refine (hr.fate hin).imp_left fun ⟨x, hx, hmade⟩ => ⟨x.norm, mem_loadedOn.mpr ⟨q'.norm, ?_, ?_⟩, hmade⟩
    · rw [hfound, hw.eq_some]
    · exact List.mem_map_of_mem hx
  · -- There was no such page.
    have hnone : pageOf kv own peer n = .ok none := by
      rcases hnew with hnone | ⟨existing, hmeta, hbeyond⟩
      · exact hnone
      · cases existing with
        | none => exact hs.unstarted hmeta n
        | some m => exact hs.newest m hmeta n (hbeyond m rfl)
    rw [hp] at hnone
    cases hnone
  · exact .inr (.deleted b hop)

theorem Touched.length_le (ht : Touched own peer op kv kv') (hop : ∀ message name now, op ≠ .append message name now)
    : (loadedOn kv' own peer n).length ≤ (loadedOn kv own peer n).length := by
  rcases ht.page n with hsame | ⟨q, q', hq, hr, hw⟩ | ⟨message, name, now, happend, -, -⟩ | ⟨b, -, hgone⟩
  · rw [loadedOn, loadedOn, hsame]
  · rw [loadedOn_eq hq, loadedOn]
    split
    · next p hp =>
      rw [hp] at hw
      rw [Option.some.inj hw.eq_some, ConversationPage.norm, List.length_map]
      exact hr.length_le hop
    · exact Nat.zero_le _
  · exact absurd happend (hop message name now)
  · rw [loadedOn_none hgone]
    exact Nat.zero_le _

/-! ## Finite numbers -/

theorem finite_bounds {messages : List ConversationMessage} {none_ : F64} (hfin : ∀ m ∈ messages, m.timestamp.isFinite = true)
    (hnone : none_.isFinite = true) :
    (bounds messages none_).minTimestamp.isFinite = true ∧ (bounds messages none_).maxTimestamp.isFinite = true := by
  simp only [bounds]
  constructor
  · cases hhead : messages.head? with
    | none => exact hnone
    | some m => exact hfin m (List.mem_of_head? hhead)
  · cases hlast : messages.getLast? with
    | none => exact hnone
    | some m => exact hfin m (List.mem_of_getLast? hlast)

theorem sound_kept (cutoff : F64) (h : p.Sound) : (p.kept cutoff).Sound := by
  have hsub : ∀ m ∈ p.messages.filter fun m => cutoff.le m.timestamp, m.Sound :=
    fun m hm => h.messages m (List.mem_of_mem_filter hm)
  have hbounds := finite_bounds (fun m hm => (hsub m hm).timestamp) (F64.isFinite_ofNat (n := 0) (by decide))
  exact ⟨hbounds.1, hbounds.2, hsub⟩

theorem StoreOp.changed_sound (op : StoreOp) {m m' : ConversationMessage} (h : op.changed m = some m') (hm : m.Sound) :
    m'.Sound := by
  unfold changed at h
  split at h
  · unfold statusSet at h
    split at h
    · cases h
      exact ⟨hm.timestamp, hm.index, hm.attachments, hm.reactions⟩
    · cases h
  · simp only [applyPatch] at h
    split at h
    · cases h
      exact ⟨hm.timestamp, hm.index, hm.attachments, hm.reactions⟩
    · cases h
  · obtain ⟨list, hl, rfl⟩ := Option.map_eq_some_iff.mp h
    exact sound_fold hm hl
  · split at h
    · cases h
      exact ⟨hm.timestamp, hm.index, hm.attachments, hm.reactions⟩
    · cases h
  · cases h

theorem StoreOp.Rewrites.readable (h : op.Rewrites own peer kv p p') (hop : op.Sound) (hp : p.Sound) : p'.Readable := by
  cases h with
  | closed message name now => exact hp.readable
  | placed message name now => exact (readable_place hp.messages).mpr hop.1.readable
  | changed _ id f m hid hf hm => exact (Found.sound_replaced hp (op.changed_sound hm (sound_of_found hf).2)).readable
  | taken _ id f => exact (Found.sound_removed hp).readable
  | marked now wanted read =>
    refine ⟨hp.minTimestamp, hp.maxTimestamp, fun x hx => ?_⟩
    rw [ConversationPage.marked, List.mem_reverse] at hx
    obtain ⟨m, hm, rfl | ⟨-, -, rfl⟩⟩ := mem_readNewest hx
    · exact (hp.messages x (List.mem_reverse.mp hm)).readable
    · have hsound := hp.messages m (List.mem_reverse.mp hm)
      exact ⟨hsound.timestamp, hsound.index, hsound.attachments, hsound.readable.reactions⟩
  | pruned cutoff now => exact (sound_kept cutoff hp).readable

theorem Touched.page_ok (ht : Touched own peer op kv kv') (hop : op.Sound) {found : Option ConversationPage}
    (h : pageOf kv own peer n = .ok found) : ∃ found', pageOf kv' own peer n = .ok found' := by
  rcases ht.page n with hsame | ⟨q, q', hq, hr, hw⟩ | ⟨message, name, now, rfl, -, hw⟩ | ⟨b, -, hgone⟩
  · exact ⟨found, hsame.trans h⟩
  · exact ⟨_, hw.of_readable (hr.readable hop (sound_of_pageOf hq))⟩
  · exact ⟨_, hw.of_readable ((readable_place fun x hx => by cases hx).mpr hop.1.readable)⟩
  · exact ⟨none, hgone⟩

theorem Touched.loads (ht : Touched own peer op kv kv') (hop : op.Sound) (hl : NoLegacy kv) (hg : Good kv own peer)
    (hs : Sited kv own peer) (h : Loads kv own peer) : Loads kv' own peer := by
  have hpage : ∀ n, ∃ found, pageOf kv' own peer n = .ok found := by
    intro n
    obtain ⟨found, hfound⟩ := h.found hs n
    exact ht.page_ok hop hfound
  have hmeta : ∃ found, metadataOf kv' own peer = .ok found := by
    rcases ht.metadata with hsame | ⟨m, m', -, -, -, hr, hw⟩ | ⟨message, name, now, d, rfl, hd, hw⟩ | ⟨b, -, hgone⟩
    · obtain ⟨found, hfound, -⟩ := loads_iff.mp h
      exact ⟨found, hsame.trans hfound⟩
    · exact ⟨_, hw.of_readable (hr hop hl hg)⟩
    · refine ⟨_, hw.of_readable ((Draft.readable_recorded hd hop.2).mpr ⟨hop.1.timestamp, F64.isFinite_max ?_ hop.1.index⟩)⟩
      rcases Draft.metadata_cases hd with ⟨existing, hexisting, hdm, -⟩ | ⟨-, hdm, -⟩
      · rw [hdm]
        exact (readable_of_metadataOf hexisting).lastMessageIndex
      · have hzero := F64.isFinite_ofNat (n := 0) (by decide)
        simp only [hdm, stamped, newMetadata, hzero]
    · exact ⟨none, hgone⟩
  obtain ⟨found, hfound⟩ := hmeta
  exact loads_iff.mpr ⟨found, hfound, fun m _ n _ => hpage n⟩

end Fates

/-! ## Runs that bring finite numbers -/

theorem StoreOp.Sound.finiteTime {op : StoreOp} (h : op.Sound) : op.FiniteTime := by
  cases op with
  | append message name now => exact h.1.timestamp
  | _ => trivial

theorem Loads.frame {own peer own' peer' : Cid} {kv kv' : Kv} (h : Loads kv own peer) (hf : Frame own' peer' kv kv')
    (hne : ¬ (own = own' ∧ peer = peer')) : Loads kv' own peer := by
  obtain ⟨found, hfound, hpages⟩ := loads_iff.mp h
  exact loads_iff.mpr ⟨found, (hf.metadataOf hne).trans hfound, fun m hm n hn => (hf.pageOf hne n).symm ▸ hpages m hm n hn⟩

end CitadelAgent.Conversations
