import CitadelAgent.Conversations.StoreRun

/-!
# The unread count

The count is raised by `record_append`, set to zero by `mark_read`, and left alone by everything else.

* `StoreOp.KeepsCount` : the operation neither changes what is unread behind the count's back, nor counts what is not;
* `CountedRun` : the runs whose operations on one conversation are all of that kind;
* `unread_exact`, `removed_stays_counted` : there the count is exact; a delete by the peer is not of that kind.
-/

namespace CitadelAgent.Conversations
open Store StoreRules Result Conversation

/-- The operation, on these records, changes what is unread only by what it adds to the count, or with the count. -/
def StoreOp.KeepsCount (own peer : Cid) (kv : Kv) : StoreOp → Prop
  | .append message _ _ => message.status = .delivered → (message.senderCid ≠ own ↔ message.senderCid = peer)
  | .setStatus id status _ => ∀ f, foundIn kv own peer id = .ok (some f) → f.message.senderCid = peer →
      statusAdvances f.message.status status = true → f.message.status ≠ .delivered ∧ status ≠ .delivered
  | .patch id p => ∀ f, foundIn kv own peer id = .ok (some f) → f.message.senderCid = peer →
      ∀ status ∈ p.status, statusAdvances f.message.status status = true →
        f.message.status ≠ .delivered ∧ status ≠ .delivered
  | .revise id reviser .delete _ => ∀ f, foundIn kv own peer id = .ok (some f) → f.message.senderCid = reviser →
      isUnread peer f.message = false
  | .remove id _ => ∀ f, foundIn kv own peer id = .ok (some f) → isUnread peer f.message = false
  | .pruneOlderThan cutoff _ => ∀ c, Holds kv own peer c → UnreadKept peer cutoff c.pages
  | .react .. | .revise _ _ (.edit ..) _ | .markRead _ | .setPeerUsername .. | .delete _ => True

/-- The count is the number of messages of the peer's that nobody has read. -/
def Exact (peer : Cid) (c : Conversation) : Prop := c.metadata.unreadCount = F64.ofNat (unread peer c.pages)

variable {m m' : ConversationMessage} {kv : Kv} {own peer : Cid}

section Steps

variable {kv kv' : Kv} {own peer : Cid} {c : Conversation}

theorem unread_lt (hok : c.Ok own peer) : unread peer c.pages + 1 < 2 ^ 53 := by
  have hle := unread_le_count peer c.pages
  have hlt := count_lt hok.pages
  omega

theorem Exact.norm (h : Exact peer c) (hok : c.Ok own peer) :
    c.metadata.norm.unreadCount = F64.ofNat (unread peer c.pages) := by
  have hlt := unread_lt hok
  show c.metadata.unreadCount.norm = _
  rw [h, F64.norm_ofNat (by omega)]

/-! ## A message changed, or gone -/

theorem countP_replaced (f : Found) {changed : ConversationMessage} (h : isUnread peer changed = isUnread peer f.message) :
    (f.replaced changed).messages.countP (isUnread peer) = f.page.messages.countP (isUnread peer) := by
  have hget : f.page.messages[f.index] = f.message := rfl
  show (f.page.messages.set f.index changed).countP (isUnread peer) = _
  rw [List.countP_set f.index.isLt, show f.page.messages[(f.index : Nat)] = f.message from hget, h]
  by_cases hm : isUnread peer f.message = true
  · have hpos : 0 < f.page.messages.countP (isUnread peer) :=
      List.countP_pos_iff.mpr ⟨f.message, List.get_mem _ _, hm⟩
    simp only [hm, if_true]
    omega
  · simp only [hm, Bool.false_eq_true, if_false]
    omega

theorem countP_removed (f : Found) (h : isUnread peer f.message = false) :
    f.removed.messages.countP (isUnread peer) = f.page.messages.countP (isUnread peer) := by
  have hperm := List.getElem_cons_eraseIdx_perm f.index.isLt
  rw [← hperm.countP_eq, List.countP_cons, show f.page.messages[(f.index : Nat)] = f.message from rfl, h]
  rfl

theorem unread_rewritten {f : Found} {n : UInt32} {p : ConversationPage} (hf : FoundAt c peer f n p) {page : ConversationPage}
    (h : page.messages.countP (isUnread peer) = f.page.messages.countP (isUnread peer)) :
    unread peer (Function.update c.pages n (some page)) = unread peer c.pages := by
  have hupd := unread_update peer c.pages n (some page)
  rw [hf.held, unreadOn, unreadOn, h, hf.read, countP_isUnread_norm] at hupd
  omega

/-- A conversation without records, or with an exact count. -/
def Counted (kv : Kv) (own peer : Cid) : Prop :=
  Absent kv own peer ∨ ∃ c, Holds kv own peer c ∧ c.Ok own peer ∧ Exact peer c

theorem Left.counted (h : Left own peer kv kv' c) (hexact : Exact peer c) : Counted kv' own peer :=
  .inr ⟨c, h.holds, h.ok, hexact⟩

theorem replaced_counted (hc : Holds kv own peer c) (hok : c.Ok own peer) (hexact : Exact peer c) {id : String}
    {change : ConversationMessage → Option ConversationMessage} (h : Replaced own peer kv kv' c id change)
    (hkeep : ∀ f, foundIn kv own peer id = .ok (some f) → ∀ m, change f.message = some m →
      isUnread peer m = isUnread peer f.message) : Counted kv' own peer := by
  rcases h with rfl | ⟨n, p, f, changed, hfound, hf, hchange, hleft⟩
  · exact .inr ⟨c, hc, hok, hexact⟩
  · refine hleft.counted ?_
    show c.metadata.unreadCount = F64.ofNat (unread peer (Function.update c.pages n (some (f.replaced changed))))
    rw [unread_rewritten hf (countP_replaced f (hkeep f hfound changed hchange)), hexact]

theorem removed_counted (hc : Holds kv own peer c) (hok : c.Ok own peer) (hexact : Exact peer c) {id : String}
    (h : Removed own peer kv kv' c id)
    (hkeep : ∀ f, foundIn kv own peer id = .ok (some f) → isUnread peer f.message = false) : Counted kv' own peer := by
  rcases h with rfl | ⟨n, p, f, m, hfound, hf, hm, hleft⟩
  · exact .inr ⟨c, hc, hok, hexact⟩
  · refine hleft.counted ?_
    show m.unreadCount = F64.ofNat (unread peer (Function.update c.pages n (some f.removed)))
    rw [unread_rewritten hf (countP_removed f (hkeep f hfound)), hm, hexact.norm hok]

/-! ## A message more -/

theorem appended_counted (hbase : Counted kv own peer) (hok : c.Ok own peer) (hexact : Exact peer c)
    {message : ConversationMessage} (h : Appended own peer kv kv' c message)
    (hkeep : message.status = .delivered → (message.senderCid ≠ own ↔ message.senderCid = peer)) : Counted kv' own peer := by
  rcases h with rfl | ⟨d, now, pages, hcount, hgains⟩
  · exact hbase
  · refine hgains.left.counted ?_
    have hlt := unread_lt hok
    have hsame : isUnread peer message = true ↔ message.senderCid ≠ own ∧ message.status = .delivered := by
      simp only [isUnread, decide_eq_true_eq]
      exact ⟨fun h => ⟨(hkeep h.2).mpr h.1, h.2⟩, fun h => ⟨(hkeep h.2).mp h.1, h.2⟩⟩
    show (if message.senderCid ≠ own ∧ message.status = .delivered then d.metadata.unreadCount.add (F64.ofNat 1)
      else d.metadata.unreadCount) = F64.ofNat (unread peer pages)
    rw [hgains.unread, hcount, hexact.norm hok]
    by_cases hm : isUnread peer message = true
    · rw [if_pos (hsame.mp hm), if_pos hm, F64.ofNat_add_one (by omega)]
    · rw [if_neg (mt hsame.mpr hm), if_neg hm, Nat.add_zero]

theorem exact_fresh (own peer : Cid) (message : ConversationMessage) (name : Option String) :
    Exact peer (.fresh own peer message name) := by
  have hnone : unread peer (fun _ => none) = 0 := Finset.sum_eq_zero fun _ _ => rfl
  simp only [Exact, Conversation.fresh, hnone, newMetadata]

/-! ## Reading marks -/

theorem Marked.none_left {wanted : Nat} {pages : UInt32 → Option ConversationPage} {read : List ConversationMessage} (hok : c.Ok own peer)
    (hmarked : Marked peer wanted (pagesTo c.metadata.latestPage).reverse c.pages pages [] read)
    (hle : unread peer c.pages ≤ wanted) : unread peer pages = 0 := by
  have hsum := hmarked.sum
  rcases hmarked.done with henough | hall
  · rw [List.length_nil] at hsum
    omega
  · refine Finset.sum_eq_zero fun n _ => ?_
    by_cases hn : n ≤ c.metadata.latestPage
    · exact hall n (List.mem_reverse.mpr (mem_pagesTo.mpr hn))
    · have hpage : c.pages n = none := Option.eq_none_iff_forall_ne_some.mpr fun p hp => hn (hok.latest n p hp)
      have hle := hmarked.fewer n
      rw [hpage] at hle
      exact Nat.le_zero.mp hle

theorem marked_counted (hok : c.Ok own peer) (hexact : Exact peer c) {m : ConversationMetadata}
    {pages : UInt32 → Option ConversationPage} {read : List ConversationMessage} (hm : m.unreadCount = F64.ofNat 0)
    (hmarked : Marked peer (wantedOf c.metadata.norm) (pagesTo c.metadata.latestPage).reverse c.pages pages [] read) :
    Exact peer ⟨m, pages⟩ := by
  have hlt := unread_lt hok
  have hwanted : wantedOf c.metadata.norm = unread peer c.pages := by
    rw [wantedOf, hexact.norm hok, F64.ofNat_max_zero (by omega), F64.toU64_ofNat (by omega)]
  rw [Exact, hmarked.none_left hok hwanted.ge]
  exact hm

/-! ## Every operation -/

theorem isUnread_statusSet {status : MessageStatus} {error : Option String} (h : StoreOp.statusSet status error m = some m')
    (hkeep : m.senderCid = peer → statusAdvances m.status status = true → m.status ≠ .delivered ∧ status ≠ .delivered) :
    isUnread peer m' = isUnread peer m := by
  unfold StoreOp.statusSet at h
  split at h
  · next hadvances =>
    cases h
    unfold isUnread
    by_cases hp : m.senderCid = peer
    · simp [hkeep hp hadvances]
    · simp [hp]
  · cases h

theorem isUnread_applyPatch {p : MessagePatch} (h : applyPatch p m = some m')
    (hkeep : m.senderCid = peer → ∀ status ∈ p.status, statusAdvances m.status status = true →
      m.status ≠ .delivered ∧ status ≠ .delivered) : isUnread peer m' = isUnread peer m := by
  simp only [applyPatch] at h
  split at h
  · cases h
    unfold isUnread
    by_cases hp : m.senderCid = peer
    · cases hstatus : p.status with
      | none => simp
      | some status =>
        by_cases hadvances : statusAdvances m.status status = true
        · obtain ⟨hwas, his⟩ := hkeep hp status hstatus hadvances
          simp [hadvances, hwas, his]
        · simp [hadvances]
    · simp [hp]
  · cases h

theorem isUnread_reacted {change : Reaction} (h : StoreOp.reacted change m = some m') :
    isUnread peer m' = isUnread peer m := by
  obtain ⟨list, -, rfl⟩ := Option.map_eq_some_iff.mp h
  rfl

theorem StoreOp.counted (hl : NoLegacy kv) (h : Counted kv own peer) {op : StoreOp} (hfin : op.FiniteTime)
    (hkeep : op.KeepsCount own peer kv) (hstep : Kv.exec (op.program own peer) kv = (.ok (), kv')) : Counted kv' own peer := by
  rcases h with habs | ⟨c, hc, hok, hexact⟩
  · rcases leaves_absent hl habs hfin hstep with rfl | ⟨message, name, now, rfl, happended⟩
    · exact .inl habs
    · exact appended_counted (.inl habs) (Conversation.ok_new own peer name _ hfin) (exact_fresh own peer message name)
        happended hkeep
  · have hleaves := leaves hl hc hok hfin hstep
    have hsame : Counted kv own peer := .inr ⟨c, hc, hok, hexact⟩
    cases op with
    | append message name now => exact appended_counted hsame hok hexact hleaves hkeep
    | setStatus id status error =>
      exact replaced_counted hc hok hexact hleaves fun f hf m hm => isUnread_statusSet hm (hkeep f hf)
    | patch id p => exact replaced_counted hc hok hexact hleaves fun f hf m hm => isUnread_applyPatch hm (hkeep f hf)
    | react id change => exact replaced_counted hc hok hexact hleaves fun f hf m hm => isUnread_reacted hm
    | revise id reviser revision now =>
      cases revision with
      | edit contents editedAt =>
        refine replaced_counted hc hok hexact hleaves fun f hf m hm => ?_
        cases hm
        rfl
      | delete =>
        rcases hleaves with rfl | ⟨hsender, hremoved⟩
        · exact hsame
        · exact removed_counted hc hok hexact hremoved fun f hf => hkeep f hf (hsender f hf)
    | remove id now => exact removed_counted hc hok hexact hleaves hkeep
    | markRead now =>
      obtain ⟨m, pages', read, hm, hmarked, hleft⟩ := hleaves
      exact hleft.counted (marked_counted hok hexact hm hmarked)
    | pruneOlderThan cutoff now =>
      rcases hleaves with rfl | ⟨m, pages', hm, hun, hleft⟩
      · exact hsame
      · refine hleft.counted ?_
        rw [Exact, hun (hkeep c hc)]
        rcases hm with rfl | hm
        · exact hexact
        · exact hm.trans (hexact.norm hok)
    | setPeerUsername username now =>
      rcases hleaves with rfl | ⟨m, hm, hleft⟩
      · exact hsame
      · exact hleft.counted (hm.trans (hexact.norm hok))
    | delete includeUnattributed =>
      rcases hleaves with rfl | ⟨hgone, -⟩
      · exact hsame
      · exact .inl hgone

end Steps

/-! ## Every run -/

/-- The runs in which every operation on the conversation keeps its count, whatever is done to others. -/
inductive CountedRun (own peer : Cid) : Kv → Prop
  | empty : CountedRun own peer ∅
  | step {kv kv' : Kv} (own' peer' : Cid) (op : StoreOp) (hrun : CountedRun own peer kv) (hfin : op.FiniteTime)
    (hkeep : own' = own ∧ peer' = peer → op.KeepsCount own peer kv)
    (hstep : Kv.exec (op.program own' peer') kv = (.ok (), kv')) : CountedRun own peer kv'

theorem CountedRun.run (h : CountedRun own peer kv) : Run kv := by
  induction h with
  | empty => exact .empty
  | step own' peer' op _ hfin _ hstep ih => exact .step own' peer' op ih hfin hstep

theorem holds_frame {P : Conversation → Prop} {kv' : Kv} {own' peer' : Cid}
    (h : Absent kv own peer ∨ ∃ c, Holds kv own peer c ∧ c.Ok own peer ∧ P c) (hf : Frame own' peer' kv kv')
    (hne : ¬ (own' = own ∧ peer' = peer)) : Absent kv' own peer ∨ ∃ c, Holds kv' own peer c ∧ c.Ok own peer ∧ P c := by
  have hat : ∀ part, kv'.at_ ⟨some own, peer, part⟩ = kv.at_ ⟨some own, peer, part⟩ := by
    refine fun part => hf _ fun hsame => hne ?_
    exact ⟨(Option.some.inj hsame.1).symm, hsame.2.symm⟩
  rcases h with ⟨hmeta, hpages⟩ | ⟨c, ⟨hmeta, hpages⟩, hrest⟩
  · exact .inl ⟨(hat none).trans hmeta, fun n => (hat _).trans (hpages n)⟩
  · exact .inr ⟨c, ⟨(hat none).trans hmeta, fun n => (hat _).trans (hpages n)⟩, hrest⟩

theorem CountedRun.counted (h : CountedRun own peer kv) : Counted kv own peer := by
  induction h with
  | empty => exact .inl ⟨rfl, fun _ => rfl⟩
  | step own' peer' op hrun hfin hkeep hstep ih =>
    obtain ⟨hl, hg⟩ := hrun.run.good
    by_cases hsame : own' = own ∧ peer' = peer
    · obtain ⟨rfl, rfl⟩ := hsame
      exact StoreOp.counted hl ih hfin (hkeep ⟨rfl, rfl⟩) hstep
    · exact holds_frame ih (StoreOp.keeps hl (hg own' peer') hfin hstep).frame hsame

/-- After every such run the conversation has no records, or its unread count is the number of messages on its pages that
the peer sent and nobody has read. -/
theorem unread_exact {own peer : Cid} {kv : Kv} (h : CountedRun own peer kv) : Absent kv own peer ∨ ∃ c : Conversation,
    Holds kv own peer c ∧ (∀ n p, c.pages n = some p → n ≤ c.metadata.latestPage) ∧
    c.metadata.unreadCount = F64.ofNat (∑ n, unreadOn peer (c.pages n)) := by
  refine h.counted.imp_right ?_
  rintro ⟨c, hc, hok, hexact⟩
  exact ⟨c, hc, hok.latest, hexact⟩

theorem unread_exact_first : ∃ kv,
    Kv.exec ((StoreOp.append firstMessage none (F64.ofNat 10)).program 1 2) ∅ = (.ok (), kv) ∧ ∃ c : Conversation,
    Holds kv 1 2 c ∧ (∀ n p, c.pages n = some p → n ≤ c.metadata.latestPage) ∧
    c.metadata.unreadCount = F64.ofNat (∑ n, unreadOn 2 (c.pages n)) := by
  obtain ⟨placed, hw⟩ := writes_first
  have hop := StoreOp.exec_discard.mpr ⟨_, exec_append_of_draft draftOf_first hw (F64.ofNat 10)⟩
  have hfin : firstMessage.timestamp.isFinite = true := by
    have h1 := F64.isFinite_ofNat (n := 1) (by decide)
    simp only [firstMessage, ConversationMessage.text, h1]
  have hrun : CountedRun 1 2 _ :=
    .step 1 2 (.append firstMessage none (F64.ofNat 10)) .empty hfin (fun _ _ => by decide) hop
  refine ⟨_, hop, (unread_exact hrun).resolve_left fun habs => ?_⟩
  have hmeta := habs.metadata
  rw [insertAll_concat, show (firstDraft.pointer 1 firstMessage (F64.ofNat 10)).1 = .metadata 1 2 from rfl, Kv.at_insert,
    if_pos rfl] at hmeta
  cases hmeta

/-! ## A message its sender takes back -/

theorem messages_first : (firstDraft.placed 2 firstMessage).messages = [firstMessage] := by
  have hf : ¬ firstDraft.Full := by simp [firstDraft, Draft.Full, emptyPage, MESSAGES_PER_PAGE]
  rw [Draft.placed, if_neg hf]
  simp [firstDraft, place, emptyPage]

theorem readable_first : (firstDraft.placed 2 firstMessage).Readable := by
  have hbounds : (firstDraft.placed 2 firstMessage).pageTimestamps = bounds [firstMessage] firstMessage.timestamp := by
    rw [← messages_first]
    rfl
  refine ⟨by rw [hbounds]; decide +kernel, by rw [hbounds]; decide +kernel, fun m hm => ?_⟩
  rw [messages_first, List.mem_singleton] at hm
  subst hm
  exact ⟨by decide +kernel, by decide +kernel, fun list hlist => (nomatch hlist), fun list hlist => (nomatch hlist)⟩

def firstMetadata : ConversationMetadata := (firstDraft.recorded 1 firstMessage (F64.ofNat 10)).norm

theorem exec_append_first : ∃ kv r, Kv.exec (append 1 2 firstMessage none (F64.ofNat 10)) ∅ = (.ok r, kv) ∧
    metadataOf kv 1 2 = .ok (some firstMetadata) ∧
    pageOf kv 1 2 0 = .ok (some (firstDraft.placed 2 firstMessage).norm) := by
  obtain ⟨placed, hw⟩ := writes_first
  have hreadable : (firstDraft.recorded 1 firstMessage (F64.ofNat 10)).Readable := by
    constructor <;> decide +kernel
  refine ⟨_, _, exec_append_of_draft draftOf_first hw (F64.ofNat 10), ?_, ?_⟩
  · rw [insertAll_concat, show firstDraft.pointer 1 firstMessage (F64.ofNat 10) =
      (.metadata 1 2, metadataBytes (firstDraft.recorded 1 firstMessage (F64.ofNat 10))) from rfl,
      metadataOf_insert_metadata, if_pos rfl, recordRead_metadataBytes]
    exact ⟨hreadable, rfl⟩
  · have hf : ¬ firstDraft.Full := by simp [firstDraft, Draft.Full, emptyPage, MESSAGES_PER_PAGE]
    rw [Draft.Writes, if_neg hf] at hw
    obtain ⟨b, hb, heq⟩ := hw
    obtain rfl : placed = b := (Prod.mk.inj (List.head_eq_of_cons_eq heq)).2
    rw [insertAll_concat, show firstDraft.pointer 1 firstMessage (F64.ofNat 10) =
      (.metadata 1 2, metadataBytes (firstDraft.recorded 1 firstMessage (F64.ofNat 10))) from rfl,
      pageOf_insert_metadata]
    show pageOf ((∅ : Kv).insert (Place.messages 1 2 0).name placed) 1 2 0 = _
    rw [pageOf_saved hb readable_first, if_pos rfl]

theorem foundIn_only {m : ConversationMetadata} {p : ConversationPage} {message : ConversationMessage}
    (hmeta : metadataOf kv own peer = .ok (some m)) (hlatest : m.latestPage = 0) (hpage : pageOf kv own peer 0 = .ok (some p))
    (honly : p.messages = [message]) :
    ∃ f, foundIn kv own peer message.id = .ok (some f) ∧ f.metadata = m ∧ f.page = p ∧ f.message = message := by
  have hmem : message ∈ p.messages := by rw [honly]; exact List.mem_singleton_self _
  have hindex : ∃ index, p.messages.findFinIdx? (hasId message.id) = some index := by
    refine Option.ne_none_iff_exists'.mp fun hnone => ?_
    have hall := List.findFinIdx?_eq_none_iff.mp hnone message hmem
    simp [hasId] at hall
  obtain ⟨index, hindex⟩ := hindex
  refine ⟨⟨m, p, index⟩, ?_, rfl, rfl, ?_⟩
  · rw [foundIn, hmeta]
    simp only [hlatest, show (pagesTo 0).reverse = [0] from rfl, foundOn, hpage, hindex]
  · have hget : p.messages.get index ∈ [message] := honly ▸ List.get_mem _ _
    exact List.mem_singleton.mp hget

/-- The peer takes its only message back, and the count still says one. -/
theorem removed_stays_counted : ∃ kv kv',
    Kv.exec ((StoreOp.append firstMessage none (F64.ofNat 10)).program 1 2) ∅ = (.ok (), kv) ∧
    Kv.exec ((StoreOp.revise "m1" 2 .delete (F64.ofNat 11)).program 1 2) kv = (.ok (), kv') ∧
    ∃ m p, Kv.exec (loadMetadata 1 2) kv' = (.ok (some m), kv') ∧ m.latestPage = 0 ∧ m.unreadCount = F64.ofNat 1 ∧
      Kv.exec (loadPage 1 2 0) kv' = (.ok (some p), kv') ∧ p.messages = [] := by
  obtain ⟨kv, r, hadded, hmeta, hpage⟩ := exec_append_first
  have honly : (firstDraft.placed 2 firstMessage).norm.messages = [firstMessage.norm] := by
    rw [ConversationPage.norm, messages_first]
    rfl
  obtain ⟨f, hfound, hfm, hfp, hf⟩ := foundIn_only hmeta rfl hpage honly
  have hfind : Kv.exec (find 1 2 "m1") kv = (.ok (some f), kv) := by
    rw [exec_find]
    exact congrArg (·, kv) hfound
  have hnone : f.removed.messages = [] := by
    have hlen := f.length_removed
    rw [hfp, honly, List.length_singleton] at hlen
    exact List.length_eq_zero_iff.mp (by omega)
  have hwritable : f.removed.FiniteReactions := by
    intro m hm
    rw [hnone] at hm
    cases hm
  obtain ⟨b, hb⟩ : ∃ b, encodePage f.removed = .ok b := ⟨_, (encodePage_eq_ok _ _).mpr ⟨hwritable, rfl⟩⟩
  let after : ConversationMetadata := { firstMetadata with
    totalMessageCount := (firstMetadata.totalMessageCount.sub (F64.ofNat 1)).max (F64.ofNat 0)
    lastUpdated := F64.ofNat 11 }
  have hreadable : after.Readable := by constructor <;> decide +kernel
  let kv' := (kv.insert (Place.messages 1 2 0).name b).insert (Place.metadata 1 2).name (metadataBytes after)
  have hremoved : Kv.exec (remove 1 2 "m1" (F64.ofNat 11)) kv = (.ok true, kv') := by
    refine Kv.exec_bind_eq_ok.mpr ⟨_, _, hfind, Kv.exec_bind_eq_ok.mpr ⟨(), _, exec_savePage_eq_ok.mpr ⟨b, hb, rfl⟩, ?_⟩⟩
    rw [show f.removed.peerCid = 2 from congrArg (·.peerCid) hfp, show f.removed.pageNumber = 0 from congrArg (·.pageNumber) hfp,
      hfm]
    exact Kv.exec_bind_eq_ok.mpr ⟨(), _, exec_saveMetadata 1 after _, rfl⟩
  have hsender : f.message.senderCid = 2 := by rw [hf]; rfl
  have hrevised : Kv.exec (revise 1 2 "m1" 2 .delete (F64.ofNat 11)) kv = (.ok (.applied f.message), kv') := by
    refine Kv.exec_bind_eq_ok.mpr ⟨_, _, hfind, ?_⟩
    simp only [hsender, ne_eq, not_true_eq_false, if_false]
    exact Kv.exec_bind_eq_ok.mpr ⟨_, _, hremoved, rfl⟩
  refine ⟨kv, kv', StoreOp.exec_discard.mpr ⟨r, hadded⟩, StoreOp.exec_discard.mpr ⟨_, hrevised⟩, after.norm,
    f.removed.norm, ?_, rfl, by decide +kernel, ?_, ?_⟩
  · rw [exec_loadMetadata, metadataOf_insert_metadata, if_pos rfl,
      (recordRead_metadataBytes after (some after.norm)).mpr ⟨hreadable, rfl⟩]
  · have hbounds : f.removed.pageTimestamps = (firstDraft.placed 2 firstMessage).norm.pageTimestamps :=
      congrArg (·.pageTimestamps) hfp
    have hread : f.removed.Readable := by
      refine ⟨?_, ?_, fun m hm => ?_⟩
      · rw [hbounds]
        exact (F64.isFinite_norm _).trans readable_first.minTimestamp
      · rw [hbounds]
        exact (F64.isFinite_norm _).trans readable_first.maxTimestamp
      · rw [hnone] at hm
        cases hm
    rw [exec_loadPage, pageOf_insert_metadata, pageOf_saved hb hread, if_pos rfl]
  · rw [ConversationPage.norm, hnone]
    rfl

end CitadelAgent.Conversations
