import CitadelAgent.Conversations.StoreLeaves

/-!
# The representation invariant of a conversation

* `StoreOp` : the operations that change a conversation, `StoreOp.Leaves` what each makes of one;
* `StoreOp.keeps` : each keeps it as it should be;
* `run_invariant` : so that every run from an empty bucket has it.
-/

namespace CitadelAgent.Conversations
open Store StoreRules Result Conversation

/-! ## Every run -/

inductive StoreOp
  | append (message : ConversationMessage) (peerUsername : Option String) (now : F64)
  | setStatus (id : String) (status : MessageStatus) (error : Option String)
  | patch (id : String) (p : MessagePatch)
  | react (id : String) (change : Reaction)
  | revise (id : String) (reviser : Cid) (revision : Revision) (now : F64)
  | remove (id : String) (now : F64)
  | markRead (now : F64)
  | pruneOlderThan (cutoff now : F64)
  | setPeerUsername (username : String) (now : F64)
  | delete (includeUnattributed : Bool)

variable {kv : Kv} {m m' : ConversationMessage} {op : StoreOp}

namespace StoreOp

def program (own peer : Cid) : StoreOp → KvM Unit
  | .append message name now => discard (Store.append own peer message name now)
  | .setStatus id status error => discard (Store.setStatus own peer id status error)
  | .patch id p => discard (Store.patch own peer id p)
  | .react id change => discard (Store.react own peer id change)
  | .revise id reviser revision now => discard (Store.revise own peer id reviser revision now)
  | .remove id now => discard (Store.remove own peer id now)
  | .markRead now => discard (Store.markRead own peer now)
  | .pruneOlderThan cutoff now => discard (Store.pruneOlderThan own peer cutoff now)
  | .setPeerUsername username now => Store.setPeerUsername own peer username now
  | .delete includeUnattributed => discard (Store.delete own peer includeUnattributed)

def FiniteTime : StoreOp → Prop
  | .append message _ _ => message.timestamp.isFinite = true
  | _ => True

theorem exec_discard {α : Type} {x : KvM α} {kv' : Kv} :
    Kv.exec (discard x) kv = (.ok (), kv') ↔ ∃ a, Kv.exec x kv = (.ok a, kv') := by
  constructor
  · intro h
    obtain ⟨a, kv₁, hx, hdone⟩ := Kv.exec_bind_eq_ok.mp h
    cases hdone
    exact ⟨a, hx⟩
  · rintro ⟨a, hx⟩
    exact Kv.exec_bind_eq_ok.mpr ⟨a, kv', hx, rfl⟩

def statusSet (status : MessageStatus) (error : Option String) (m : ConversationMessage) : Option ConversationMessage :=
  if statusAdvances m.status status then some { m with status, error := if status = .failed then error else none } else none

def reacted (change : Reaction) (m : ConversationMessage) : Option ConversationMessage :=
  (Reactions.fold m.reactions change).map fun list => { m with reactions := some list }

theorem timestamp_statusSet {status : MessageStatus} {error : Option String}
    (h : statusSet status error m = some m') : m'.timestamp = m.timestamp := by
  unfold statusSet at h
  split at h
  · cases h
    rfl
  · cases h

theorem timestamp_reacted {change : Reaction} (h : reacted change m = some m') :
    m'.timestamp = m.timestamp := by
  obtain ⟨list, -, rfl⟩ := Option.map_eq_some_iff.mp h
  rfl

theorem timestamp_applyPatch {p : MessagePatch} (h : applyPatch p m = some m') :
    m'.timestamp = m.timestamp := by
  simp only [applyPatch] at h
  split at h
  · cases h
    rfl
  · cases h

variable {kv kv' : Kv} {own peer : Cid} {c : Conversation}

def Leaves (own peer : Cid) (kv kv' : Kv) (c : Conversation) : StoreOp → Prop
  | .append message _ _ => Appended own peer kv kv' c message
  | .setStatus id status error => Replaced own peer kv kv' c id (statusSet status error)
  | .patch id p => Replaced own peer kv kv' c id (applyPatch p)
  | .react id change => Replaced own peer kv kv' c id (reacted change)
  | .revise id reviser revision _ => RevisedBy own peer kv kv' c id reviser revision
  | .remove id _ => Removed own peer kv kv' c id
  | .markRead _ => ∃ m pages' read, m.unreadCount = F64.ofNat 0 ∧
      Marked peer (wantedOf c.metadata.norm) (pagesTo c.metadata.latestPage).reverse c.pages pages' [] read ∧
      Left own peer kv kv' ⟨m, pages'⟩
  | .pruneOlderThan cutoff _ => kv' = kv ∨ ∃ m pages', (m = c.metadata ∨ m.unreadCount = c.metadata.norm.unreadCount) ∧
      (UnreadKept peer cutoff c.pages → unread peer pages' = unread peer c.pages) ∧ Left own peer kv kv' ⟨m, pages'⟩
  | .setPeerUsername _ _ => kv' = kv ∨ ∃ m, m.unreadCount = c.metadata.norm.unreadCount ∧
      Left own peer kv kv' ⟨m, c.pages⟩
  | .delete _ => kv' = kv ∨ Absent kv' own peer ∧ Frame own peer kv kv'

theorem leaves (hl : NoLegacy kv) (hc : Holds kv own peer c) (hok : c.Ok own peer) (hfin : op.FiniteTime)
    (h : Kv.exec (op.program own peer) kv = (.ok (), kv')) : op.Leaves own peer kv kv' c := by
  cases op with
  | append message name now =>
    obtain ⟨r, hr⟩ := exec_discard.mp h
    exact append_leaves hl hc hok hfin hr
  | setStatus id status error =>
    obtain ⟨r, hr⟩ := exec_discard.mp h
    exact update_leaves hl hc hok (fun m m' hm => timestamp_statusSet hm) hr
  | patch id p =>
    obtain ⟨r, hr⟩ := exec_discard.mp h
    exact update_leaves hl hc hok (fun m m' hm => timestamp_applyPatch hm) hr
  | react id change =>
    obtain ⟨r, hr⟩ := exec_discard.mp h
    exact update_leaves hl hc hok (fun m m' hm => timestamp_reacted hm) hr
  | revise id reviser revision now =>
    obtain ⟨r, hr⟩ := exec_discard.mp h
    exact revise_leaves hl hc hok hr
  | remove id now =>
    obtain ⟨r, hr⟩ := exec_discard.mp h
    exact remove_leaves hl hc hok hr
  | markRead now =>
    obtain ⟨r, hr⟩ := exec_discard.mp h
    exact markRead_leaves hl hc hok hr
  | pruneOlderThan cutoff now =>
    obtain ⟨r, hr⟩ := exec_discard.mp h
    exact pruneOlderThan_leaves hl hc hok hr
  | setPeerUsername username now => exact setPeerUsername_leaves hc hok h
  | delete includeUnattributed =>
    obtain ⟨r, hr⟩ := exec_discard.mp h
    exact delete_leaves hl hc hok hr

theorem leaves_absent (hl : NoLegacy kv) (ha : Absent kv own peer) (hfin : op.FiniteTime)
    (h : Kv.exec (op.program own peer) kv = (.ok (), kv')) : kv' = kv ∨
      ∃ message name now, op = .append message name now ∧ Appended own peer kv kv' (.fresh own peer message name) message := by
  cases op with
  | append message name now =>
    obtain ⟨r, hr⟩ := exec_discard.mp h
    exact .inr ⟨message, name, now, rfl, append_absent hl ha hfin hr⟩
  | setStatus id status error =>
    obtain ⟨r, hr⟩ := exec_discard.mp h
    exact .inl (update_absent hl ha hr)
  | patch id p =>
    obtain ⟨r, hr⟩ := exec_discard.mp h
    exact .inl (update_absent hl ha hr)
  | react id change =>
    obtain ⟨r, hr⟩ := exec_discard.mp h
    exact .inl (update_absent hl ha hr)
  | revise id reviser revision now =>
    obtain ⟨r, hr⟩ := exec_discard.mp h
    exact .inl (revise_absent hl ha hr)
  | remove id now =>
    obtain ⟨r, hr⟩ := exec_discard.mp h
    exact .inl (remove_absent hl ha hr)
  | markRead now =>
    obtain ⟨r, hr⟩ := exec_discard.mp h
    exact .inl (markRead_absent hl ha hr)
  | pruneOlderThan cutoff now =>
    obtain ⟨r, hr⟩ := exec_discard.mp h
    exact .inl (pruneOlderThan_absent hl ha hr)
  | setPeerUsername username now => exact .inl (setPeerUsername_absent hl ha h)
  | delete includeUnattributed =>
    obtain ⟨r, hr⟩ := exec_discard.mp h
    exact .inl (delete_absent hl ha hr)

theorem Appended.kept {message : ConversationMessage} (hg : Good kv own peer) (h : Appended own peer kv kv' c message) :
    Kept own peer kv kv' := by
  rcases h with rfl | ⟨d, now, pages, -, hgains⟩
  · exact .unchanged hg
  · exact hgains.left.kept

theorem Replaced.kept {id : String} {change : ConversationMessage → Option ConversationMessage} (hg : Good kv own peer)
    (h : Replaced own peer kv kv' c id change) : Kept own peer kv kv' := by
  rcases h with rfl | ⟨n, p, f, changed, -, -, -, hleft⟩
  · exact .unchanged hg
  · exact hleft.kept

theorem Removed.kept {id : String} (hg : Good kv own peer) (h : Removed own peer kv kv' c id) : Kept own peer kv kv' := by
  rcases h with rfl | ⟨n, p, f, m, -, -, -, hleft⟩
  · exact .unchanged hg
  · exact hleft.kept

theorem Leaves.kept (hg : Good kv own peer) (h : op.Leaves own peer kv kv' c) : Kept own peer kv kv' := by
  cases op with
  | append message name now => exact Appended.kept hg h
  | setStatus id status error => exact Replaced.kept hg h
  | patch id p => exact Replaced.kept hg h
  | react id change => exact Replaced.kept hg h
  | revise id reviser revision now =>
    cases revision with
    | edit contents editedAt => exact Replaced.kept hg h
    | delete =>
      rcases h with rfl | ⟨-, h⟩
      · exact .unchanged hg
      · exact Removed.kept hg h
  | remove id now => exact Removed.kept hg h
  | markRead now =>
    obtain ⟨m, pages', read, -, -, hleft⟩ := h
    exact hleft.kept
  | pruneOlderThan cutoff now =>
    rcases h with rfl | ⟨m, pages', -, -, hleft⟩
    · exact .unchanged hg
    · exact hleft.kept
  | setPeerUsername username now =>
    rcases h with rfl | ⟨m, -, hleft⟩
    · exact .unchanged hg
    · exact hleft.kept
  | delete includeUnattributed =>
    rcases h with rfl | ⟨hgone, hframe⟩
    · exact .unchanged hg
    · exact ⟨.inl hgone, hframe⟩

theorem keeps (hl : NoLegacy kv) (hg : Good kv own peer) (hfin : op.FiniteTime)
    (h : Kv.exec (op.program own peer) kv = (.ok (), kv')) : Kept own peer kv kv' := by
  rcases hg with habs | ⟨c, hc, hok⟩
  · rcases leaves_absent hl habs hfin h with rfl | ⟨message, name, now, -, happended⟩
    · exact .unchanged (.inl habs)
    · exact Appended.kept (.inl habs) happended
  · exact (leaves hl hc hok hfin h).kept (.inr ⟨c, hc, hok⟩)

end StoreOp

/-- The buckets that successful operations, of any accounts on any conversations, reach from an empty one. -/
inductive Run : Kv → Prop
  | empty : Run ∅
  | step {kv kv' : Kv} (own peer : Cid) (op : StoreOp) (hrun : Run kv) (hfin : op.FiniteTime)
    (hstep : Kv.exec (op.program own peer) kv = (.ok (), kv')) : Run kv'

theorem Good.frame {kv' : Kv} {own peer own' peer' : Cid} (h : Good kv own peer) (hf : Frame own' peer' kv kv')
    (hne : ¬ (own = own' ∧ peer = peer')) : Good kv' own peer := by
  have hat : ∀ part, kv'.at_ ⟨some own, peer, part⟩ = kv.at_ ⟨some own, peer, part⟩ :=
    fun part => hf _ (by simpa using hne)
  rcases h with ⟨hmeta, hpages⟩ | ⟨c, ⟨hmeta, hpages⟩, hok⟩
  · exact .inl ⟨(hat none).trans hmeta, fun n => (hat _).trans (hpages n)⟩
  · exact .inr ⟨c, ⟨(hat none).trans hmeta, fun n => (hat _).trans (hpages n)⟩, hok⟩

theorem Run.good (h : Run kv) : NoLegacy kv ∧ ∀ own peer, Good kv own peer := by
  induction h with
  | empty => exact ⟨fun _ _ => rfl, fun _ _ => .inl ⟨rfl, fun _ => rfl⟩⟩
  | step own peer op _ hfin hstep ih =>
    obtain ⟨hl, hg⟩ := ih
    have hkept := StoreOp.keeps hl (hg own peer) hfin hstep
    refine ⟨hl.frame hkept.frame, fun own' peer' => ?_⟩
    by_cases hsame : own' = own ∧ peer' = peer
    · rw [hsame.1, hsame.2]
      exact hkept.good
    · exact (hg own' peer').frame hkept.frame hsame

/-- A page in order: not over-full, timestamps that do not decrease, all within the page's bounds. -/
structure InOrder (p : ConversationPage) : Prop where
  length : p.messages.length ≤ MESSAGES_PER_PAGE
  sorted : p.messages.Pairwise fun a b => a.timestamp.le b.timestamp = true
  within : ∀ m ∈ p.messages, p.pageTimestamps.minTimestamp.le m.timestamp = true ∧
    m.timestamp.le p.pageTimestamps.maxTimestamp = true

theorem ConversationPage.Ok.inOrder {p : ConversationPage} {peer : Cid} {n : UInt32} (h : p.Ok peer n) : InOrder p where
  length := h.length
  sorted := h.sorted.imp_of_mem fun ha hb hab => (F64.le_iff (h.finite _ ha) (h.finite _ hb)).mpr hab
  within := by
    intro m hm
    obtain ⟨hmin, hmax, hall⟩ := h.within (List.ne_nil_of_mem hm)
    obtain ⟨hlo, hhi⟩ := hall m hm
    exact ⟨(F64.le_iff hmin (h.finite m hm)).mpr hlo, (F64.le_iff (h.finite m hm) hmax).mpr hhi⟩

/-- After every run from an empty bucket a conversation has no records, or those of pages up to the newest and in
order, whose count is that of their messages, and whose oldest mark is not after any of them. -/
theorem run_invariant {kv : Kv} (h : Run kv) (own peer : Cid) : Absent kv own peer ∨ ∃ c : Conversation,
    Holds kv own peer c ∧ (∀ n p, c.pages n = some p → n ≤ c.metadata.latestPage) ∧
    (∀ n p, c.pages n = some p → InOrder p) ∧
    c.metadata.totalMessageCount = F64.ofNat (∑ n, Conversation.size (c.pages n)) ∧
    ∀ n p, c.pages n = some p → ∀ m ∈ p.messages, c.metadata.oldestMessageTimestamp.le m.timestamp = true := by
  refine (h.good.2 own peer).imp_right ?_
  rintro ⟨c, hc, hok⟩
  refine ⟨c, hc, hok.latest, fun n p hp => (hok.pages n p hp).inOrder, hok.total, fun n p hp m hm => ?_⟩
  rw [F64.le_iff hok.oldestFinite ((hok.pages n p hp).finite m hm)]
  exact hok.oldest n p hp _ (List.mem_map_of_mem hm)

theorem run_invariant_first : ∃ kv,
    Kv.exec ((StoreOp.append firstMessage none (F64.ofNat 10)).program 1 2) ∅ = (.ok (), kv) ∧ ∃ c : Conversation,
    Holds kv 1 2 c ∧ (∀ n p, c.pages n = some p → n ≤ c.metadata.latestPage) ∧
    (∀ n p, c.pages n = some p → InOrder p) ∧
    c.metadata.totalMessageCount = F64.ofNat (∑ n, Conversation.size (c.pages n)) ∧
    ∀ n p, c.pages n = some p → ∀ m ∈ p.messages, c.metadata.oldestMessageTimestamp.le m.timestamp = true := by
  obtain ⟨placed, hw⟩ := writes_first
  have hrun := exec_append_of_draft draftOf_first hw (F64.ofNat 10)
  have hop := StoreOp.exec_discard.mpr ⟨_, hrun⟩
  have hfin : firstMessage.timestamp.isFinite = true := by
    have h1 := F64.isFinite_ofNat (n := 1) (by decide)
    simp only [firstMessage, ConversationMessage.text, h1]
  refine ⟨_, hop, (run_invariant (.step 1 2 (.append firstMessage none (F64.ofNat 10)) .empty hfin hop) 1 2).resolve_left
    fun habs => ?_⟩
  have hmeta := habs.metadata
  rw [insertAll_concat, show (firstDraft.pointer 1 firstMessage (F64.ofNat 10)).1 = .metadata 1 2 from rfl, Kv.at_insert,
    if_pos rfl] at hmeta
  cases hmeta

end CitadelAgent.Conversations
