import CitadelAgent.Conversations.Append
import CitadelAgent.Conversations.Shape

/-!
# A conversation and its records

* `Conversation` : a metadata record and its pages, `Holds` that a bucket has their stored form;
* `Conversation.Ok` : pages up to the newest, each in order, within its bounds and not over-full, a count that is their
  sum, and an oldest mark below every message.
-/

namespace CitadelAgent.Conversations
open Store StoreRules Result

instance fintypeUInt32 : Fintype UInt32 := Fintype.ofEquiv (Fin UInt32.size) ⟨UInt32.ofFin, UInt32.toFin, fun _ => rfl, fun _ => rfl⟩

/-! ## Conversations and their records -/

structure Conversation where
  metadata : ConversationMetadata
  pages : UInt32 → Option ConversationPage

namespace Conversation

def size : Option ConversationPage → Nat
  | some p => p.messages.length
  | none => 0

def count (pages : UInt32 → Option ConversationPage) : Nat := ∑ n, size (pages n)

structure Ok (own peer : Cid) (c : Conversation) : Prop where
  peerCid : c.metadata.peerCid = peer
  ownerCid : c.metadata.ownerCid = some own
  pages : ∀ n p, c.pages n = some p → p.Ok peer n
  latest : ∀ n p, c.pages n = some p → n ≤ c.metadata.latestPage
  total : c.metadata.totalMessageCount = F64.ofNat (count c.pages)
  oldestFinite : c.metadata.oldestMessageTimestamp.isFinite = true
  oldest : ∀ n p, c.pages n = some p → ∀ t ∈ p.times, c.metadata.oldestMessageTimestamp.scaled ≤ t

theorem count_lt {pages : UInt32 → Option ConversationPage} {peer : Cid}
    (h : ∀ n p, pages n = some p → p.Ok peer n) : count pages + 1 < 2 ^ 53 := by
  have hpage : ∀ n ∈ (Finset.univ : Finset UInt32), size (pages n) ≤ MESSAGES_PER_PAGE := by
    intro n _
    cases hn : pages n with
    | none => exact Nat.zero_le _
    | some p => exact (h n p hn).length
  have hle := Finset.sum_le_card_nsmul _ _ _ hpage
  have hcard : Fintype.card UInt32 = 2 ^ 32 := by
    rw [Fintype.ofEquiv_card, Fintype.card_fin]
    rfl
  rw [Finset.card_univ, hcard, nsmul_eq_mul, Nat.cast_id] at hle
  unfold count
  unfold MESSAGES_PER_PAGE at hle
  omega

theorem sum_update (g : Option ConversationPage → Nat) (pages : UInt32 → Option ConversationPage) (n : UInt32)
    (page : Option ConversationPage) :
    ∑ k, g (Function.update pages n page k) + g (pages n) = ∑ k, g (pages k) + g page := by
  have hupd : (fun k => g (Function.update pages n page k)) = Function.update (fun k => g (pages k)) n (g page) := by
    funext k
    by_cases hk : k = n
    · simp [hk]
    · simp [hk]
  have hsum := Finset.sum_update_of_mem (Finset.mem_univ n) (fun k => g (pages k)) (g page)
  have hsplit := Finset.add_sum_erase Finset.univ (fun k => g (pages k)) (Finset.mem_univ n)
  rw [hupd, hsum, ← hsplit, Finset.sdiff_singleton_eq_erase]
  omega

theorem count_update (pages : UInt32 → Option ConversationPage) (n : UInt32) (page : Option ConversationPage) :
    count (Function.update pages n page) + size (pages n) = count pages + size page := sum_update size pages n page

def isUnread (peer : Cid) (m : ConversationMessage) : Bool := m.senderCid = peer ∧ m.status = .delivered

def unreadOn (peer : Cid) : Option ConversationPage → Nat
  | some p => p.messages.countP (isUnread peer)
  | none => 0

def unread (peer : Cid) (pages : UInt32 → Option ConversationPage) : Nat := ∑ n, unreadOn peer (pages n)

theorem unread_update (peer : Cid) (pages : UInt32 → Option ConversationPage) (n : UInt32) (page : Option ConversationPage) :
    unread peer (Function.update pages n page) + unreadOn peer (pages n) = unread peer pages + unreadOn peer page :=
  sum_update (unreadOn peer) pages n page

theorem unread_le_count (peer : Cid) (pages : UInt32 → Option ConversationPage) : unread peer pages ≤ count pages := by
  refine Finset.sum_le_sum fun n _ => ?_
  cases pages n with
  | none => exact Nat.le_refl 0
  | some p => exact List.countP_le_length

@[simp] theorem countP_isUnread_norm (peer : Cid) (p : ConversationPage) :
    p.norm.messages.countP (isUnread peer) = p.messages.countP (isUnread peer) := List.countP_map

end Conversation

open Conversation (isUnread unreadOn unread unread_update countP_isUnread_norm)

/-- The bucket has the stored form of each page, and no other. -/
def HoldsPages (kv : Kv) (own peer : Cid) (pages : UInt32 → Option ConversationPage) : Prop :=
  ∀ n, kv.at_ (.messages own peer n) = (pages n).map pageBytes

structure Holds (kv : Kv) (own peer : Cid) (c : Conversation) : Prop where
  metadata : kv.at_ (.metadata own peer) = some (metadataBytes c.metadata)
  pages : HoldsPages kv own peer c.pages

/-- The bucket has no record of the conversation. -/
structure Absent (kv : Kv) (own peer : Cid) : Prop where
  metadata : kv.at_ (.metadata own peer) = none
  pages : ∀ n, kv.at_ (.messages own peer n) = none

def Good (kv : Kv) (own peer : Cid) : Prop := Absent kv own peer ∨ ∃ c, Holds kv own peer c ∧ c.Ok own peer

def NoLegacy (kv : Kv) : Prop := ∀ q part, kv.at_ ⟨none, q, part⟩ = none

/-- Every record outside the conversation is as it was. -/
def Frame (own peer : Cid) (kv kv' : Kv) : Prop :=
  ∀ p : Place, ¬ (p.owner = some own ∧ p.peer = peer) → kv'.at_ p = kv.at_ p

theorem Frame.refl (own peer : Cid) (kv : Kv) : Frame own peer kv kv := fun _ _ => rfl

theorem Frame.trans {own peer : Cid} {kv kv₁ kv₂ : Kv} (h : Frame own peer kv kv₁) (h' : Frame own peer kv₁ kv₂) :
    Frame own peer kv kv₂ := fun p hp => (h' p hp).trans (h p hp)

theorem Frame.insert (own peer : Cid) (part : Option UInt32) (kv : Kv) (b : Bytes) :
    Frame own peer kv (kv.insert (Place.mk (some own) peer part).name b) := by
  intro p hp
  rw [Kv.at_insert, if_neg]
  rintro rfl
  exact hp ⟨rfl, rfl⟩

theorem NoLegacy.frame {own peer : Cid} {kv kv' : Kv} (h : NoLegacy kv) (hf : Frame own peer kv kv') : NoLegacy kv' :=
  fun q part => (hf _ (by simp)).trans (h q part)

/-! ## Reading a conversation -/

section Reading

variable {kv : Kv} {own peer : Cid} {pages : UInt32 → Option ConversationPage} {c : Conversation}

theorem pageOf_holds (hl : NoLegacy kv) (hp : HoldsPages kv own peer pages) (hok : ∀ n p, pages n = some p → p.Ok peer n)
    {n : UInt32} {found : Option ConversationPage} (h : pageOf kv own peer n = .ok found) :
    found = (pages n).map ConversationPage.norm := by
  unfold pageOf at h
  rw [pageAtPlace, hp n] at h
  cases hn : pages n with
  | none =>
    rw [hn, pageAtPlace, hl] at h
    simp only [Option.map_none, recordRead] at h
    exact (Except.ok.inj h).symm
  | some p =>
    have hencode : encodePage p = .ok (pageBytes p) := (encodePage_eq_ok _ _).mpr ⟨(hok n p hn).writable, rfl⟩
    rw [hn, Option.map_some, recordRead] at h
    cases hq : decodePage (pageBytes p) with
    | error e => simp [hq] at h
    | ok q =>
      obtain ⟨-, rfl⟩ := (decodePage_encodePage hencode q).mp hq
      simp only [hq] at h
      exact (Except.ok.inj h).symm

theorem metadataOf_holds (hc : Holds kv own peer c) {found : Option ConversationMetadata}
    (h : metadataOf kv own peer = .ok found) : found = some c.metadata.norm := by
  unfold metadataOf at h
  rw [metadataAtPlace, hc.metadata, recordRead] at h
  cases hq : decodeMetadata (metadataBytes c.metadata) with
  | error e => simp [hq] at h
  | ok q =>
    obtain ⟨-, rfl⟩ := (decodeMetadata_encodeMetadata (encodeMetadata_ok _) q).mp hq
    simp only [hq] at h
    exact (Except.ok.inj h).symm

theorem metadataOf_absent (hl : NoLegacy kv) (ha : Absent kv own peer) : metadataOf kv own peer = .ok none := by
  have hlegacy : kv.at_ (.legacyMetadata peer) = none := hl peer none
  simp [metadataOf, metadataAtPlace, ha.metadata, hlegacy, recordRead]

theorem ok_of_pageOf (hl : NoLegacy kv) (hp : HoldsPages kv own peer pages)
    (hok : ∀ n p, pages n = some p → p.Ok peer n) {n : UInt32} {page : ConversationPage}
    (h : pageOf kv own peer n = .ok (some page)) : ∃ p, pages n = some p ∧ page = p.norm ∧ page.Ok peer n := by
  have hfound := pageOf_holds hl hp hok h
  cases hn : pages n with
  | none => simp [hn] at hfound
  | some p =>
    rw [hn, Option.map_some, Option.some.injEq] at hfound
    refine ⟨p, rfl, hfound, ?_⟩
    have hsound := (sound_of_pageOf h).finiteReactions
    rw [hfound] at hsound ⊢
    exact (hok n p hn).norm hsound

end Reading

/-! ## Writing a conversation -/

/-- In the middle of an operation that started on `kv₀`: the pages so far, and the metadata as it was. -/
structure Mid (kv₀ : Kv) (own peer : Cid) (pages : UInt32 → Option ConversationPage) (kv : Kv) : Prop where
  holds : HoldsPages kv own peer pages
  ok : ∀ n p, pages n = some p → p.Ok peer n
  metadata : kv.at_ (.metadata own peer) = kv₀.at_ (.metadata own peer)
  frame : Frame own peer kv₀ kv

structure Kept (own peer : Cid) (kv kv' : Kv) : Prop where
  good : Good kv' own peer
  frame : Frame own peer kv kv'

/-- What an operation on one conversation leaves, when that is the conversation `c`. -/
structure Left (own peer : Cid) (kv kv' : Kv) (c : Conversation) : Prop where
  holds : Holds kv' own peer c
  ok : c.Ok own peer
  frame : Frame own peer kv kv'

section Writing

variable {kv₀ kv kv' : Kv} {own peer : Cid} {pages : UInt32 → Option ConversationPage} {c : Conversation}

theorem Left.kept (h : Left own peer kv kv' c) : Kept own peer kv kv' := ⟨.inr ⟨c, h.holds, h.ok⟩, h.frame⟩

theorem Mid.start (h : HoldsPages kv own peer pages) (hok : ∀ n p, pages n = some p → p.Ok peer n) :
    Mid kv own peer pages kv := ⟨h, hok, rfl, Frame.refl _ _ _⟩

theorem Mid.write (h : Mid kv₀ own peer pages kv) {n : UInt32} {p : ConversationPage} (hp : p.Ok peer n) :
    Mid kv₀ own peer (Function.update pages n (some p)) (kv.insert (Place.messages own peer n).name (pageBytes p)) where
  holds := by
    intro k
    rw [Kv.at_insert]
    by_cases hk : k = n
    · simp [hk]
    · simp [hk, h.holds k]
  ok := by
    intro k q hq
    by_cases hk : k = n
    · subst hk
      rw [Function.update_self, Option.some.injEq] at hq
      exact hq ▸ hp
    · rw [Function.update_of_ne hk] at hq
      exact h.ok k q hq
  metadata := by
    rw [Kv.at_insert, if_neg (by simp)]
    exact h.metadata
  frame := h.frame.trans (Frame.insert own peer (some n) kv _)

theorem Mid.savePage (h : Mid kv₀ own peer pages kv) {n : UInt32} {p : ConversationPage} {u : Unit}
    (hs : Kv.exec (savePage own p) kv = (.ok u, kv')) (hp : p.FiniteReactions → p.Ok peer n) :
    Mid kv₀ own peer (Function.update pages n (some p)) kv' := by
  obtain ⟨b, hb, rfl⟩ := exec_savePage_eq_ok.mp hs
  obtain ⟨hw, rfl⟩ := (encodePage_eq_ok _ _).mp hb
  have hok := hp hw
  rw [hok.peerCid, hok.pageNumber]
  exact h.write hok

theorem Mid.writeMetadata (h : Mid kv₀ own peer pages kv) {m : ConversationMetadata}
    (hok : (Conversation.mk m pages).Ok own peer) :
    Left own peer kv₀ (kv.insert (Place.metadata own peer).name (metadataBytes m)) ⟨m, pages⟩ := by
  refine ⟨⟨?_, fun n => ?_⟩, hok, h.frame.trans (Frame.insert own peer none kv _)⟩
  · rw [Kv.at_insert, if_pos rfl]
  · rw [Kv.at_insert, if_neg (by simp)]
    exact h.holds n

theorem Mid.saveMetadata (h : Mid kv₀ own peer pages kv) {m : ConversationMetadata} {u : Unit}
    (hs : Kv.exec (saveMetadata own m) kv = (.ok u, kv')) (hok : (Conversation.mk m pages).Ok own peer) :
    Left own peer kv₀ kv' ⟨m, pages⟩ := by
  rw [exec_saveMetadata, show m.peerCid = peer from hok.peerCid] at hs
  obtain ⟨-, rfl⟩ := Prod.mk.inj hs
  exact h.writeMetadata hok

theorem Mid.finish (h : Mid kv₀ own peer pages kv) (hc : Holds kv₀ own peer c)
    (hok : (Conversation.mk c.metadata pages).Ok own peer) : Left own peer kv₀ kv ⟨c.metadata, pages⟩ :=
  ⟨⟨h.metadata.trans hc.metadata, h.holds⟩, hok, h.frame⟩

theorem Kept.unchanged (h : Good kv own peer) : Kept own peer kv kv := ⟨h, Frame.refl _ _ _⟩

def Shrunk (pages pages' : UInt32 → Option ConversationPage) : Prop :=
  ∀ n p', pages' n = some p' → ∃ p, pages n = some p ∧ p'.times ⊆ p.times

structure SameMarks (m m' : ConversationMetadata) : Prop where
  peerCid : m'.peerCid = m.peerCid
  ownerCid : m'.ownerCid = m.ownerCid
  latestPage : m'.latestPage = m.latestPage
  oldest : m'.oldestMessageTimestamp.norm = m.oldestMessageTimestamp.norm

theorem Conversation.Ok.shrunk {m' : ConversationMetadata} (h : c.Ok own peer) (hs : Shrunk c.pages pages)
    (hok : ∀ n p, pages n = some p → p.Ok peer n) (hm : SameMarks c.metadata m')
    (htotal : m'.totalMessageCount = F64.ofNat (count pages)) : (Conversation.mk m' pages).Ok own peer where
  peerCid := hm.peerCid.trans h.peerCid
  ownerCid := hm.ownerCid.trans h.ownerCid
  pages := hok
  latest := by
    intro n p' hp'
    obtain ⟨p, hp, -⟩ := hs n p' hp'
    show n ≤ m'.latestPage
    rw [hm.latestPage]
    exact h.latest n p hp
  total := htotal
  oldestFinite := by
    show m'.oldestMessageTimestamp.isFinite = true
    rw [← F64.isFinite_norm, hm.oldest, F64.isFinite_norm, h.oldestFinite]
  oldest := by
    intro n p' hp' t ht
    obtain ⟨p, hp, hsub⟩ := hs n p' hp'
    show m'.oldestMessageTimestamp.scaled ≤ t
    rw [← F64.scaled_norm, hm.oldest, F64.scaled_norm]
    exact h.oldest n p hp t (hsub ht)

theorem Conversation.count_congr {pages pages' : UInt32 → Option ConversationPage}
    (h : ∀ n, size (pages' n) = size (pages n)) : count pages' = count pages :=
  Finset.sum_congr rfl fun n _ => h n

theorem Conversation.Ok.total_norm (h : c.Ok own peer) :
    c.metadata.norm.totalMessageCount = F64.ofNat (count c.pages) := by
  have hlt := count_lt h.pages
  show c.metadata.totalMessageCount.norm = _
  rw [h.total, F64.norm_ofNat (by omega)]

end Writing

end CitadelAgent.Conversations
