import CitadelAgent.Conversations.Ladder
import CitadelAgent.Conversations.Window

/-!
# What `mark_read` marks

* `asRead`, `exec_readPages` : the loop of `mark_read`, when it may mark as many messages as there are to mark;
* `Covers` : the unread count is not less than that, `CoveredRun.covered` on every run that tells it of each message;
* `mark_read_complete` : there `mark_read` marks all of them, lists them newest first, and changes nothing else.
-/

namespace CitadelAgent.Conversations
open Store StoreRules Result
open Conversation (isUnread unreadOn unread unread_update unread_le_count count_lt countP_isUnread_norm)

/-! ## The loop -/

/-- What `mark_read` makes of a message. -/
def asRead (peer : Cid) (m : ConversationMessage) : ConversationMessage := if isUnread peer m then { m with status := .read } else m

def ConversationPage.asRead (peer : Cid) (p : ConversationPage) : ConversationPage :=
  { p with messages := p.messages.map (Conversations.asRead peer) }

def afterRead (peer : Cid) : Except KvError (Option ConversationPage) → Except KvError (Option ConversationPage)
  | .ok (some p) => .ok (some (if p.messages.countP (isUnread peer) = 0 then p else (p.asRead peer).norm))
  | other => other

def markedOn (kv : Kv) (own peer : Cid) (numbers : List UInt32) : List ConversationMessage :=
  numbers.flatMap fun n => ((loadedOn kv own peer n).reverse.filter (isUnread peer)).map (asRead peer)

variable {numbers : List UInt32} {p : ConversationPage} {id : String}

section Loop

variable {own peer : Cid} {kv : Kv}

theorem asRead_of_not {m : ConversationMessage} (h : isUnread peer m = false) : asRead peer m = m := by
  rw [asRead, h]
  rfl

theorem asRead_of_unread {m : ConversationMessage} (h : isUnread peer m = true) : asRead peer m = { m with status := .read } := by
  rw [asRead, if_pos h]

theorem map_asRead_of_none {messages : List ConversationMessage} (h : messages.countP (isUnread peer) = 0) :
    messages.map (asRead peer) = messages := by
  refine (List.map_congr_left fun m hm => asRead_of_not ?_).trans (List.map_id _)
  exact Bool.eq_false_iff.mpr (List.countP_eq_zero.mp h m hm)

theorem readNewest_all {wanted : Nat} {read messages : List ConversationMessage}
    (h : read.length + messages.countP (isUnread peer) ≤ wanted) :
    readNewest peer wanted read messages =
      (read ++ (messages.filter (isUnread peer)).map (asRead peer), messages.map (asRead peer)) := by
  induction messages generalizing read with
  | nil => simp [readNewest]
  | cons m older ih =>
    rw [readNewest]
    split_ifs with hdone hm
    · -- It stops early only when nothing is left to mark.
      have hnone : (m :: older).countP (isUnread peer) = 0 := by omega
      rw [map_asRead_of_none hnone, List.filter_eq_nil_iff.mpr (List.countP_eq_zero.mp hnone), List.map_nil, List.append_nil]
    · have hunread : isUnread peer m = true := decide_eq_true hm
      rw [List.countP_cons_of_pos hunread] at h
      have hroom : (read ++ [asRead peer m]).length + older.countP (isUnread peer) ≤ wanted := by
        rw [List.length_append, List.length_singleton]
        omega
      dsimp only
      rw [← asRead_of_unread hunread, ih hroom, List.filter_cons_of_pos hunread, List.map_cons, List.map_cons, List.append_assoc,
        List.singleton_append]
    · have hunread : ¬ isUnread peer m = true := fun hin => hm (of_decide_eq_true hin)
      rw [List.countP_cons_of_neg hunread] at h
      dsimp only
      rw [ih h, List.filter_cons_of_neg hunread, List.map_cons, asRead_of_not (Bool.eq_false_iff.mpr hunread)]

theorem ConversationMessage.Sound.asRead {m : ConversationMessage} (h : m.Sound) : (asRead peer m).Sound := by
  rw [Conversations.asRead]
  split_ifs
  · exact ⟨h.timestamp, h.index, h.attachments, h.reactions⟩
  · exact h

theorem sound_asRead (peer : Cid) (h : p.Sound) : (p.asRead peer).Sound := by
  refine ⟨h.minTimestamp, h.maxTimestamp, fun m hm => ?_⟩
  obtain ⟨x, hx, rfl⟩ := List.mem_map.mp hm
  exact (h.messages x hx).asRead

theorem afterRead_of_none {n : UInt32} (h : (loadedOn kv own peer n).countP (isUnread peer) = 0) :
    afterRead peer (pageOf kv own peer n) = pageOf kv own peer n := by
  cases hp : pageOf kv own peer n with
  | error e => rfl
  | ok found =>
    cases found with
    | none => rfl
    | some p =>
      rw [loadedOn_eq hp] at h
      rw [afterRead, if_pos h]

theorem markedOn_congr {kv' : Kv} (h : ∀ n ∈ numbers, pageOf kv' own peer n = pageOf kv own peer n) :
    markedOn kv' own peer numbers = markedOn kv own peer numbers := by
  refine List.flatMap_congr fun n hn => ?_
  rw [loadedOn, loadedOn, h n hn]

theorem markedOn_of_none (h : (messagesOn kv own peer numbers).countP (isUnread peer) = 0) :
    markedOn kv own peer numbers = [] ∧ ∀ n ∈ numbers, (loadedOn kv own peer n).countP (isUnread peer) = 0 := by
  have hall : ∀ n ∈ numbers, (loadedOn kv own peer n).countP (isUnread peer) = 0 := by
    intro n hn
    refine List.countP_eq_zero.mpr fun m hm => List.countP_eq_zero.mp h m ?_
    exact List.mem_flatMap.mpr ⟨n, hn, hm⟩
  refine ⟨List.flatMap_eq_nil_iff.mpr fun n hn => ?_, hall⟩
  rw [List.filter_reverse, List.filter_eq_nil_iff.mpr (List.countP_eq_zero.mp (hall n hn))]
  rfl

theorem exec_readPages (wanted : Nat) (h : Placed kv own peer) (hnodup : numbers.Nodup)
    (hload : ∀ n ∈ numbers, ∃ found, pageOf kv own peer n = .ok found) (read : List ConversationMessage)
    (henough : read.length + (messagesOn kv own peer numbers).countP (isUnread peer) ≤ wanted) : ∃ kv',
    Kv.exec (readPages own peer wanted numbers read) kv = (.ok (read ++ markedOn kv own peer numbers), kv') ∧
    Passed (afterRead peer) kv kv' own peer numbers := by
  induction numbers generalizing kv read with
  | nil => exact ⟨kv, by rw [markedOn, List.flatMap_nil, List.append_nil]; rfl, fun n => by simp⟩
  | cons number older ih =>
    rw [List.nodup_cons] at hnodup
    obtain ⟨found, hfound⟩ := hload number List.mem_cons_self
    have hsplit : messagesOn kv own peer (number :: older) = loadedOn kv own peer number ++ messagesOn kv own peer older :=
      List.flatMap_cons
    have hmarked : markedOn kv own peer (number :: older) =
        ((loadedOn kv own peer number).reverse.filter (isUnread peer)).map (asRead peer) ++ markedOn kv own peer older :=
      List.flatMap_cons
    rw [readPages]
    split_ifs with hdone
    · obtain ⟨hnil, hall⟩ := markedOn_of_none (by omega : (messagesOn kv own peer (number :: older)).countP (isUnread peer) = 0)
      refine ⟨kv, by rw [hnil, List.append_nil]; rfl, fun n => ?_⟩
      split_ifs with hn
      · exact (afterRead_of_none (hall n hn)).symm
      · rfl
    rw [hsplit, List.countP_append] at henough
    have holder : ∀ n ∈ older, ∃ found, pageOf kv own peer n = .ok found := fun n hn => hload n (List.mem_cons_of_mem _ hn)
    rw [Kv.exec_bind, exec_loadPage, hfound]
    cases found with
    | none =>
      rw [loadedOn_none hfound] at henough hmarked
      obtain ⟨kv', hrun, hpages⟩ := ih h hnodup.2 holder read (by simpa using henough)
      rw [hmarked]
      exact ⟨kv', hrun, hpages.skip hnodup.1 (by rw [hfound]; rfl)⟩
    | some page =>
      obtain ⟨hpeer, hnumber⟩ := h.page number page hfound
      rw [loadedOn_eq hfound] at henough hmarked
      have hinner : readNewest peer wanted read page.messages.reverse = _ :=
        readNewest_all (by rw [List.countP_reverse]; omega)
      have hlength : (read ++ (page.messages.reverse.filter (isUnread peer)).map (asRead peer)).length =
          read.length + page.messages.countP (isUnread peer) := by
        rw [List.length_append, List.length_map, ← List.countP_eq_length_filter, List.countP_reverse]
      simp only [Prog.resume_ok, hinner]
      rw [hmarked, ← List.append_assoc]
      generalize read ++ (page.messages.reverse.filter (isUnread peer)).map (asRead peer) = now at hlength
      rw [hlength]
      split_ifs with hgrew
      · have hsound := sound_asRead peer (sound_of_pageOf hfound)
        obtain ⟨b, hb⟩ : ∃ b, encodePage (page.asRead peer) = .ok b := ⟨_, hsound.encodePage⟩
        have hothers := pageOf_others kv own peer hb hsound.readable hnodup.1
        obtain ⟨kv', hrun, hpages⟩ := ih (h.insert hb hpeer hnumber) hnodup.2
          (fun n hn => (hothers n hn).symm ▸ holder n hn) now (by rw [messagesOn_congr hothers]; omega)
        rw [markedOn_congr hothers] at hrun
        refine ⟨kv', ?_, hpages.write hb hsound.readable hnodup.1 (by rw [hfound, afterRead, if_neg (by omega)])⟩
        have hb' := hb
        rw [ConversationPage.asRead] at hb'
        rw [Kv.exec_bind, exec_savePage, List.map_reverse, List.reverse_reverse, hb', hpeer, hnumber]
        exact hrun
      · obtain ⟨kv', hrun, hpages⟩ := ih h hnodup.2 holder now (by omega)
        exact ⟨kv', hrun, hpages.skip hnodup.1 (by rw [hfound, afterRead, if_pos (by omega)])⟩

end Loop

/-! ## The call -/

section Call

variable {own peer : Cid} {kv kv' : Kv} {m : ConversationMetadata} {now : F64}

theorem afterRead_some (peer : Cid) (hp : p.Sound) : ∃ p', afterRead peer (.ok (some p)) = .ok (some p') ∧
    p'.norm = (p.asRead peer).norm ∧ p'.messages.countP (isUnread peer) = 0 := by
  refine ⟨_, rfl, ?_⟩
  split_ifs with hnone
  · refine ⟨?_, hnone⟩
    rw [ConversationPage.asRead, map_asRead_of_none hnone]
  · refine ⟨(sound_asRead peer hp).norm_norm, ?_⟩
    rw [countP_isUnread_norm]
    refine List.countP_eq_zero.mpr fun x hx => ?_
    obtain ⟨y, -, rfl⟩ := List.mem_map.mp hx
    by_cases hy : isUnread peer y = true
    · rw [asRead_of_unread hy]
      simp [isUnread]
    · rw [asRead_of_not (Bool.eq_false_iff.mpr hy)]
      exact hy

/-- The metadata that `mark_read` writes. -/
def ConversationMetadata.markedRead (m : ConversationMetadata) (now : F64) : ConversationMetadata :=
  { m with unreadCount := F64.ofNat 0, lastUpdated := now }

/-- What `mark_read` leaves of a conversation. -/
structure MarkedRead (own peer : Cid) (now : F64) (m : ConversationMetadata) (kv kv' : Kv) : Prop where
  metadata : metadataOf kv' own peer = .ok (some (m.markedRead now).norm)
  nothing : ∀ n, pageOf kv own peer n = .ok none → pageOf kv' own peer n = .ok none
  page : ∀ n p, pageOf kv own peer n = .ok (some p) →
    ∃ p', pageOf kv' own peer n = .ok (some p') ∧ p'.norm = (p.asRead peer).norm
  done : ∀ n p', pageOf kv' own peer n = .ok (some p') → ∀ x ∈ p'.messages, x.senderCid = peer → x.status ≠ .delivered
  apart : Apart own peer kv kv'

theorem exec_markRead_all (hs : Sited kv own peer) (hloads : Loads kv own peer) (hm : metadataOf kv own peer = .ok (some m))
    (henough : (messagesTo kv own peer m.latestPage).countP (isUnread peer) ≤ wantedOf m) (hnow : now.isFinite = true) :
    ∃ kv', Kv.exec (markRead own peer now) kv =
      (.ok (markedOn kv own peer (pagesTo m.latestPage).reverse, some (m.markedRead now)), kv') ∧
      MarkedRead own peer now m kv kv' := by
  have hcount : (messagesOn kv own peer (pagesTo m.latestPage).reverse).countP (isUnread peer) =
      (messagesTo kv own peer m.latestPage).countP (isUnread peer) :=
    ((List.reverse_perm _).flatMap_right _).countP_eq _
  obtain ⟨kv₁, hrun, hpages⟩ := exec_readPages (wantedOf m) hs.placed (List.nodup_reverse.mpr (nodup_pagesTo m.latestPage))
    (fun n _ => hloads.found hs n) [] (by rw [hcount, List.length_nil]; omega)
  rw [List.nil_append] at hrun
  have hpeer := hs.placed.metadata m hm
  have hexec : Kv.exec (markRead own peer now) kv = (.ok (markedOn kv own peer (pagesTo m.latestPage).reverse,
      some (m.markedRead now)), kv₁.insert (Place.metadata own peer).name (metadataBytes (m.markedRead now))) := by
    rw [markRead, Kv.exec_bind, exec_loadMetadata, hm]
    simp only [Prog.resume_ok]
    rw [wantedOf] at hrun
    rw [Kv.exec_bind, hrun, Prog.resume_ok]
    subst hpeer
    simp only [Kv.exec_bind, exec_saveMetadata, Prog.resume_ok]
    rfl
  have hafter : ∀ n, pageOf (kv₁.insert (Place.metadata own peer).name (metadataBytes (m.markedRead now))) own peer n =
      afterRead peer (pageOf kv own peer n) := by
    intro n
    rw [pageOf_insert_metadata, hpages n]
    split_ifs with hn
    · rfl
    · rw [List.mem_reverse, mem_pagesTo, UInt32.not_le] at hn
      rw [hs.newest m hm n hn]
      rfl
  have htouched := markRead_touched hs.placed now
  rw [hexec] at htouched
  refine ⟨_, hexec, ?_, fun n hn => ?_, fun n p hp => ?_, fun n p' hp' x hx hsender hstatus => ?_, htouched.apart⟩
  · rw [metadataOf_insert_metadata, if_pos rfl]
    exact (recordRead_metadataBytes _ _).mpr ⟨readable_marked (readable_of_metadataOf hm) hnow, rfl⟩
  · rw [hafter, hn]
    rfl
  · obtain ⟨p', hp', hnorm, -⟩ := afterRead_some peer (sound_of_pageOf hp)
    exact ⟨p', by rw [hafter, hp, hp'], hnorm⟩
  · rw [hafter] at hp'
    obtain ⟨found, hfound⟩ := hloads.found hs n
    rw [hfound] at hp'
    cases found with
    | none => cases hp'
    | some p =>
      obtain ⟨q, hq, -, hnone⟩ := afterRead_some peer (sound_of_pageOf hfound)
      rw [hq, Except.ok.injEq, Option.some.injEq] at hp'
      subst hp'
      exact List.countP_eq_zero.mp hnone x hx (decide_eq_true ⟨hsender, hstatus⟩)

end Call

/-! ## The count -/

/-- What the operation adds to the messages that are unread, it adds to the count. -/
def StoreOp.KeepsCover (own peer : Cid) (kv : Kv) : StoreOp → Prop
  | .append message _ _ => isUnread peer message = true → message.senderCid ≠ own
  | .setStatus id status _ => ∀ f, foundIn kv own peer id = .ok (some f) → f.message.senderCid = peer →
      statusAdvances f.message.status status = true → status ≠ .delivered
  | .patch id p => ∀ f, foundIn kv own peer id = .ok (some f) → f.message.senderCid = peer →
      ∀ status ∈ p.status, statusAdvances f.message.status status = true → status ≠ .delivered
  | .react .. | .revise .. | .remove .. | .markRead _ | .pruneOlderThan .. | .setPeerUsername .. | .delete _ => True

def mostCounted : Nat := 2 ^ 53

theorem mostCounted_next : (F64.ofNat mostCounted).add (F64.ofNat 1) = F64.ofNat mostCounted := by decide +kernel

theorem norm_count {k : Nat} (h : k ≤ mostCounted) : (F64.ofNat k).norm = F64.ofNat k := by
  rcases Nat.lt_or_eq_of_le h with hlt | rfl
  · exact F64.norm_ofNat hlt
  · decide +kernel

theorem wanted_count {k : Nat} (h : k ≤ mostCounted) : ((F64.ofNat k).max (F64.ofNat 0)).toU64.toNat = k := by
  rcases Nat.lt_or_eq_of_le h with hlt | rfl
  · rw [F64.ofNat_max_zero hlt, F64.toU64_ofNat hlt]
  · decide +kernel

/-- The count is not less than the number of messages of the peer's that nobody has read. -/
def Covers (peer : Cid) (c : Conversation) : Prop :=
  ∃ k ≤ mostCounted, c.metadata.unreadCount = F64.ofNat k ∧ unread peer c.pages ≤ k

/-- A conversation without records, or with such a count. -/
def Covered (kv : Kv) (own peer : Cid) : Prop :=
  Absent kv own peer ∨ ∃ c, Holds kv own peer c ∧ c.Ok own peer ∧ Covers peer c

section Steps

variable {kv kv' : Kv} {own peer : Cid} {c : Conversation}

theorem Covers.norm (h : Covers peer c) :
    ∃ k ≤ mostCounted, c.metadata.norm.unreadCount = F64.ofNat k ∧ unread peer c.pages ≤ k := by
  obtain ⟨k, hk, hcount, hle⟩ := h
  refine ⟨k, hk, ?_, hle⟩
  show c.metadata.unreadCount.norm = _
  rw [hcount, norm_count hk]

theorem Left.covered {m : ConversationMetadata} {pages : UInt32 → Option ConversationPage}
    (h : Left own peer kv kv' ⟨m, pages⟩) (hc : Covers peer c)
    (hm : m.unreadCount = c.metadata.unreadCount ∨ m.unreadCount = c.metadata.norm.unreadCount)
    (hle : unread peer pages ≤ unread peer c.pages) : Covered kv' own peer := by
  obtain ⟨k, hk, hcount, hcovers⟩ := hc
  obtain ⟨k', hk', hcount', hcovers'⟩ := Covers.norm ⟨k, hk, hcount, hcovers⟩
  refine .inr ⟨_, h.holds, h.ok, ?_⟩
  rcases hm with hm | hm
  · exact ⟨k, hk, hm.trans hcount, hle.trans hcovers⟩
  · exact ⟨k', hk', hm.trans hcount', hle.trans hcovers'⟩

theorem unread_rewritten_le {f : Found} {n : UInt32} (hf : FoundAt c peer f n p) {page : ConversationPage}
    (h : page.messages.countP (isUnread peer) ≤ f.page.messages.countP (isUnread peer)) :
    unread peer (Function.update c.pages n (some page)) ≤ unread peer c.pages := by
  have hupd := unread_update peer c.pages n (some page)
  have hread : f.page.messages.countP (isUnread peer) = p.messages.countP (isUnread peer) := by
    rw [hf.read, countP_isUnread_norm]
  rw [hf.held, unreadOn, unreadOn] at hupd
  omega

theorem countP_replaced_le (f : Found) {changed : ConversationMessage}
    (h : isUnread peer changed = true → isUnread peer f.message = true) :
    (f.replaced changed).messages.countP (isUnread peer) ≤ f.page.messages.countP (isUnread peer) := by
  by_cases hsame : isUnread peer changed = isUnread peer f.message
  · exact (countP_replaced f hsame).le
  · have hnot : isUnread peer changed = false := by
      refine Bool.eq_false_iff.mpr fun hch => hsame ?_
      rw [hch, h hch]
    show (f.page.messages.set f.index changed).countP (isUnread peer) ≤ _
    rw [List.countP_set f.index.isLt, hnot]
    simp

theorem replaced_covered (hbase : Covered kv own peer) (hc : Covers peer c)
    {change : ConversationMessage → Option ConversationMessage} (h : Replaced own peer kv kv' c id change)
    (hkeep : ∀ f, foundIn kv own peer id = .ok (some f) → ∀ m, change f.message = some m →
      isUnread peer m = true → isUnread peer f.message = true) : Covered kv' own peer := by
  rcases h with rfl | ⟨n, p, f, changed, hfound, hf, hchange, hleft⟩
  · exact hbase
  · exact hleft.covered hc (.inl rfl) (unread_rewritten_le hf (countP_replaced_le f (hkeep f hfound changed hchange)))

theorem removed_covered (hbase : Covered kv own peer) (hc : Covers peer c) (h : Removed own peer kv kv' c id) : Covered kv' own peer := by
  rcases h with rfl | ⟨n, p, f, m, hfound, hf, hm, hleft⟩
  · exact hbase
  · exact hleft.covered hc (.inr hm) (unread_rewritten_le hf (List.eraseIdx_sublist _ _).countP_le)

theorem appended_covered (hbase : Covered kv own peer) (hc : Covers peer c) {message : ConversationMessage}
    (h : Appended own peer kv kv' c message) (hkeep : isUnread peer message = true → message.senderCid ≠ own) :
    Covered kv' own peer := by
  rcases h with rfl | ⟨d, now, pages, hcount, hgains⟩
  · exact hbase
  · obtain ⟨k, hk, hd, hcovers⟩ := hc.norm
    rw [← hcount] at hd
    have hunread := hgains.unread
    refine .inr ⟨_, hgains.left.holds, hgains.left.ok, ?_⟩
    have hrecorded : (d.recorded own message now).unreadCount =
      if message.senderCid ≠ own ∧ message.status = .delivered then d.metadata.unreadCount.add (F64.ofNat 1)
      else d.metadata.unreadCount := rfl
    have hmost : unread peer pages < mostCounted := by
      have hle := unread_le_count peer pages
      have hlt : Conversation.count pages + 1 < 2 ^ 53 := count_lt hgains.left.ok.pages
      unfold mostCounted
      omega
    unfold Covers
    dsimp only
    rw [hrecorded, hd]
    split_ifs with hcounted
    · rcases Nat.lt_or_eq_of_le hk with hlt | rfl
      · exact ⟨k + 1, hlt, F64.ofNat_add_one hlt, by split_ifs at hunread <;> omega⟩
      · exact ⟨mostCounted, le_refl _, mostCounted_next, hmost.le⟩
    · have hnot : ¬ isUnread peer message = true := fun hm => hcounted ⟨hkeep hm, (of_decide_eq_true hm).2⟩
      rw [if_neg hnot] at hunread
      exact ⟨k, hk, rfl, by omega⟩

theorem covers_fresh (own peer : Cid) (message : ConversationMessage) (name : Option String) :
    Covers peer (.fresh own peer message name) := by
  have hnone : unread peer (fun _ => none) = 0 := Finset.sum_eq_zero fun _ _ => rfl
  have hzero := exact_fresh own peer message name
  rw [Exact, show (Conversation.fresh own peer message name).pages = fun _ => none from rfl, hnone] at hzero
  exact ⟨0, Nat.zero_le _, hzero, hnone.le⟩

theorem marked_covered (hok : c.Ok own peer) (hc : Covers peer c) {m : ConversationMetadata}
    {pages : UInt32 → Option ConversationPage} {read : List ConversationMessage} (hm : m.unreadCount = F64.ofNat 0)
    (hmarked : Marked peer (wantedOf c.metadata.norm) (pagesTo c.metadata.latestPage).reverse c.pages pages [] read) :
    Covers peer ⟨m, pages⟩ := by
  obtain ⟨k, hk, hcount, hcovers⟩ := hc.norm
  have hwanted : wantedOf c.metadata.norm = k := by rw [wantedOf, hcount, wanted_count hk]
  exact ⟨0, Nat.zero_le _, hm, (hmarked.none_left hok (hcovers.trans_eq hwanted.symm)).le⟩

/-! ## Every operation -/

theorem unread_statusSet {status : MessageStatus} {error : Option String} {m m' : ConversationMessage}
    (h : StoreOp.statusSet status error m = some m')
    (hkeep : m.senderCid = peer → statusAdvances m.status status = true → status ≠ .delivered)
    (hm' : isUnread peer m' = true) : isUnread peer m = true := by
  unfold StoreOp.statusSet at h
  split at h
  · next hadvances =>
    cases h
    obtain ⟨hsender, hstatus⟩ := of_decide_eq_true hm'
    exact absurd hstatus (hkeep hsender hadvances)
  · cases h

theorem unread_applyPatch {p : MessagePatch} {m m' : ConversationMessage} (h : applyPatch p m = some m')
    (hkeep : m.senderCid = peer → ∀ status ∈ p.status, statusAdvances m.status status = true → status ≠ .delivered)
    (hm' : isUnread peer m' = true) : isUnread peer m = true := by
  simp only [applyPatch] at h
  split at h
  · cases h
    obtain ⟨hsender, hstatus⟩ := of_decide_eq_true hm'
    dsimp only at hsender hstatus
    split_ifs at hstatus with hadvances
    · cases hgiven : p.status with
      | none =>
        rw [hgiven] at hadvances
        cases hadvances
      | some status =>
        rw [hgiven] at hadvances hstatus
        exact absurd hstatus (hkeep hsender status hgiven hadvances)
    · exact decide_eq_true ⟨hsender, hstatus⟩
  · cases h

theorem Touched.countP_pruned {cutoff now : F64} (ht : Touched own peer (.pruneOlderThan cutoff now) kv kv')
    (q : ConversationMessage → Bool) (hq : ∀ m, q m.norm = q m) (n : UInt32) :
    (loadedOn kv' own peer n).countP q ≤ (loadedOn kv own peer n).countP q := by
  rcases ht.page n with hsame | ⟨p, p', hp, hr, hw⟩ | ⟨message, name, now, hop, -, -⟩ | ⟨b, hop, -⟩
  · rw [loadedOn, loadedOn, hsame]
  · cases hr with
    | changed _ id f m hid => cases hid
    | taken _ id f hid => cases hid
    | pruned =>
      rw [loadedOn_eq hp, loadedOn]
      split
      · next found hfound =>
        rw [hfound] at hw
        rw [Option.some.inj hw.eq_some, ConversationPage.norm, List.countP_map,
          show q ∘ ConversationMessage.norm = q from funext hq]
        exact List.filter_sublist.countP_le
      · exact Nat.zero_le _
  · cases hop
  · cases hop

theorem unread_of_readsAs {m : ConversationMetadata} (h : ReadsAs kv own peer m c) :
    unread peer c.pages = ∑ n, (loadedOn kv own peer n).countP (isUnread peer) := by
  refine Finset.sum_congr rfl fun n _ => ?_
  rw [h.loadedOn n]
  cases c.pages n with
  | none => rfl
  | some p => exact (countP_isUnread_norm peer p).symm

theorem StoreOp.covered (hrun : Run kv) (hloads : Loads kv own peer) (hloads' : Loads kv' own peer)
    (h : Covered kv own peer) {op : StoreOp} (hop : op.Sound) (hkeep : op.KeepsCover own peer kv)
    (hstep : Kv.exec (op.program own peer) kv = (.ok (), kv')) : Covered kv' own peer := by
  have hl := hrun.good.1
  rcases h with habs | ⟨c, hc, hok, hcovers⟩
  · rcases leaves_absent hl habs hop.finiteTime hstep with rfl | ⟨message, name, now, rfl, happended⟩
    · exact .inl habs
    · exact appended_covered (.inl habs) (covers_fresh own peer message name) happended hkeep
  · have hleaves := leaves hl hc hok hop.finiteTime hstep
    have hsame : Covered kv own peer := .inr ⟨c, hc, hok, hcovers⟩
    cases op with
    | append message name now => exact appended_covered hsame hcovers hleaves hkeep
    | setStatus id status error =>
      exact replaced_covered hsame hcovers hleaves fun f hf m hm => unread_statusSet hm (hkeep f hf)
    | patch id p => exact replaced_covered hsame hcovers hleaves fun f hf m hm => unread_applyPatch hm (hkeep f hf)
    | react id change =>
      exact replaced_covered hsame hcovers hleaves fun f hf m hm hun => (isUnread_reacted hm).symm.trans hun
    | revise id reviser revision now =>
      cases revision with
      | edit contents editedAt =>
        refine replaced_covered hsame hcovers hleaves fun f hf m hm hun => ?_
        cases hm
        exact hun
      | delete =>
        rcases hleaves with rfl | ⟨-, hremoved⟩
        · exact hsame
        · exact removed_covered hsame hcovers hremoved
    | remove id now => exact removed_covered hsame hcovers hleaves
    | markRead now =>
      obtain ⟨m, pages', read, hm, hmarked, hleft⟩ := hleaves
      exact .inr ⟨_, hleft.holds, hleft.ok, marked_covered hok hcovers hm hmarked⟩
    | pruneOlderThan cutoff now =>
      rcases hleaves with rfl | ⟨m, pages', hm, -, hleft⟩
      · exact hsame
      · have hrun' : Run kv' := .step own peer (.pruneOlderThan cutoff now) hrun hop.finiteTime hstep
        have ht := hrun.reached.touched own peer (.pruneOlderThan cutoff now)
        rw [hstep] at ht
        refine hleft.covered hcovers (hm.imp_left fun heq => by rw [heq]) ?_
        have hafter := unread_of_readsAs (hloads'.readsAs hrun' hleft.holds hleft.ok)
        rw [show (Conversation.mk m pages').pages = pages' from rfl] at hafter
        rw [hafter, unread_of_readsAs (hloads.readsAs hrun hc hok)]
        exact Finset.sum_le_sum fun n _ => ht.countP_pruned (isUnread peer) (fun _ => rfl) n
    | setPeerUsername username now =>
      rcases hleaves with rfl | ⟨m, hm, hleft⟩
      · exact hsame
      · exact hleft.covered hcovers (.inr hm) (le_refl _)
    | delete includeUnattributed =>
      rcases hleaves with rfl | ⟨hgone, -⟩
      · exact hsame
      · exact .inl hgone

end Steps

/-! ## Every run -/

/-- The runs in which every operation on the conversation brings finite numbers and keeps its count, whatever is done to
others. -/
inductive CoveredRun (own peer : Cid) : Kv → Prop
  | empty : CoveredRun own peer ∅
  | step {kv kv' : Kv} (own' peer' : Cid) (op : StoreOp) (hrun : CoveredRun own peer kv) (hfin : op.FiniteTime)
    (hkeep : own' = own ∧ peer' = peer → op.Sound ∧ op.KeepsCover own peer kv)
    (hstep : Kv.exec (op.program own' peer') kv = (.ok (), kv')) : CoveredRun own peer kv'

section Runs

variable {own peer : Cid} {kv : Kv}

theorem CoveredRun.run (h : CoveredRun own peer kv) : Run kv := by
  induction h with
  | empty => exact .empty
  | step own' peer' op _ hfin _ hstep ih => exact .step own' peer' op ih hfin hstep

theorem CoveredRun.covered (h : CoveredRun own peer kv) : Loads kv own peer ∧ Covered kv own peer := by
  induction h with
  | empty => exact ⟨Engine.loads_empty own peer, .inl ⟨rfl, fun _ => rfl⟩⟩
  | @step kv kv' own' peer' op hrun hfin hkeep hstep ih =>
    obtain ⟨hloads, hcovered⟩ := ih
    obtain ⟨hl, hg⟩ := hrun.run.good
    have ht := hrun.run.reached.touched own' peer' op
    rw [hstep] at ht
    by_cases hsame : own' = own ∧ peer' = peer
    · obtain ⟨rfl, rfl⟩ := hsame
      obtain ⟨hop, hcover⟩ := hkeep ⟨rfl, rfl⟩
      have hloads' := ht.loads hop hl (hg own' peer') (hrun.run.reached.sited.2 own' peer') hloads
      exact ⟨hloads', StoreOp.covered hrun.run hloads hloads' hcovered hop hcover hstep⟩
    · exact ⟨hloads.frame ht.apart.frame fun h => hsame ⟨h.1.symm, h.2.symm⟩, holds_frame hcovered ht.apart.frame hsame⟩

end Runs

def sentMessage : ConversationMessage := .text "m1" "hello" 2 1 (F64.ofNat 1) (F64.ofNat 0) .sent

theorem sound_sent : (StoreOp.append sentMessage none (F64.ofNat 10)).Sound := by
  refine ⟨⟨?_, by decide +kernel, fun list hlist => (nomatch hlist), fun list hlist => (nomatch hlist)⟩,
    F64.isFinite_ofNat (by decide)⟩
  have h1 := F64.isFinite_ofNat (n := 1) (by decide)
  simp only [sentMessage, ConversationMessage.text, h1]

def openingDraft (own peer : Cid) (message : ConversationMessage) : Draft where
  metadata := stamped own (newMetadata own peer message none message.timestamp)
  page := emptyPage peer 0 message.timestamp
  isNew := true

theorem append_alone (own peer : Cid) {message : ConversationMessage} {now : F64}
    (hop : (StoreOp.append message none now).Sound) : ∃ kv r p,
      Kv.exec (append own peer message none now) ∅ = (.ok r, kv) ∧ Placed kv own peer ∧
      metadataOf kv own peer = .ok (some ((openingDraft own peer message).recorded own message now).norm) ∧
      pageOf kv own peer 0 = .ok (some p) ∧ p.pageNumber = 0 ∧ p.messages = [message.norm] := by
  have hdraft : draftOf ∅ own peer message none = .ok (some (openingDraft own peer message)) :=
    draftOf_empty own peer message none
  have hf : ¬ (openingDraft own peer message).Full := by
    rw [Draft.Full, show (openingDraft own peer message).page.messages = [] from rfl]
    decide
  have hnumber : (openingDraft own peer message).number = 0 := if_neg hf
  generalize hd : openingDraft own peer message = d at hdraft hf hnumber ⊢
  have honly : (d.placed peer message).messages = [message] := by
    rw [Draft.placed, if_neg hf, ← hd]
    simp [place, openingDraft, emptyPage]
  have hmessages : (d.placed peer message).norm.messages = [message.norm] := by
    rw [ConversationPage.norm, honly]
    rfl
  have hfin : (d.placed peer message).FiniteReactions := by
    intro m hm list hlist
    rw [honly, List.mem_singleton] at hm
    exact (hop.1.reactions list (hm ▸ hlist)).1
  obtain ⟨b, hb⟩ : ∃ b, encodePage (d.placed peer message) = .ok b := ⟨_, (encodePage_eq_ok _ _).mpr ⟨hfin, rfl⟩⟩
  have hw : d.Writes own peer message [(.messages own d.page.peerCid d.page.pageNumber, b)] := by
    rw [Draft.Writes, if_neg hf]
    exact ⟨b, hb, rfl⟩
  obtain ⟨hm, hpage, -⟩ := reads_stored (Sited.empty own peer).placed hdraft hw hop rfl
  rw [hnumber] at hpage
  have hexec := exec_append_of_draft hdraft hw now
  have hsited := (Sited.empty own peer).append message none now
  rw [hexec] at hsited
  refine ⟨_, _, _, hexec, hsited.placed, hm, hpage, ?_, hmessages⟩
  rw [Draft.placed, if_neg hf, ← hd]
  rfl

theorem append_sent : ∃ kv r m p,
    Kv.exec (append 1 2 sentMessage none (F64.ofNat 10)) ∅ = (.ok r, kv) ∧ Placed kv 1 2 ∧
    metadataOf kv 1 2 = .ok (some m) ∧ m.latestPage = 0 ∧ wantedOf m = 0 ∧
    pageOf kv 1 2 0 = .ok (some p) ∧ p.pageNumber = 0 ∧ p.messages = [sentMessage.norm] := by
  obtain ⟨kv, r, p, hexec, hplaced, hm, hpage, hnumber, hmessages⟩ := append_alone 1 2 sound_sent
  refine ⟨kv, r, _, p, hexec, hplaced, hm, rfl, ?_, hpage, hnumber, hmessages⟩
  decide +kernel

theorem exec_setStatus_delivered {kv : Kv} {own peer : Cid} {f : Found} (hs : Placed kv own peer)
    (hf : foundIn kv own peer id = .ok (some f)) (hadvances : statusAdvances f.message.status .delivered = true) :
    ∃ kv' c p x, Kv.exec (setStatus own peer id .delivered none) kv = (.ok (some c), kv') ∧
      metadataOf kv' own peer = metadataOf kv own peer ∧ pageOf kv' own peer f.page.pageNumber = .ok (some p) ∧
      x ∈ p.messages ∧ x.senderCid = f.message.senderCid ∧ x.status = .delivered := by
  have hsound := (sound_of_found hf).2
  obtain ⟨kv', hexec, hm, hpage, -⟩ := @exec_update_made f own peer kv id
    (fun m => if statusAdvances m.status .delivered then
      some { m with status := .delivered, error := if MessageStatus.delivered = .failed then none else none } else none)
    _ hs hf (if_pos hadvances) ⟨hsound.timestamp, hsound.index, hsound.attachments, hsound.reactions⟩
  exact ⟨kv', _, _, _, hexec, hm, hpage, List.mem_map_of_mem (f.mem_replaced _), rfl, rfl⟩

end CitadelAgent.Conversations
