import CitadelAgent.Conversations.Invariant

/-!
# What each operation makes of a conversation

One lemma for each operation of the store that answers: on a conversation, `append_leaves`, `update_leaves`, `remove_leaves`,
`revise_leaves`, `setPeerUsername_leaves`, `markRead_leaves`, `pruneOlderThan_leaves`, `delete_leaves`; and one, ending in
`_absent`, where there are no records.
-/

namespace CitadelAgent.Conversations
open Store StoreRules Result Conversation

variable {cutoff now : F64} {d : Draft} {f : Found} {id : String} {message : ConversationMessage} {n : UInt32}
  {name : Option String} {numbers : List UInt32} {oldest : Option F64} {p p' : ConversationPage}
  {pages' pages₁ : UInt32 → Option ConversationPage} {r : Bool} {read : List ConversationMessage} {u : Unit} {wanted : Nat}

section Operations

variable {kv₀ kv kv' : Kv} {own peer : Cid} {pages : UInt32 → Option ConversationPage} {c : Conversation}

/-! ## Finding a message -/

theorem find_absent (hl : NoLegacy kv) (ha : Absent kv own peer) (id : String) :
    Kv.exec (find own peer id) kv = (.ok none, kv) := by
  rw [exec_find, foundIn, metadataOf_absent hl ha]

/-- What was found is the conversation's, as it reads. -/
structure FoundAt (c : Conversation) (peer : Cid) (f : Found) (n : UInt32) (p : ConversationPage) : Prop where
  metadata : f.metadata = c.metadata.norm
  held : c.pages n = some p
  read : f.page = p.norm
  ok : f.page.Ok peer n

theorem found_of_holds (hl : NoLegacy kv) (hc : Holds kv own peer c) (hok : c.Ok own peer)
    (h : Kv.exec (find own peer id) kv = (.ok (some f), kv')) : kv' = kv ∧ ∃ n p, FoundAt c peer f n p := by
  obtain ⟨rfl, hfound⟩ := find_eq_ok h
  obtain ⟨hmeta, n, hpage⟩ := hfound f rfl
  obtain ⟨p, hp, hnorm, hpok⟩ := ok_of_pageOf hl hc.pages hok.pages hpage
  exact ⟨rfl, n, p, Option.some.inj (metadataOf_holds hc hmeta), hp, hnorm, hpok⟩

/-! ## Changing a message -/

theorem Store.Found.replaced_ok (h : f.page.Ok peer n) {changed : ConversationMessage}
    (ht : changed.timestamp = f.message.timestamp) (hw : (f.replaced changed).FiniteReactions) :
    (f.replaced changed).Ok peer n ∧ (f.replaced changed).times = f.page.times := by
  have hmap : ∀ {β : Type} (g : F64 → β), (f.page.messages.set f.index changed).map (fun m => g m.timestamp) =
      f.page.messages.map fun m => g m.timestamp := by
    intro β g
    rw [List.map_set, ht]
    refine List.ext_getElem (by simp) fun i h₁ h₂ => ?_
    rw [List.getElem_set]
    split_ifs with hi
    · subst hi
      simp [Found.message]
    · rfl
  exact ⟨h.retimed hw (hmap F64.norm) ⟨rfl, rfl⟩, hmap F64.scaled⟩

theorem shrunk_update (hp : pages n = some p) (hsub : p'.times ⊆ p.times) :
    Shrunk pages (Function.update pages n (some p')) := by
  intro k q hq
  by_cases hk : k = n
  · subst hk
    rw [Function.update_self, Option.some.injEq] at hq
    exact ⟨p, hp, hq ▸ hsub⟩
  · rw [Function.update_of_ne hk] at hq
    exact ⟨q, hq, List.Subset.refl _⟩

def Conversation.rewritten (c : Conversation) (n : UInt32) (p : ConversationPage) : Conversation :=
  ⟨c.metadata, Function.update c.pages n (some p)⟩

theorem replace_leaves (hc : Holds kv own peer c) (hok : c.Ok own peer) (hf : FoundAt c peer f n p)
    {changed : ConversationMessage} (ht : changed.timestamp = f.message.timestamp)
    (h : Kv.exec (savePage own (f.replaced changed)) kv = (.ok u, kv')) :
    Left own peer kv kv' (c.rewritten n (f.replaced changed)) := by
  have hmid := (Mid.start hc.pages hok.pages).savePage h fun hw => (Found.replaced_ok hf.ok ht hw).1
  obtain ⟨b, hb, -⟩ := exec_savePage_eq_ok.mp h
  have htimes := (Found.replaced_ok hf.ok ht ((encodePage_eq_ok _ _).mp hb).1).2
  rw [hf.read, ConversationPage.times_norm] at htimes
  refine hmid.finish hc (hok.shrunk (shrunk_update hf.held ?_) hmid.ok ⟨rfl, rfl, rfl, rfl⟩ ?_)
  · rw [htimes]
    exact List.Subset.refl _
  · rw [hok.total]
    have hcount := Conversation.count_update c.pages n (some (f.replaced changed))
    have hlen := congrArg List.length htimes
    simp only [ConversationPage.length_times] at hlen
    simp only [hf.held, Conversation.size, hlen] at hcount
    rw [Nat.add_right_cancel hcount]

def Replaced (own peer : Cid) (kv kv' : Kv) (c : Conversation) (id : String)
    (change : ConversationMessage → Option ConversationMessage) : Prop :=
  kv' = kv ∨ ∃ n p f changed, foundIn kv own peer id = .ok (some f) ∧ FoundAt c peer f n p ∧
    change f.message = some changed ∧ Left own peer kv kv' (c.rewritten n (f.replaced changed))

theorem update_absent (hl : NoLegacy kv) (ha : Absent kv own peer) {change : ConversationMessage → Option ConversationMessage}
    {r : Option ConversationMessage} (h : Kv.exec (update own peer id change) kv = (.ok r, kv')) : kv' = kv := by
  obtain ⟨found, kv₁, hfind, hrest⟩ := Kv.exec_bind_eq_ok.mp h
  rw [find_absent hl ha] at hfind
  cases hfind
  cases hrest
  rfl

theorem update_leaves (hl : NoLegacy kv) (hc : Holds kv own peer c) (hok : c.Ok own peer)
    {change : ConversationMessage → Option ConversationMessage}
    (ht : ∀ m m', change m = some m' → m'.timestamp = m.timestamp) {r : Option ConversationMessage}
    (h : Kv.exec (update own peer id change) kv = (.ok r, kv')) : Replaced own peer kv kv' c id change := by
  obtain ⟨found, kv₁, hfind, hrest⟩ := Kv.exec_bind_eq_ok.mp h
  cases found with
  | none =>
    obtain ⟨rfl, -⟩ := find_eq_ok hfind
    cases hrest
    exact .inl rfl
  | some f =>
    obtain ⟨rfl, n, p, hf⟩ := found_of_holds hl hc hok hfind
    rw [exec_find] at hfind
    dsimp only at hrest
    cases hchange : change f.message with
    | none =>
      rw [hchange] at hrest
      cases hrest
      exact .inl rfl
    | some changed =>
      rw [hchange] at hrest
      obtain ⟨u, kv₂, hsave, hdone⟩ := Kv.exec_bind_eq_ok.mp hrest
      cases hdone
      exact .inr ⟨n, p, f, changed, (Prod.mk.inj hfind).1, hf, hchange, replace_leaves hc hok hf (ht _ _ hchange) hsave⟩

/-! ## Removing one -/

theorem Conversation.size_le_count (pages : UInt32 → Option ConversationPage) (n : UInt32) :
    size (pages n) ≤ count pages := by
  have h := count_update pages n none
  rw [show size none = 0 from rfl] at h
  omega

theorem Store.Found.removed_ok (h : f.page.Ok peer n) (hw : f.removed.FiniteReactions) :
    f.removed.Ok peer n := h.sublist (List.eraseIdx_sublist _ _) hw

theorem Store.Found.times_removed (f : Found) : f.removed.times ⊆ f.page.times :=
  ((List.eraseIdx_sublist f.page.messages f.index).map _).subset

theorem Store.Found.length_removed (f : Found) : f.removed.messages.length + 1 = f.page.messages.length := by
  have hlt := f.index.isLt
  rw [Found.removed, List.length_eraseIdx_of_lt hlt]
  omega

def Removed (own peer : Cid) (kv kv' : Kv) (c : Conversation) (id : String) : Prop :=
  kv' = kv ∨ ∃ n p f m, foundIn kv own peer id = .ok (some f) ∧ FoundAt c peer f n p ∧
    m.unreadCount = c.metadata.norm.unreadCount ∧
    Left own peer kv kv' ⟨m, Function.update c.pages n (some f.removed)⟩

theorem remove_absent (hl : NoLegacy kv) (ha : Absent kv own peer) (h : Kv.exec (remove own peer id now) kv = (.ok r, kv')) : kv' = kv := by
  obtain ⟨found, kv₁, hfind, hrest⟩ := Kv.exec_bind_eq_ok.mp h
  rw [find_absent hl ha] at hfind
  cases hfind
  cases hrest
  rfl

theorem remove_leaves (hl : NoLegacy kv) (hc : Holds kv own peer c) (hok : c.Ok own peer)
    (h : Kv.exec (remove own peer id now) kv = (.ok r, kv')) : Removed own peer kv kv' c id := by
  obtain ⟨found, kv₁, hfind, hrest⟩ := Kv.exec_bind_eq_ok.mp h
  cases found with
  | none =>
    obtain ⟨rfl, -⟩ := find_eq_ok hfind
    cases hrest
    exact .inl rfl
  | some f =>
    obtain ⟨rfl, n, p, hf⟩ := found_of_holds hl hc hok hfind
    rw [exec_find] at hfind
    obtain ⟨u, kv₂, hsave, hrest⟩ := Kv.exec_bind_eq_ok.mp hrest
    obtain ⟨u', kv₃, hpointer, hdone⟩ := Kv.exec_bind_eq_ok.mp hrest
    cases hdone
    have hmid := (Mid.start hc.pages hok.pages).savePage hsave fun hw => Found.removed_ok hf.ok hw
    have hlen : f.removed.messages.length + 1 = p.messages.length := by
      rw [f.length_removed, hf.read]
      simp [ConversationPage.norm]
    have hcount := Conversation.count_update c.pages n (some f.removed)
    have hle := Conversation.size_le_count c.pages n
    have hlt := Conversation.count_lt hok.pages
    simp only [hf.held, Conversation.size] at hcount hle
    refine .inr ⟨n, p, f, _, (Prod.mk.inj hfind).1, hf, ?_, hmid.saveMetadata hpointer
      (hok.shrunk (shrunk_update hf.held ?_) hmid.ok ?_ ?_)⟩
    · rw [hf.metadata]
    · rw [← p.times_norm, ← hf.read]
      exact f.times_removed
    · rw [hf.metadata]
      exact ⟨rfl, rfl, rfl, F64.norm_norm _⟩
    · have hless : Conversation.count (Function.update c.pages n (some f.removed)) =
          Conversation.count c.pages - 1 := by omega
      rw [hf.metadata, hok.total_norm, F64.ofNat_sub_max (by omega) (by omega), hless]

theorem revise_absent (hl : NoLegacy kv) (ha : Absent kv own peer) {reviser : Cid} {revision : Revision} {r : Revised}
    (h : Kv.exec (revise own peer id reviser revision now) kv = (.ok r, kv')) : kv' = kv := by
  obtain ⟨found, kv₁, hfind, hrest⟩ := Kv.exec_bind_eq_ok.mp h
  rw [find_absent hl ha] at hfind
  cases hfind
  cases hrest
  rfl

def edited (contents : String) (editedAt : F64) (m : ConversationMessage) : Option ConversationMessage :=
  some { m with content := contents, editedAt := some editedAt }

def RevisedBy (own peer : Cid) (kv kv' : Kv) (c : Conversation) (id : String) (reviser : Cid) : Revision → Prop
  | .edit contents editedAt => Replaced own peer kv kv' c id (edited contents editedAt)
  | .delete => kv' = kv ∨ (∀ f, foundIn kv own peer id = .ok (some f) → f.message.senderCid = reviser) ∧
      Removed own peer kv kv' c id

theorem revise_leaves (hl : NoLegacy kv) (hc : Holds kv own peer c) (hok : c.Ok own peer) {reviser : Cid} {revision : Revision}
    {r : Revised} (h : Kv.exec (revise own peer id reviser revision now) kv = (.ok r, kv')) :
    RevisedBy own peer kv kv' c id reviser revision := by
  have hunchanged : kv' = kv → RevisedBy own peer kv kv' c id reviser revision := by
    cases revision with
    | edit contents editedAt => exact .inl
    | delete => exact .inl
  obtain ⟨found, kv₁, hfind, hrest⟩ := Kv.exec_bind_eq_ok.mp h
  cases found with
  | none =>
    obtain ⟨rfl, -⟩ := find_eq_ok hfind
    cases hrest
    exact hunchanged rfl
  | some f =>
    obtain ⟨rfl, n, p, hf⟩ := found_of_holds hl hc hok hfind
    rw [exec_find] at hfind
    dsimp only at hrest
    split_ifs at hrest with hsender
    · cases hrest
      exact hunchanged rfl
    · cases revision with
      | delete =>
        obtain ⟨removed, kv₂, hremove, hdone⟩ := Kv.exec_bind_eq_ok.mp hrest
        cases hdone
        refine .inr ⟨fun f' hf' => ?_, remove_leaves hl hc hok hremove⟩
        rw [(Prod.mk.inj hfind).1, Except.ok.injEq, Option.some.injEq] at hf'
        exact hf' ▸ not_not.mp hsender
      | edit contents editedAt =>
        obtain ⟨u, kv₂, hsave, hdone⟩ := Kv.exec_bind_eq_ok.mp hrest
        cases hdone
        exact .inr ⟨n, p, f, _, (Prod.mk.inj hfind).1, hf, rfl, replace_leaves hc hok hf (by rfl) hsave⟩

/-! ## Metadata alone -/

theorem setPeerUsername_absent (hl : NoLegacy kv) (ha : Absent kv own peer) {username : String}
    (h : Kv.exec (setPeerUsername own peer username now) kv = (.ok u, kv')) : kv' = kv := by
  obtain ⟨metadata, kv₁, hrun, hrest⟩ := Kv.exec_bind_eq_ok.mp h
  rw [exec_loadMetadata, metadataOf_absent hl ha] at hrun
  cases hrun
  cases hrest
  rfl

theorem setPeerUsername_leaves (hc : Holds kv own peer c) (hok : c.Ok own peer) {username : String}
    (h : Kv.exec (setPeerUsername own peer username now) kv = (.ok u, kv')) :
    kv' = kv ∨ ∃ m, m.unreadCount = c.metadata.norm.unreadCount ∧ Left own peer kv kv' ⟨m, c.pages⟩ := by
  obtain ⟨metadata, kv₁, hrun, hrest⟩ := Kv.exec_bind_eq_ok.mp h
  rw [exec_loadMetadata] at hrun
  obtain ⟨hload, rfl⟩ := Prod.mk.inj hrun
  obtain rfl := metadataOf_holds hc hload
  dsimp only at hrest
  split_ifs at hrest with hname
  · refine .inr ⟨_, ?_, (Mid.start hc.pages hok.pages).saveMetadata hrest (hok.shrunk
      (fun n p hp => ⟨p, hp, List.Subset.refl _⟩) hok.pages ⟨rfl, rfl, rfl, F64.norm_norm _⟩ ?_)⟩
    · rfl
    · exact hok.total_norm
  · cases hrest
    exact .inl rfl

/-! ## Reading marks -/

def SameTimes (pages pages' : UInt32 → Option ConversationPage) : Prop :=
  ∀ n, (pages' n).map ConversationPage.times = (pages n).map ConversationPage.times

theorem SameTimes.shrunk (h : SameTimes pages pages') :
    Shrunk pages pages' := by
  intro n p' hp'
  have hn := h n
  rw [hp', Option.map_some, eq_comm, Option.map_eq_some_iff] at hn
  obtain ⟨p, hp, htimes⟩ := hn
  exact ⟨p, hp, htimes ▸ List.Subset.refl _⟩

theorem SameTimes.count (h : SameTimes pages pages') :
    Conversation.count pages' = Conversation.count pages := by
  have hsize : ∀ o : Option ConversationPage, Conversation.size o = ((o.map ConversationPage.times).getD []).length := by
    intro o
    cases o with
    | none => rfl
    | some p => exact (p.length_times).symm
  exact Conversation.count_congr fun n => by rw [hsize, hsize, h n]

theorem SameTimes.update (hp : pages n = some p) (h : p'.times = p.times) :
    SameTimes pages (Function.update pages n (some p')) := by
  intro k
  by_cases hk : k = n
  · subst hk
    simp [hp, h]
  · rw [Function.update_of_ne hk]

theorem SameTimes.trans {pages₂ : UInt32 → Option ConversationPage} (h : SameTimes pages pages₁)
    (h' : SameTimes pages₁ pages₂) : SameTimes pages pages₂ := fun n => (h' n).trans (h n)

theorem readNewest_timestamps {β : Type} (g : F64 → β) (wanted : Nat) (read messages : List ConversationMessage) :
    (readNewest peer wanted read messages).2.map (fun m => g m.timestamp) = messages.map fun m => g m.timestamp := by
  induction messages generalizing read with
  | nil => rfl
  | cons m older ih =>
    rw [readNewest]
    split_ifs
    · rfl
    · exact congrArg (g m.timestamp :: ·) (ih _)
    · exact congrArg (g m.timestamp :: ·) (ih _)

theorem readNewest_unread (wanted : Nat) (read messages : List ConversationMessage) :
    (readNewest peer wanted read messages).1.length + (readNewest peer wanted read messages).2.countP (isUnread peer) =
      read.length + messages.countP (isUnread peer) ∧
    (wanted ≤ (readNewest peer wanted read messages).1.length ∨
      (readNewest peer wanted read messages).2.countP (isUnread peer) = 0) := by
  induction messages generalizing read with
  | nil => exact ⟨rfl, .inr rfl⟩
  | cons m older ih =>
    rw [readNewest]
    split_ifs with hdone hm
    · exact ⟨rfl, .inl hdone⟩
    · obtain ⟨hsum, hend⟩ := ih (read ++ [{ m with status := .read }])
      have hmark : isUnread peer { m with status := .read } = false := by simp [isUnread]
      have hwas : isUnread peer m = true := by simpa [isUnread] using hm
      rw [List.length_append, List.length_singleton] at hsum
      simp only [List.countP_cons, hmark, hwas, Bool.false_eq_true, if_false, if_true]
      exact ⟨by omega, hend⟩
    · obtain ⟨hsum, hend⟩ := ih read
      have hwas : isUnread peer m = false := by simpa [isUnread] using hm
      simp only [List.countP_cons, hwas, Bool.false_eq_true, if_false]
      exact ⟨hsum, hend⟩

theorem readNewest_grows (wanted : Nat) (read messages : List ConversationMessage) :
    read.length ≤ (readNewest peer wanted read messages).1.length := by
  induction messages generalizing read with
  | nil => exact Nat.le_refl _
  | cons m older ih =>
    rw [readNewest]
    split_ifs
    · exact Nat.le_refl _
    · have hgrows := ih (read ++ [{ m with status := .read }])
      rw [List.length_append] at hgrows
      exact (Nat.le_add_right _ _).trans hgrows
    · exact ih read

/-- What the loop of `mark_read` comes to: what it read is what is no longer unread, and it stops when it has enough or
nothing is left on its pages. -/
structure Marked (peer : Cid) (wanted : Nat) (numbers : List UInt32) (pages pages' : UInt32 → Option ConversationPage)
    (read read' : List ConversationMessage) : Prop where
  times : SameTimes pages pages'
  fewer : ∀ n, unreadOn peer (pages' n) ≤ unreadOn peer (pages n)
  sum : read'.length + unread peer pages' = read.length + unread peer pages
  done : wanted ≤ read'.length ∨ ∀ n ∈ numbers, unreadOn peer (pages' n) = 0

theorem Marked.refl (hdone : wanted ≤ read.length ∨ numbers = []) : Marked peer wanted numbers pages pages read read :=
  ⟨fun _ => rfl, fun _ => Nat.le_refl _, rfl, hdone.imp_right fun hn n hmem => by simp [hn] at hmem⟩

theorem Marked.cons {number : UInt32} {older : List UInt32} {now r : List ConversationMessage} (htimes : SameTimes pages pages₁)
    (hfewer : ∀ n, unreadOn peer (pages₁ n) ≤ unreadOn peer (pages n))
    (hsum : now.length + unread peer pages₁ = read.length + unread peer pages)
    (hpage : wanted ≤ now.length ∨ unreadOn peer (pages₁ number) = 0) (hrest : Marked peer wanted older pages₁ pages' now r) :
    Marked peer wanted (number :: older) pages pages' read r where
  times := htimes.trans hrest.times
  fewer n := (hrest.fewer n).trans (hfewer n)
  sum := hrest.sum.trans hsum
  done := by
    have hmono : unread peer pages' ≤ unread peer pages₁ := Finset.sum_le_sum fun n _ => hrest.fewer n
    have hlen := hrest.sum
    rcases hpage with henough | hnone
    · exact .inl (by omega)
    · refine hrest.done.imp_right fun hall n hn => ?_
      rcases List.mem_cons.mp hn with rfl | hn
      · exact Nat.le_zero.mp (hnone ▸ hrest.fewer n)
      · exact hall n hn

theorem readPages_mid (hl : NoLegacy kv₀) {r : List ConversationMessage} (hmid : Mid kv₀ own peer pages kv)
    (h : Kv.exec (readPages own peer wanted numbers read) kv = (.ok r, kv')) :
    ∃ pages', Mid kv₀ own peer pages' kv' ∧ Marked peer wanted numbers pages pages' read r := by
  induction numbers generalizing read kv pages with
  | nil =>
    cases h
    exact ⟨pages, hmid, .refl (.inr rfl)⟩
  | cons number older ih =>
    rw [readPages] at h
    split_ifs at h with hdone
    · cases h
      exact ⟨pages, hmid, .refl (.inl hdone)⟩
    · obtain ⟨found, kv₁, hrun, hrest⟩ := Kv.exec_bind_eq_ok.mp h
      rw [exec_loadPage] at hrun
      obtain ⟨hload, rfl⟩ := Prod.mk.inj hrun
      cases found with
      | none =>
        obtain ⟨pages', hmid', hmarked⟩ := ih hmid hrest
        have hnone : pages number = none := by
          have hread := pageOf_holds (hl.frame hmid.frame) hmid.holds hmid.ok hload
          exact Option.map_eq_none_iff.mp hread.symm
        exact ⟨pages', hmid', .cons (fun _ => rfl) (fun _ => Nat.le_refl _) rfl (.inr (by rw [hnone]; rfl)) hmarked⟩
      | some page =>
        obtain ⟨p, hp, hnorm, hpok⟩ := ok_of_pageOf (hl.frame hmid.frame) hmid.holds hmid.ok hload
        obtain ⟨hsum, hend⟩ := @readNewest_unread peer wanted read page.messages.reverse
        have hwas : page.messages.reverse.countP (isUnread peer) = unreadOn peer (pages number) := by
          rw [List.countP_reverse, hnorm, countP_isUnread_norm, hp]
          rfl
        rw [hwas] at hsum
        dsimp only at hrest
        split_ifs at hrest with hgrew
        · obtain ⟨u, kv₂, hsave, hrest⟩ := Kv.exec_bind_eq_ok.mp hrest
          have hsame : ∀ {β : Type} (g : F64 → β),
              (readNewest peer wanted read page.messages.reverse).2.reverse.map (fun m => g m.timestamp) =
                page.messages.map fun m => g m.timestamp := by
            intro β g
            rw [List.map_reverse, readNewest_timestamps, List.map_reverse, List.reverse_reverse]
          have hmid₁ := hmid.savePage hsave fun hw => hpok.retimed hw (hsame F64.norm) ⟨rfl, rfl⟩
          obtain ⟨pages', hmid', hmarked⟩ := ih hmid₁ hrest
          have hafter : unreadOn peer (some { page with
              messages := (readNewest peer wanted read page.messages.reverse).2.reverse }) =
              (readNewest peer wanted read page.messages.reverse).2.countP (isUnread peer) := List.countP_reverse
          have hupd := unread_update peer pages number (some { page with
            messages := (readNewest peer wanted read page.messages.reverse).2.reverse })
          rw [hafter] at hupd
          refine ⟨pages', hmid', .cons (SameTimes.update hp ?_) (fun n => ?_) (by omega) ?_ hmarked⟩
          · rw [← p.times_norm, ← hnorm]
            exact hsame F64.scaled
          · by_cases hn : n = number
            · subst hn
              rw [Function.update_self, hafter]
              omega
            · rw [Function.update_of_ne hn]
          · rw [Function.update_self, hafter]
            exact hend
        · obtain ⟨pages', hmid', hmarked⟩ := ih hmid hrest
          have hgrows := @readNewest_grows peer wanted read page.messages.reverse
          refine ⟨pages', hmid', .cons (fun _ => rfl) (fun _ => Nat.le_refl _) (by omega) (hend.imp_right fun hnone => ?_) hmarked⟩
          omega

theorem markRead_absent (hl : NoLegacy kv) (ha : Absent kv own peer) {r : List ConversationMessage × Option ConversationMetadata}
    (h : Kv.exec (markRead own peer now) kv = (.ok r, kv')) : kv' = kv := by
  obtain ⟨metadata, kv₁, hrun, hrest⟩ := Kv.exec_bind_eq_ok.mp h
  rw [exec_loadMetadata, metadataOf_absent hl ha] at hrun
  cases hrun
  cases hrest
  rfl

/-- How many messages `mark_read` is to mark. -/
def wantedOf (m : ConversationMetadata) : Nat := (m.unreadCount.max (F64.ofNat 0)).toU64.toNat

theorem markRead_leaves (hl : NoLegacy kv) (hc : Holds kv own peer c) (hok : c.Ok own peer)
    {r : List ConversationMessage × Option ConversationMetadata}
    (h : Kv.exec (markRead own peer now) kv = (.ok r, kv')) : ∃ m pages' read, m.unreadCount = F64.ofNat 0 ∧
      Marked peer (wantedOf c.metadata.norm) (pagesTo c.metadata.latestPage).reverse c.pages pages' [] read ∧
      Left own peer kv kv' ⟨m, pages'⟩ := by
  obtain ⟨metadata, kv₁, hrun, hrest⟩ := Kv.exec_bind_eq_ok.mp h
  rw [exec_loadMetadata] at hrun
  obtain ⟨hload, rfl⟩ := Prod.mk.inj hrun
  obtain rfl := metadataOf_holds hc hload
  obtain ⟨read, kv₂, hread, hrest⟩ := Kv.exec_bind_eq_ok.mp hrest
  obtain ⟨u, kv₃, hsave, hdone⟩ := Kv.exec_bind_eq_ok.mp hrest
  cases hdone
  obtain ⟨pages', hmid, hmarked⟩ := readPages_mid hl (Mid.start hc.pages hok.pages) hread
  have hleft := hmid.saveMetadata hsave (hok.shrunk hmarked.times.shrunk hmid.ok ⟨rfl, rfl, rfl, F64.norm_norm _⟩ (by
    rw [hmarked.times.count]
    exact hok.total_norm))
  refine ⟨_, pages', read, ?_, hmarked, hleft⟩
  dsimp only

/-! ## Expiring messages -/

/-- The oldest mark is there, finite, and not after `t`. -/
def Below (oldest : Option F64) (t : Int) : Prop := ∃ o, oldest = some o ∧ o.isFinite = true ∧ o.scaled ≤ t

theorem below_oldestOf (ho : ∀ o, oldest = some o → o.isFinite = true) {m : ConversationMessage}
    (hm : m.timestamp.isFinite = true) :
    Below (oldestOf oldest m) m.timestamp.scaled ∧ ∀ t, Below oldest t → Below (oldestOf oldest m) t := by
  cases oldest with
  | none => exact ⟨⟨_, rfl, hm, le_refl _⟩, fun t ⟨o, h, _⟩ => by cases h⟩
  | some o =>
    obtain ⟨hfin, hleft, hright⟩ := F64.min_of_finite (ho o rfl) hm
    refine ⟨⟨_, rfl, hfin, hright⟩, ?_⟩
    rintro t ⟨x, hx, -, hle⟩
    cases hx
    exact ⟨_, rfl, hfin, hleft.trans hle⟩

theorem below_foldl {messages : List ConversationMessage} (hfin : ∀ m ∈ messages, m.timestamp.isFinite = true)
    (ho : ∀ o, oldest = some o → o.isFinite = true) :
    (∀ o, messages.foldl oldestOf oldest = some o → o.isFinite = true) ∧
      (∀ m ∈ messages, Below (messages.foldl oldestOf oldest) m.timestamp.scaled) ∧
      ∀ t, Below oldest t → Below (messages.foldl oldestOf oldest) t := by
  induction messages generalizing oldest with
  | nil => exact ⟨ho, fun m hm => (List.not_mem_nil hm).elim, fun t ht => ht⟩
  | cons m rest ih =>
    obtain ⟨hself, hkeep⟩ := below_oldestOf ho (hfin m (by simp))
    have ho' : ∀ o, oldestOf oldest m = some o → o.isFinite = true := by
      intro o hx
      obtain ⟨o', hx', hf, -⟩ := hself
      rw [hx] at hx'
      exact Option.some.inj hx' ▸ hf
    obtain ⟨hf, hrest, hold⟩ := ih (fun x hx => hfin x (by simp [hx])) ho'
    refine ⟨hf, fun x hx => ?_, fun t ht => hold t (hkeep t ht)⟩
    rcases List.mem_cons.mp hx with rfl | hx
    · exact hold _ hself
    · exact hrest x hx

theorem Shrunk.refl (pages : UInt32 → Option ConversationPage) : Shrunk pages pages :=
  fun _ p hp => ⟨p, hp, List.Subset.refl _⟩

theorem Shrunk.trans {pages₂ : UInt32 → Option ConversationPage} (h : Shrunk pages pages₁)
    (h' : Shrunk pages₁ pages₂) : Shrunk pages pages₂ := by
  intro n p₂ hp₂
  obtain ⟨p₁, hp₁, hsub₁⟩ := h' n p₂ hp₂
  obtain ⟨p, hp, hsub⟩ := h n p₁ hp₁
  exact ⟨p, hp, fun t ht => hsub (hsub₁ ht)⟩

/-- What the loop of `prune_older_than` comes to. -/
structure Pruned (numbers : List UInt32) (pages pages' : UInt32 → Option ConversationPage) (removed removed' : Nat)
    (oldest oldest' : Option F64) : Prop where
  shrunk : Shrunk pages pages'
  count : removed' + Conversation.count pages' = removed + Conversation.count pages
  finite : ∀ o, oldest' = some o → o.isFinite = true
  below : ∀ n ∈ numbers, ∀ p, pages' n = some p → ∀ t ∈ p.times, Below oldest' t
  mono : ∀ t, Below oldest t → Below oldest' t

/-- What the peer sent and nobody has read is not older than the cutoff. -/
def UnreadKept (peer : Cid) (cutoff : F64) (pages : UInt32 → Option ConversationPage) : Prop :=
  ∀ n p, pages n = some p → ∀ m ∈ p.messages, isUnread peer m = true → cutoff.le m.timestamp = true

theorem UnreadKept.filter (h : UnreadKept peer cutoff pages) (hp : pages n = some p) :
    (p.norm.messages.filter fun m => cutoff.le m.timestamp).countP (isUnread peer) = unreadOn peer (pages n) := by
  rw [List.countP_filter, hp, unreadOn, ← countP_isUnread_norm]
  refine List.countP_congr fun m hm => ?_
  obtain ⟨m', hm', rfl⟩ := List.mem_map.mp hm
  rw [Bool.and_eq_true, and_iff_left_iff_imp]
  intro hun
  have hle := h n p hp m' hm' hun
  rwa [← F64.le_norm] at hle

theorem UnreadKept.update (h : UnreadKept peer cutoff pages) (hp : ∀ m ∈ p'.messages, ∃ m' ∈ p.messages, m = m'.norm)
    (hn : pages n = some p) :
    UnreadKept peer cutoff (Function.update pages n (some p')) := by
  intro k q hq m hm hun
  by_cases hk : k = n
  · subst hk
    rw [Function.update_self, Option.some.injEq] at hq
    subst hq
    obtain ⟨m', hm', rfl⟩ := hp m hm
    have hle := h k p hn m' hm' hun
    rwa [← F64.le_norm] at hle
  · rw [Function.update_of_ne hk] at hq
    exact h k q hq m hm hun

theorem prunePages_mid (hl : NoLegacy kv₀) {removed removed' : Nat} {oldest' : Option F64}
    (ho : ∀ o, oldest = some o → o.isFinite = true) (hmid : Mid kv₀ own peer pages kv)
    (h : Kv.exec (prunePages own peer cutoff numbers removed oldest) kv = (.ok (removed', oldest'), kv')) :
    ∃ pages', Mid kv₀ own peer pages' kv' ∧ Pruned numbers pages pages' removed removed' oldest oldest' ∧
      (UnreadKept peer cutoff pages → unread peer pages' = unread peer pages) := by
  induction numbers generalizing removed oldest kv pages with
  | nil =>
    cases h
    exact ⟨pages, hmid, ⟨.refl _, rfl, ho, fun n hn => (List.not_mem_nil hn).elim, fun t ht => ht⟩, fun _ => rfl⟩
  | cons number newer ih =>
    obtain ⟨found, kv₁, hrun, hrest⟩ := Kv.exec_bind_eq_ok.mp h
    rw [exec_loadPage] at hrun
    obtain ⟨hload, rfl⟩ := Prod.mk.inj hrun
    cases found with
    | none =>
      obtain ⟨pages', hmid', hpr, hun⟩ := ih ho hmid hrest
      refine ⟨pages', hmid', ⟨hpr.shrunk, hpr.count, hpr.finite, fun n hn p' hp' t ht => ?_, hpr.mono⟩, hun⟩
      rcases List.mem_cons.mp hn with rfl | hn
      · -- There is no such page, before or after.
        obtain ⟨p, hp, -⟩ := hpr.shrunk n p' hp'
        have hnone := pageOf_holds (hl.frame hmid.frame) hmid.holds hmid.ok hload
        simp [hp] at hnone
      · exact hpr.below n hn p' hp' t ht
    | some page =>
      obtain ⟨p, hp, hnorm, hpok⟩ := ok_of_pageOf (hl.frame hmid.frame) hmid.holds hmid.ok hload
      generalize hkeep : (fun m : ConversationMessage => cutoff.le m.timestamp) = keep at hrest
      have hfin : ∀ m ∈ page.messages.filter keep, m.timestamp.isFinite = true :=
        fun m hm => hpok.finite m (List.mem_of_mem_filter hm)
      obtain ⟨ho', hkept, hmono⟩ := below_foldl hfin ho
      have hlen : page.messages.length = p.messages.length := by simp [hnorm, ConversationPage.norm]
      dsimp only at hrest
      split_ifs at hrest with hall
      · -- Nothing of the page went.
        obtain ⟨pages', hmid', hpr, hun⟩ := ih ho' hmid hrest
        refine ⟨pages', hmid', ⟨hpr.shrunk, hpr.count, hpr.finite, fun n hn q hq t ht => ?_,
          fun t ht => hpr.mono t (hmono t ht)⟩, hun⟩
        rcases List.mem_cons.mp hn with rfl | hn
        · obtain ⟨q', hq', hsub⟩ := hpr.shrunk n q hq
          rw [hp, Option.some.injEq] at hq'
          subst hq'
          have ht := hsub ht
          rw [← ConversationPage.times_norm, ← hnorm, ConversationPage.times, List.mem_map] at ht
          obtain ⟨m, hm, rfl⟩ := ht
          have hin : m ∈ page.messages.filter keep :=
            List.mem_filter.mpr ⟨hm, List.length_filter_eq_length_iff.mp hall m hm⟩
          exact hpr.mono _ (hkept m hin)
        · exact hpr.below n hn q hq t ht
      · obtain ⟨u, kv₂, hsave, hrest⟩ := Kv.exec_bind_eq_ok.mp hrest
        have hmid₁ := hmid.savePage hsave fun hw => hpok.filter hw
        obtain ⟨pages', hmid', hpr, hun⟩ := ih ho' hmid₁ hrest
        have hsub : Shrunk pages (Function.update pages number (some { page with
            messages := page.messages.filter keep
            pageTimestamps := bounds (page.messages.filter keep) (F64.ofNat 0) })) := by
          refine shrunk_update hp ?_
          rw [← p.times_norm, ← hnorm]
          exact (List.filter_sublist.map _).subset
        refine ⟨pages', hmid', ⟨hsub.trans hpr.shrunk, ?_, hpr.finite, fun n hn q hq t ht => ?_,
          fun t ht => hpr.mono t (hmono t ht)⟩, fun hkeepUnread => ?_⟩
        · have hcount := Conversation.count_update pages number (some { page with
            messages := page.messages.filter keep
            pageTimestamps := bounds (page.messages.filter keep) (F64.ofNat 0) })
          have hle := List.length_filter_le keep page.messages
          have hc := hpr.count
          simp only [hp, Conversation.size] at hcount
          omega
        · rcases List.mem_cons.mp hn with rfl | hn
          · obtain ⟨q', hq', hsub'⟩ := hpr.shrunk n q hq
            rw [Function.update_self, Option.some.injEq] at hq'
            subst hq'
            obtain ⟨m, hm, rfl⟩ := List.mem_map.mp (hsub' ht)
            exact hpr.mono _ (hkept m hm)
          · exact hpr.below n hn q hq t ht
        · subst hkeep hnorm
          have hupd := unread_update peer pages number (some { p.norm with
            messages := p.norm.messages.filter fun m => cutoff.le m.timestamp
            pageTimestamps := bounds (p.norm.messages.filter fun m => cutoff.le m.timestamp) (F64.ofNat 0) })
          have hsame := hkeepUnread.filter hp
          rw [hun (hkeepUnread.update (fun m hm => ?_) hp)]
          · simp only [unreadOn] at hupd hsame
            omega
          · obtain ⟨m', hm', rfl⟩ := List.mem_map.mp (List.mem_of_mem_filter hm)
            exact ⟨m', hm', rfl⟩

theorem pruneOlderThan_absent (hl : NoLegacy kv) (ha : Absent kv own peer) {r : Nat}
    (h : Kv.exec (pruneOlderThan own peer cutoff now) kv = (.ok r, kv')) : kv' = kv := by
  obtain ⟨metadata, kv₁, hrun, hrest⟩ := Kv.exec_bind_eq_ok.mp h
  rw [exec_loadMetadata, metadataOf_absent hl ha] at hrun
  cases hrun
  cases hrest
  rfl

theorem pruneOlderThan_leaves (hl : NoLegacy kv) (hc : Holds kv own peer c) (hok : c.Ok own peer) {r : Nat}
    (h : Kv.exec (pruneOlderThan own peer cutoff now) kv = (.ok r, kv')) : kv' = kv ∨ ∃ m pages',
      (m = c.metadata ∨ m.unreadCount = c.metadata.norm.unreadCount) ∧
      (UnreadKept peer cutoff c.pages → unread peer pages' = unread peer c.pages) ∧ Left own peer kv kv' ⟨m, pages'⟩ := by
  obtain ⟨metadata, kv₁, hrun, hrest⟩ := Kv.exec_bind_eq_ok.mp h
  rw [exec_loadMetadata] at hrun
  obtain ⟨hload, rfl⟩ := Prod.mk.inj hrun
  obtain rfl := metadataOf_holds hc hload
  dsimp only at hrest
  split_ifs at hrest with hearly
  · cases hrest
    exact .inl rfl
  · obtain ⟨⟨removed, oldest⟩, kv₂, hprune, hrest⟩ := Kv.exec_bind_eq_ok.mp hrest
    obtain ⟨pages', hmid, hpr, hun⟩ :=
      prunePages_mid hl (fun o ho => by cases ho) (Mid.start hc.pages hok.pages) hprune
    have hcount := hpr.count
    have hlt := Conversation.count_lt hok.pages
    dsimp only at hrest
    split_ifs at hrest with h0
    · -- Nothing went: the metadata still counts what is there.
      cases hrest
      refine .inr ⟨_, pages', .inl rfl, hun, hmid.finish hc (hok.shrunk hpr.shrunk hmid.ok ⟨rfl, rfl, rfl, rfl⟩ ?_)⟩
      rw [hok.total, show Conversation.count pages' = Conversation.count c.pages by omega]
    · obtain ⟨u, kv₃, hsave, hdone⟩ := Kv.exec_bind_eq_ok.mp hrest
      cases hdone
      have hbelow : ∀ n p, pages' n = some p → ∀ t ∈ p.times, Below oldest t := by
        intro n p hp t ht
        obtain ⟨q, hq, -⟩ := hpr.shrunk n p hp
        exact hpr.below n (mem_pagesTo.mpr (hok.latest n q hq)) p hp t ht
      refine .inr ⟨_, pages', .inr ?_, hun, hmid.saveMetadata hsave ⟨hok.peerCid, hok.ownerCid, hmid.ok, ?_, ?_, ?_, ?_⟩⟩
      · rfl
      · intro n p hp
        obtain ⟨q, hq, -⟩ := hpr.shrunk n p hp
        exact hok.latest n q hq
      · show F64.max (F64.sub c.metadata.norm.totalMessageCount _) _ = _
        rw [hok.total_norm, F64.ofNat_sub_max (by omega) (by omega),
          show Conversation.count pages' = Conversation.count c.pages - r by omega]
      · show (oldest.getD (F64.ofNat 0)).isFinite = true
        cases oldest with
        | none =>
          rw [Option.getD_none]
          exact F64.isFinite_ofNat (by decide)
        | some o => exact hpr.finite o rfl
      · intro n p hp t ht
        obtain ⟨o, rfl, -, hle⟩ := hbelow n p hp t ht
        exact hle

/-! ## Deleting a conversation -/

theorem exec_deletePages {o : Option Cid} {latest : UInt32}
    (h : Kv.exec (deleteAll ((pagesTo latest).map (pageKey (Place.mk o peer none).base))) kv = (.ok u, kv')) (p : Place) :
    kv'.at_ p = if p.owner = o ∧ p.peer = peer ∧ (∃ n ≤ latest, p.page = some n) then none else kv.at_ p := by
  obtain ⟨kv₁, hrun, hlookup⟩ := exec_deleteAll ((pagesTo latest).map (pageKey (Place.mk o peer none).base)) kv
  rw [hrun] at h
  obtain ⟨-, rfl⟩ := Prod.mk.inj h
  rw [Kv.at_, hlookup, Kv.at_]
  simp only [mem_pageKeys]

theorem deleted_eq (hc : Holds kv own peer c) (hok : c.Ok own peer) (p : Place) :
    (if p = .metadata own peer then none
      else if p.owner = some own ∧ p.peer = peer ∧ (∃ n ≤ c.metadata.norm.latestPage, p.page = some n) then none
      else kv.at_ p) = if p.owner = some own ∧ p.peer = peer then none else kv.at_ p := by
  obtain ⟨owner, q, part⟩ := p
  by_cases hp : owner = some own ∧ q = peer
  · obtain ⟨rfl, rfl⟩ := hp
    cases part with
    | none => simp
    | some n =>
      by_cases hn : n ≤ c.metadata.latestPage
      · simp [ConversationMetadata.norm, hn]
      · have hnone : c.pages n = none := by
          by_contra hsome
          obtain ⟨x, hx⟩ := Option.ne_none_iff_exists'.mp hsome
          exact hn (hok.latest n x hx)
        have hat : kv.at_ (.messages own q n) = none := by rw [hc.pages n, hnone, Option.map_none]
        simp [hat]
  · have hne : Place.mk owner q part ≠ .metadata own peer := by
      intro he
      obtain ⟨h1, h2, -⟩ := Place.mk.inj he
      exact hp ⟨h1, h2⟩
    rw [if_neg hne, if_neg fun h => hp ⟨h.1, h.2.1⟩, if_neg hp]

theorem delete_absent (hl : NoLegacy kv) (ha : Absent kv own peer) {includeUnattributed : Bool}
    (h : Kv.exec (delete own peer includeUnattributed) kv = (.ok r, kv')) : kv' = kv := by
  obtain ⟨metadata, kv₁, hrun, hrest⟩ := Kv.exec_bind_eq_ok.mp h
  rw [exec_loadMetadata, metadataOf_absent hl ha] at hrun
  cases hrun
  cases hrest
  rfl

theorem delete_leaves (hl : NoLegacy kv) (hc : Holds kv own peer c) (hok : c.Ok own peer) {includeUnattributed : Bool}
    (h : Kv.exec (delete own peer includeUnattributed) kv = (.ok r, kv')) :
    kv' = kv ∨ Absent kv' own peer ∧ Frame own peer kv kv' := by
  obtain ⟨metadata, kv₁, hrun, hrest⟩ := Kv.exec_bind_eq_ok.mp h
  rw [exec_loadMetadata] at hrun
  obtain ⟨hload, rfl⟩ := Prod.mk.inj hrun
  obtain rfl := metadataOf_holds hc hload
  dsimp only at hrest
  split_ifs at hrest with hmay
  · cases hrest
    exact .inl rfl
  · obtain ⟨u₂, kv₂, hpages, hrest⟩ := Kv.exec_bind_eq_ok.mp hrest
    obtain ⟨u₃, kv₃, hmeta, hrest⟩ := Kv.exec_bind_eq_ok.mp hrest
    have hkv₃ : kv₃ = kv₂.erase (Place.metadata own peer).name := (Prod.mk.inj hmeta).2.symm
    have hscoped : ∀ p : Place, kv₃.at_ p = if p.owner = some own ∧ p.peer = peer then none else kv.at_ p :=
      fun p => by rw [hkv₃, Kv.at_erase, exec_deletePages (o := some own) hpages p, deleted_eq hc hok p]
    have hl₃ : NoLegacy kv₃ := fun q part => by rw [hscoped, if_neg (by simp), hl]
    obtain ⟨legacyMeta, kv₄, hlegacy, hrest⟩ := Kv.exec_bind_eq_ok.mp hrest
    have hread : Kv.exec (metadataAt (metadataKey (legacyKey peer))) kv₃ =
        (metadataAtPlace kv₃ (.legacyMetadata peer), kv₃) := exec_metadataAt honest_handle (.legacyMetadata peer) kv₃
    rw [hread] at hlegacy
    obtain ⟨hnone, rfl⟩ := Prod.mk.inj hlegacy
    have hgone : ∀ p : Place, kv'.at_ p = kv₃.at_ p := by
      rw [metadataAtPlace, show kv₃.at_ (.legacyMetadata peer) = none from hl₃ peer none] at hnone
      obtain rfl := Except.ok.inj hnone
      split_ifs at hrest with hallowed
      · obtain ⟨u₅, kv₅, hpages', hrest⟩ := Kv.exec_bind_eq_ok.mp hrest
        obtain ⟨u₆, kv₆, hmeta', hdone⟩ := Kv.exec_bind_eq_ok.mp hrest
        cases hdone
        intro p
        have hkv' : kv' = kv₅.erase (Place.legacyMetadata peer).name := (Prod.mk.inj hmeta').2.symm
        rw [hkv', Kv.at_erase, exec_deletePages (o := none) hpages' p]
        split_ifs with h1 h2
        · rw [h1, hl₃]
        · rw [show p = ⟨none, p.peer, p.page⟩ from Place.ext h2.1 rfl rfl, hl₃]
        · rfl
      · cases hrest
        exact fun p => rfl
    refine .inr ⟨⟨?_, fun n => ?_⟩, fun p hp => ?_⟩
    · rw [hgone, hscoped, if_pos ⟨rfl, rfl⟩]
    · rw [hgone, hscoped, if_pos ⟨rfl, rfl⟩]
    · rw [hgone, hscoped, if_neg hp]

/-! ## Appending -/

/-- What a draft was read from: a conversation, which for a new one is still empty. -/
structure DraftOf (own peer : Cid) (c : Conversation) (d : Draft) : Prop where
  marks : SameMarks c.metadata d.metadata
  total : d.metadata.totalMessageCount = F64.ofNat (Conversation.count c.pages)
  page : d.page.Ok peer d.metadata.latestPage
  times : d.page.times = ((c.pages d.metadata.latestPage).map ConversationPage.times).getD []
  isNew : d.isNew = true → Conversation.count c.pages = 0

theorem Conversation.count_none : count (fun _ => none) = 0 := Finset.sum_eq_zero fun _ _ => rfl

theorem Conversation.ok_new (own peer : Cid) (name : Option String) (now : F64) (hfin : message.timestamp.isFinite = true) :
    (Conversation.mk (newMetadata own peer message name now) fun _ => none).Ok own peer where
  peerCid := rfl
  ownerCid := rfl
  pages := by simp
  latest := by simp
  total := by simp only [count_none, newMetadata]
  oldestFinite := hfin
  oldest := by simp

/-- The conversation a draft was read from, whose unread messages the draft counts. -/
structure Starts (kv : Kv) (own peer : Cid) (c : Conversation) (d : Draft) : Prop where
  holds : HoldsPages kv own peer c.pages
  ok : c.Ok own peer
  draft : DraftOf own peer c d
  unreadPage : d.page.messages.countP (isUnread peer) = unreadOn peer (c.pages d.metadata.latestPage)
  unreadCount : d.metadata.unreadCount = c.metadata.norm.unreadCount

def Conversation.fresh (own peer : Cid) (message : ConversationMessage) (name : Option String) : Conversation :=
  ⟨newMetadata own peer message name message.timestamp, fun _ => none⟩

theorem draft_of_absent (hl : NoLegacy kv) (ha : Absent kv own peer) (hfin : message.timestamp.isFinite = true)
    (h : draftOf kv own peer message name = .ok (some d)) : Starts kv own peer (.fresh own peer message name) d := by
  obtain ⟨existing, hmeta, hdm, hdn, hpage, -⟩ := draftOf_eq_some.mp h
  obtain ⟨found, hfound, hget⟩ := newestPage_eq_ok.mp hpage
  rw [metadataOf_absent hl ha] at hmeta
  obtain rfl := Except.ok.inj hmeta
  have hholds : HoldsPages kv own peer fun _ => none := ha.pages
  have hnone := pageOf_holds hl hholds (by simp) hfound
  rw [Option.map_none] at hnone
  rw [hnone, Option.getD_none] at hget
  refine ⟨hholds, Conversation.ok_new own peer name message.timestamp hfin, ⟨?_, ?_, ?_, ?_, ?_⟩, ?_, ?_⟩
  · rw [hdm]
    exact ⟨rfl, rfl, rfl, rfl⟩
  · simp only [hdm, Conversation.count_none, Conversation.fresh, stamped, Option.getD_none, newMetadata]
  · rw [hget]
    exact ConversationPage.ok_emptyPage _ _ _
  · rw [hget]
    rfl
  · exact fun _ => Conversation.count_none
  · rw [hget]
    rfl
  · have hzero := F64.norm_ofNat (n := 0) (by decide)
    simp only [hdm, Conversation.fresh, stamped, Option.getD_none, newMetadata, ConversationMetadata.norm, hzero]

theorem draft_of_holds (hl : NoLegacy kv) (hc : Holds kv own peer c) (hok : c.Ok own peer)
    (h : draftOf kv own peer message name = .ok (some d)) : Starts kv own peer c d := by
  obtain ⟨existing, hmeta, hdm, hdn, hpage, -⟩ := draftOf_eq_some.mp h
  obtain ⟨found, hfound, hget⟩ := newestPage_eq_ok.mp hpage
  obtain rfl := metadataOf_holds hc hmeta
  have hdm' : d.metadata = c.metadata.norm := by
    have howner : c.metadata.norm.ownerCid = some own := hok.ownerCid
    rw [hdm, Option.getD_some, stamped, howner, Option.getD_some, ← howner]
  have hread := pageOf_holds hl hc.pages hok.pages hfound
  refine ⟨hc.pages, hok, ⟨?_, ?_, ?_, ?_, ?_⟩, ?_, congrArg (·.unreadCount) hdm'⟩
  · rw [hdm']
    exact ⟨rfl, rfl, rfl, F64.norm_norm _⟩
  · rw [hdm', hok.total_norm]
  · cases found with
    | none =>
      rw [hget]
      exact ConversationPage.ok_emptyPage _ _ _
    | some page =>
      obtain ⟨-, -, -, hpok⟩ := ok_of_pageOf hl hc.pages hok.pages hfound
      rw [hget]
      exact hpok
  · rw [hget, hread]
    cases c.pages d.metadata.latestPage with
    | none => rfl
    | some p => exact p.times_norm
  · intro hnew
    rw [hdn] at hnew
    cases hnew
  · rw [hget, hread]
    cases c.pages d.metadata.latestPage with
    | none => rfl
    | some p => exact countP_isUnread_norm peer p

/-- The times of the conversation after: the message's, and those there were. -/
def Gained (time : Int) (pages pages' : UInt32 → Option ConversationPage) : Prop :=
  ∀ n p', pages' n = some p' → ∀ t ∈ p'.times, t = time ∨ ∃ k p, pages k = some p ∧ t ∈ p.times

theorem DraftOf.recorded (hd : DraftOf own peer c d) (hok : c.Ok own peer) (hfin : message.timestamp.isFinite = true) (now : F64)
    (hpages : ∀ n p, pages n = some p → p.Ok peer n) (hlatest : ∀ n p, pages n = some p → n ≤ d.number)
    (hcount : Conversation.count pages = Conversation.count c.pages + 1) (hgained : Gained message.timestamp.scaled c.pages pages) :
    (Conversation.mk (d.recorded own message now) pages).Ok own peer := by
  have hlt := Conversation.count_lt hok.pages
  have htotal : d.metadata.totalMessageCount.add (F64.ofNat 1) = F64.ofNat (Conversation.count pages) := by
    rw [hd.total, F64.ofNat_add_one (by omega), hcount]
  have hofin : d.metadata.oldestMessageTimestamp.isFinite = true := by
    rw [← F64.isFinite_norm, hd.marks.oldest, F64.isFinite_norm, hok.oldestFinite]
  have hold : ∀ k p, c.pages k = some p → ∀ t ∈ p.times, d.metadata.oldestMessageTimestamp.scaled ≤ t := by
    intro k p hp t ht
    rw [← F64.scaled_norm, hd.marks.oldest, F64.scaled_norm]
    exact hok.oldest k p hp t ht
  have hempty : Conversation.count c.pages = 0 → ∀ k p, c.pages k = some p → ∀ t, t ∉ p.times := by
    intro h0 k p hp t ht
    have hle := Conversation.size_le_count c.pages k
    have hpos := List.length_pos_of_mem ht
    rw [p.length_times] at hpos
    simp only [hp, Conversation.size] at hle
    omega
  have hmark : (d.recorded own message now).oldestMessageTimestamp =
      if d.isNew || (F64.ofNat (Conversation.count pages)).eq (F64.ofNat 1) ||
        message.timestamp.lt d.metadata.oldestMessageTimestamp then message.timestamp
      else d.metadata.oldestMessageTimestamp := by
    rw [← htotal]
    rfl
  refine ⟨hd.marks.peerCid.trans hok.peerCid, hd.marks.ownerCid.trans hok.ownerCid, hpages, hlatest, htotal, ?_, ?_⟩
  · show (d.recorded own message now).oldestMessageTimestamp.isFinite = true
    rw [hmark]
    split_ifs
    · exact hfin
    · exact hofin
  · intro n p hp t ht
    show (d.recorded own message now).oldestMessageTimestamp.scaled ≤ t
    rw [hmark]
    split_ifs with hfirst
    · rcases hgained n p hp t ht with rfl | ⟨k, q, hq, htq⟩
      · exact le_refl _
      · -- There are older messages, so the mark moved because this one is older than all of them.
        have hn0 : Conversation.count c.pages ≠ 0 := fun h0 => hempty h0 k q hq t htq
        have hnew : d.isNew = false := by
          cases hb : d.isNew with
          | false => rfl
          | true => exact absurd (hd.isNew hb) hn0
        have hne : (F64.ofNat (Conversation.count pages)).eq (F64.ofNat 1) = false := by
          rw [Bool.eq_false_iff, Ne, F64.ofNat_eq_iff (by omega) (by decide)]
          omega
        rw [hnew, hne, Bool.false_or, Bool.false_or, F64.lt_iff hfin hofin] at hfirst
        exact hfirst.le.trans (hold k q hq t htq)
    · rcases hgained n p hp t ht with rfl | ⟨k, q, hq, htq⟩
      · simp only [Bool.or_eq_true, not_or, F64.lt_iff hfin hofin] at hfirst
        omega
      · exact hold k q hq t htq

theorem DraftOf.size (hd : DraftOf own peer c d) :
    Conversation.size (c.pages d.metadata.latestPage) = d.page.messages.length := by
  have hlen := congrArg List.length hd.times
  rw [ConversationPage.length_times] at hlen
  cases hp : c.pages d.metadata.latestPage with
  | none =>
    rw [hp] at hlen
    exact hlen.symm
  | some p =>
    rw [hp, Option.map_some, Option.getD_some, ConversationPage.length_times] at hlen
    exact hlen.symm

theorem DraftOf.mem_times (hd : DraftOf own peer c d) {t : Int} (ht : t ∈ d.page.times) :
    ∃ k p, c.pages k = some p ∧ t ∈ p.times := by
  rw [hd.times] at ht
  cases hp : c.pages d.metadata.latestPage with
  | none => simp [hp] at ht
  | some p =>
    rw [hp] at ht
    exact ⟨_, p, hp, ht⟩

theorem length_place (p : ConversationPage) (message : ConversationMessage) :
    (place p message).messages.length = p.messages.length + 1 := by
  have h := (p.times_place message).length_eq
  rwa [ConversationPage.length_times, List.length_cons, ConversationPage.length_times] at h

def TimesOf (c : Conversation) (p : ConversationPage) : Prop := ∀ t ∈ p.times, ∃ k q, c.pages k = some q ∧ t ∈ q.times

theorem countP_place (p : ConversationPage) (message : ConversationMessage) :
    (place p message).messages.countP (isUnread peer) =
      p.messages.countP (isUnread peer) + if isUnread peer message then 1 else 0 := by
  show ((p.messages ++ [message]).mergeSort earlier).countP (isUnread peer) = _
  rw [(List.mergeSort_perm (p.messages ++ [message]) earlier).countP_eq, List.countP_append, List.countP_singleton]

/-- What an append leaves: one message more, unread if the peer sent it and nobody has read it. -/
structure Gains (own peer : Cid) (kv kv' : Kv) (c : Conversation) (d : Draft) (message : ConversationMessage) (now : F64)
    (pages : UInt32 → Option ConversationPage) : Prop where
  left : Left own peer kv kv' ⟨d.recorded own message now, pages⟩
  unread : unread peer pages = unread peer c.pages + if isUnread peer message then 1 else 0

theorem Mid.placeMessage {base : ConversationPage} (hmid : Mid kv₀ own peer pages kv) (hok : c.Ok own peer)
    (hd : DraftOf own peer c d) (hfin : message.timestamp.isFinite = true) (now : F64) (hbase : base.Ok peer d.number)
    (hroom : base.messages.length < MESSAGES_PER_PAGE) (hsize : Conversation.size (pages d.number) = base.messages.length)
    (hpage : unreadOn peer (pages d.number) = base.messages.countP (isUnread peer))
    (hunread : unread peer pages = unread peer c.pages) (hcount : Conversation.count pages = Conversation.count c.pages)
    (hlatest : ∀ n p, pages n = some p → n ≤ d.number) (htimes : ∀ n p, pages n = some p → TimesOf c p) (hbt : TimesOf c base)
    (hwritable : (place base message).FiniteReactions) :
    ∃ pages', Gains own peer kv₀ ((kv.insert (Place.messages own peer d.number).name
      (pageBytes (place base message))).insert (Place.metadata own peer).name (metadataBytes (d.recorded own message now)))
      c d message now pages' := by
  have hmid' := hmid.write (hbase.place hroom hfin hwritable)
  have hupd := Conversation.count_update pages d.number (some (place base message))
  rw [hsize, Conversation.size, length_place] at hupd
  refine ⟨_, hmid'.writeMetadata (hd.recorded hok hfin now hmid'.ok (fun n p hp => ?_) (by omega) fun n p hp t ht => ?_), ?_⟩
  · by_cases hn : n = d.number
    · exact hn ▸ UInt32.le_refl _
    · rw [Function.update_of_ne hn] at hp
      exact hlatest n p hp
  · by_cases hn : n = d.number
    · rw [hn, Function.update_self, Option.some.injEq] at hp
      subst hp
      rcases List.mem_cons.mp ((ConversationPage.times_place _ _).mem_iff.mp ht) with rfl | hmem
      · exact .inl rfl
      · exact .inr (hbt t hmem)
    · rw [Function.update_of_ne hn] at hp
      exact .inr (htimes n p hp t ht)
  · have hgain := unread_update peer pages d.number (some (place base message))
    rw [hpage, hunread, unreadOn, countP_place] at hgain
    omega

theorem commit_gains {writes : List (Place × Bytes)} (hs : Starts kv own peer c d) (hf : ¬ d.Full)
    (hw : d.Writes own peer message writes) (hfin : message.timestamp.isFinite = true) (now : F64) :
    ∃ pages', Gains own peer kv (insertAll (writes ++ [d.pointer own message now]) kv) c d message now pages' := by
  obtain ⟨hholds, hok, hd, hpage, -⟩ := hs
  rw [Draft.Writes, if_neg hf] at hw
  obtain ⟨placed, hplaced, rfl⟩ := hw
  rw [Draft.placed, if_neg hf] at hplaced
  obtain ⟨hwritable, rfl⟩ := (encodePage_eq_ok _ _).mp hplaced
  have hnumber : d.number = d.metadata.latestPage := if_neg hf
  have hpeer : d.metadata.peerCid = peer := hd.marks.peerCid.trans hok.peerCid
  rw [List.singleton_append, insertAll, insertAll, insertAll, Draft.pointer, hd.page.peerCid, hd.page.pageNumber, hpeer,
    ← hnumber]
  refine (Mid.start hholds hok.pages).placeMessage hok hd hfin now (hnumber ▸ hd.page) (not_le.mp hf) (hnumber ▸ hd.size)
    (hnumber ▸ hpage.symm) rfl rfl (fun n p hp => ?_) (fun n p hp t ht => ⟨n, p, hp, ht⟩) (fun t ht => hd.mem_times ht) hwritable
  rw [hnumber, hd.marks.latestPage]
  exact hok.latest n p hp

theorem commit_full_gains {writes : List (Place × Bytes)} (hs : Starts kv own peer c d) (hf : d.Full)
    (hw : d.Writes own peer message writes) (hfin : message.timestamp.isFinite = true) (now : F64) :
    ∃ pages', Gains own peer kv (insertAll (writes ++ [d.pointer own message now]) kv) c d message now pages' := by
  obtain ⟨hholds, hok, hd, hpage, -⟩ := hs
  rw [Draft.Writes, if_pos hf] at hw
  obtain ⟨hroom, closed, placed, hclosed, hplaced, rfl⟩ := hw
  rw [Draft.placed, if_pos hf] at hplaced
  obtain ⟨-, rfl⟩ := (encodePage_eq_ok _ _).mp hclosed
  obtain ⟨hwritable, rfl⟩ := (encodePage_eq_ok _ _).mp hplaced
  have hnumber : d.number = d.metadata.latestPage + 1 := if_pos hf
  have hpeer : d.metadata.peerCid = peer := hd.marks.peerCid.trans hok.peerCid
  have hnext : (d.metadata.latestPage + 1).toNat = d.metadata.latestPage.toNat + 1 := by
    rw [UInt32.toNat_add, UInt32.toNat_one, Nat.mod_eq_of_lt hroom]
  have hlatest : ∀ n p, Function.update c.pages d.metadata.latestPage (some d.page) n = some p →
      n ≤ d.metadata.latestPage := by
    intro n p hp
    by_cases hn : n = d.metadata.latestPage
    · exact hn ▸ UInt32.le_refl _
    · rw [Function.update_of_ne hn] at hp
      rw [hd.marks.latestPage]
      exact hok.latest n p hp
  have hfresh : Function.update c.pages d.metadata.latestPage (some d.page) d.number = none := by
    by_contra hsome
    obtain ⟨p, hp⟩ := Option.ne_none_iff_exists'.mp hsome
    have hle := UInt32.le_iff_toNat_le.mp (hlatest _ p hp)
    rw [hnumber] at hle
    omega
  have hcount := Conversation.count_update c.pages d.metadata.latestPage (some d.page)
  rw [hd.size, Conversation.size] at hcount
  rw [List.cons_append, List.singleton_append, insertAll, insertAll, insertAll, insertAll, Draft.pointer, hd.page.peerCid,
    hd.page.pageNumber, hpeer, ← hnumber]
  have hbase : (emptyPage peer d.number message.timestamp).Ok peer d.number := ConversationPage.ok_emptyPage _ _ _
  refine ((Mid.start hholds hok.pages).write hd.page).placeMessage hok hd hfin now hbase (by simp [emptyPage, MESSAGES_PER_PAGE])
    ?_ ?_ ?_ (Nat.add_right_cancel hcount) (fun n p hp => ?_) (fun n p hp t ht => ?_) (by rintro _ ⟨⟩)
    (hnumber ▸ hwritable)
  · rw [hfresh]
    rfl
  · rw [hfresh]
    rfl
  · have hsame := unread_update peer c.pages d.metadata.latestPage (some d.page)
    rw [unreadOn, hpage] at hsame
    omega
  · have hle := UInt32.le_iff_toNat_le.mp (hlatest n p hp)
    rw [UInt32.le_iff_toNat_le, hnumber]
    omega
  · by_cases hn : n = d.metadata.latestPage
    · rw [hn, Function.update_self, Option.some.injEq] at hp
      exact hd.mem_times (hp ▸ ht)
    · rw [Function.update_of_ne hn] at hp
      exact ⟨n, p, hp, ht⟩

def Appended (own peer : Cid) (kv kv' : Kv) (c : Conversation) (message : ConversationMessage) : Prop :=
  kv' = kv ∨ ∃ d now pages, d.metadata.unreadCount = c.metadata.norm.unreadCount ∧ Gains own peer kv kv' c d message now pages

theorem append_of_starts {r : Option ConversationMetadata} (hfin : message.timestamp.isFinite = true)
    (hstarts : ∀ d, draftOf kv own peer message name = .ok (some d) → Starts kv own peer c d)
    (h : Kv.exec (append own peer message name now) kv = (.ok r, kv')) : Appended own peer kv kv' c message := by
  rcases append_eq_ok h with ⟨-, rfl⟩ | ⟨d, writes, hdraft, hw, -, rfl⟩
  · exact .inl rfl
  · have hs := hstarts d hdraft
    by_cases hf : d.Full
    · obtain ⟨pages, hgains⟩ := commit_full_gains hs hf hw hfin now
      exact .inr ⟨d, now, pages, hs.unreadCount, hgains⟩
    · obtain ⟨pages, hgains⟩ := commit_gains hs hf hw hfin now
      exact .inr ⟨d, now, pages, hs.unreadCount, hgains⟩

theorem append_absent (hl : NoLegacy kv) (ha : Absent kv own peer) {r : Option ConversationMetadata}
    (hfin : message.timestamp.isFinite = true) (h : Kv.exec (append own peer message name now) kv = (.ok r, kv')) :
    Appended own peer kv kv' (.fresh own peer message name) message :=
  append_of_starts hfin (fun _ hd => draft_of_absent hl ha hfin hd) h

theorem append_leaves (hl : NoLegacy kv) (hc : Holds kv own peer c) (hok : c.Ok own peer)
    {r : Option ConversationMetadata} (hfin : message.timestamp.isFinite = true)
    (h : Kv.exec (append own peer message name now) kv = (.ok r, kv')) : Appended own peer kv kv' c message :=
  append_of_starts hfin (fun _ hd => draft_of_holds hl hc hok hd) h

end Operations

end CitadelAgent.Conversations
