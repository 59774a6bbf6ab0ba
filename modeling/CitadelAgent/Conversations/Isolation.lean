import CitadelAgent.Conversations.Listing

/-!
# What one account reads of another's records

All accounts share one bucket. Records written before keys were scoped are under the peer alone; their metadata may be
stamped with the account they belong to, their pages never are.

* `StampedForOther` : the legacy metadata of a peer is another account's;
* `DifferOnly` : two buckets with the same records but for the pages of such conversations;
* `Isolated` : on buckets that differ so, every call of the store answers, and leaves the account's records, the same;
* `isolated_iff` : exactly when that holds.
-/

namespace CitadelAgent.Conversations
open Store StoreRules

/-! ## Calls -/

inductive StoreCall
  | loadMetadata
  | loadPage (number : UInt32)
  | append (message : ConversationMessage) (peerUsername : Option String) (now : F64)
  | find (id : String)
  | update (id : String) (change : ConversationMessage → Option ConversationMessage)
  | list
  | markRead (now : F64)
  | pruneOlderThan (cutoff now : F64)

abbrev StoreCall.Answer : StoreCall → Type
  | .loadMetadata => Option ConversationMetadata
  | .loadPage _ => Option ConversationPage
  | .append .. => Option ConversationMetadata
  | .find _ => Option Found
  | .update .. => Option ConversationMessage
  | .list => List ConversationMetadata
  | .markRead _ => List ConversationMessage × Option ConversationMetadata
  | .pruneOlderThan .. => Nat

def StoreCall.program (own peer : Cid) : (c : StoreCall) → KvM c.Answer
  | .loadMetadata => Store.loadMetadata own peer
  | .loadPage number => Store.loadPage own peer number
  | .append message peerUsername now => Store.append own peer message peerUsername now
  | .find id => Store.find own peer id
  | .update id change => Store.update own peer id change
  | .list => Store.list own
  | .markRead now => Store.markRead own peer now
  | .pruneOlderThan cutoff now => Store.pruneOlderThan own peer cutoff now

/-! ## Two runs of a call -/

section Calls

variable {own peer : Cid} {R : Kv → Kv → Prop}

/-- Related buckets read the same for this conversation, and stay related when the account writes the same to both. -/
structure Indistinct (own peer : Cid) (R : Kv → Kv → Prop) : Prop where
  metadata : ∀ {kv kv'}, R kv kv' → metadataOf kv own peer = metadataOf kv' own peer
  page : ∀ {kv kv'}, R kv kv' → ∀ n, pageOf kv own peer n = pageOf kv' own peer n
  write : ∀ {kv kv'}, R kv kv' → ∀ (q : Cid) (part : Option UInt32) (b : Bytes),
    R (kv.insert (Place.mk (some own) q part).name b) (kv'.insert (Place.mk (some own) q part).name b)

abbrev Steady (R : Kv → Kv → Prop) {α : Type} (x : KvM α) : Prop := Prog.Lockstep Kv.handle R x

variable (h : Indistinct own peer R)
include h

theorem steady_loadMetadata : Steady R (loadMetadata own peer) := by
  intro kv kv' hr
  rw [← Kv.exec, ← Kv.exec, exec_loadMetadata, exec_loadMetadata]
  exact ⟨h.metadata hr, hr⟩

theorem steady_loadPage (n : UInt32) : Steady R (loadPage own peer n) := by
  intro kv kv' hr
  rw [← Kv.exec, ← Kv.exec, exec_loadPage, exec_loadPage]
  exact ⟨h.page hr n, hr⟩

theorem steady_saveMetadata (m : ConversationMetadata) : Steady R (saveMetadata own m) := by
  intro kv kv' hr
  rw [← Kv.exec, ← Kv.exec, exec_saveMetadata, exec_saveMetadata]
  exact ⟨rfl, h.write hr _ _ _⟩

theorem steady_savePage (p : ConversationPage) : Steady R (savePage own p) := by
  intro kv kv' hr
  rw [← Kv.exec, ← Kv.exec, exec_savePage, exec_savePage]
  cases encodePage p with
  | ok b => exact ⟨rfl, h.write hr _ _ _⟩
  | error e => exact ⟨rfl, hr⟩

theorem steady_append (message : ConversationMessage) (name : Option String) (now : F64) :
    Steady R (append own peer message name now) := by
  refine .bind (steady_loadMetadata h) fun existing => .bind (steady_loadPage h _) fun found => ?_
  refine .bind ?_ fun stored => .ite (.pure _) ?_
  · refine .ite (.pure _) (.ite (.pure _) (.bind (steady_loadPage h _) fun _ => .pure _))
  · refine .bind (.ite ?_ (.pure _)) fun _ => ?_
    · refine .bind (steady_savePage h _) fun _ => .bind ?_ fun _ => .pure _
      exact .ite (.pure _) (.throw _)
    · exact .bind (steady_savePage h _) fun _ => .bind (steady_saveMetadata h _) fun _ => .pure _

theorem steady_findOn (metadata : ConversationMetadata) (id : String) (numbers : List UInt32) :
    Steady R (findOn own metadata peer id numbers) := by
  induction numbers with
  | nil => exact .pure _
  | cons number rest ih =>
    refine .bind (steady_loadPage h number) fun found => ?_
    cases found with
    | none => exact ih
    | some page =>
      dsimp only
      cases page.messages.findFinIdx? (hasId id) with
      | none => exact ih
      | some index => exact .pure _

theorem steady_find (id : String) : Steady R (find own peer id) := by
  refine .bind (steady_loadMetadata h) fun found => ?_
  cases found with
  | none => exact .pure _
  | some metadata => exact steady_findOn h metadata id _

theorem steady_update (id : String) (change : ConversationMessage → Option ConversationMessage) :
    Steady R (update own peer id change) := by
  refine .bind (steady_find h id) fun found => ?_
  cases found with
  | none => exact .pure _
  | some found =>
    dsimp only
    cases change found.message with
    | none => exact .pure _
    | some changed => exact .bind (steady_savePage h _) fun _ => .pure _

theorem steady_readPages (wanted : Nat) (numbers : List UInt32) (read : List ConversationMessage) :
    Steady R (readPages own peer wanted numbers read) := by
  induction numbers generalizing read with
  | nil => exact .pure _
  | cons number older ih =>
    refine .ite (.pure _) (.bind (steady_loadPage h number) fun found => ?_)
    cases found with
    | none => exact ih read
    | some page => exact .ite (.bind (steady_savePage h _) fun _ => ih _) (ih _)

theorem steady_markRead (now : F64) : Steady R (markRead own peer now) := by
  refine .bind (steady_loadMetadata h) fun found => ?_
  cases found with
  | none => exact .pure _
  | some metadata =>
    refine .bind (steady_readPages h _ _ _) fun read => ?_
    exact .bind (steady_saveMetadata h _) fun _ => .pure _

theorem steady_prunePages (cutoff : F64) (numbers : List UInt32) (removed : Nat) (oldest : Option F64) :
    Steady R (prunePages own peer cutoff numbers removed oldest) := by
  induction numbers generalizing removed oldest with
  | nil => exact .pure _
  | cons number newer ih =>
    refine .bind (steady_loadPage h number) fun found => ?_
    cases found with
    | none => exact ih removed oldest
    | some page => exact .ite (ih _ _) (.bind (steady_savePage h _) fun _ => ih _ _)

theorem steady_pruneOlderThan (cutoff now : F64) : Steady R (pruneOlderThan own peer cutoff now) := by
  refine .bind (steady_loadMetadata h) fun found => ?_
  cases found with
  | none => exact .pure _
  | some metadata =>
    refine .ite (.pure _) (.bind (steady_prunePages h _ _ _ _) fun pruned => .ite (.pure _) ?_)
    exact .bind (steady_saveMetadata h _) fun _ => .pure _

end Calls

/-! ## Records of other accounts -/

def StampedForOther (kv : Kv) (own peer : Cid) : Prop :=
  ∃ m owner, metadataAtPlace kv (.legacyMetadata peer) = .ok (some m) ∧ m.ownerCid = some owner ∧ owner ≠ own

def Foreign (kv : Kv) (own : Cid) (key : String) : Prop :=
  ∃ peer number, key = (Place.legacyMessages peer number).name ∧ StampedForOther kv own peer

open Classical in
/-- The same records, handed over in the same order, but for those pages. -/
structure DifferOnly (own : Cid) (kv kv' : Kv) : Prop where
  lookup : ∀ key, ¬ Foreign kv own key → kv.lookup key = kv'.lookup key
  keys : (AList.keys kv).filter (fun key => ¬ Foreign kv own key) =
    (AList.keys kv').filter (fun key => ¬ Foreign kv own key)

/-- On every bucket that differs only in pages of other accounts, each call gives the same answer and leaves this
account the same records. -/
def Isolated (kv : Kv) (own peer : Cid) : Prop :=
  ∀ kv', DifferOnly own kv kv' → ∀ c : StoreCall,
    (Kv.exec (c.program own peer) kv).1 = (Kv.exec (c.program own peer) kv').1 ∧
    ∀ q part, (Kv.exec (c.program own peer) kv).2.at_ ⟨some own, q, part⟩ =
      (Kv.exec (c.program own peer) kv').2.at_ ⟨some own, q, part⟩

/-- Every page number has a record of this account's own. -/
def AllScoped (kv : Kv) (own peer : Cid) : Prop := ∀ n, (kv.at_ (.messages own peer n)).isSome

variable {key : String} {n : UInt32}

section

variable {kv kv' : Kv} {own peer : Cid}

theorem not_foreign_of_owner (q : Cid) (part : Option UInt32) : ¬ Foreign kv own (Place.mk (some own) q part).name := by
  rintro ⟨r, number, hname, -⟩
  simp at hname

theorem not_foreign_metadata (q : Cid) : ¬ Foreign kv own (Place.legacyMetadata q).name := by
  rintro ⟨r, number, hname, -⟩
  simp at hname

theorem foreign_page {q : Cid} : Foreign kv own (Place.legacyMessages q n).name ↔ StampedForOther kv own q := by
  constructor
  · rintro ⟨r, number, hname, hother⟩
    have hr : q = r := (Place.mk.inj (Place.name_inj.mp hname)).2.1
    rw [hr]
    exact hother
  · exact fun h => ⟨q, n, rfl, h⟩

/-- What two runs from `kv` and a bucket that differs only so keep: the same records off the others' pages and, where
the peer's legacy pages are such, records of its own. -/
structure Alike (kv : Kv) (own peer : Cid) (a b : Kv) : Prop where
  lookup : ∀ key, ¬ Foreign kv own key → a.lookup key = b.lookup key
  scoped_ : ¬ StampedForOther kv own peer ∨ AllScoped a own peer

theorem Alike.at_ {a b : Kv} (h : Alike kv own peer a b) (q : Cid) (part : Option UInt32) :
    a.at_ ⟨some own, q, part⟩ = b.at_ ⟨some own, q, part⟩ := h.lookup _ (not_foreign_of_owner q part)

theorem Alike.page {a b : Kv} (h : Alike kv own peer a b) (n : UInt32) : pageOf a own peer n = pageOf b own peer n := by
  have hscoped : pageAtPlace a (.messages own peer n) = pageAtPlace b (.messages own peer n) := by
    rw [pageAtPlace, h.at_, pageAtPlace]
  rw [pageOf, pageOf, ← hscoped]
  rcases h.scoped_ with hmine | hall
  · rw [pageAtPlace, Kv.at_, pageAtPlace, pageAtPlace, Kv.at_, Kv.at_, h.lookup _ fun hf => hmine (foreign_page.mp hf)]
  · obtain ⟨bytes, hbytes⟩ := Option.isSome_iff_exists.mp (hall n)
    rw [pageAtPlace, hbytes, recordRead]
    cases decodePage bytes <;> rfl

theorem indistinct_alike (kv : Kv) (own peer : Cid) : Indistinct own peer (Alike kv own peer) where
  metadata := by
    intro a b h
    have hscoped := h.at_ peer none
    have hlegacy : a.at_ (.legacyMetadata peer) = b.at_ (.legacyMetadata peer) := h.lookup _ (not_foreign_metadata peer)
    simp only [metadataOf, metadataAtPlace, hscoped, hlegacy]
  page := fun h n => h.page n
  write := by
    intro a b h q part bytes
    refine ⟨fun key hkey => ?_, h.scoped_.imp_right fun hall n => ?_⟩
    · rw [Kv.lookup_insert_eq, Kv.lookup_insert_eq, h.lookup key hkey]
    · rw [Kv.at_insert]
      split_ifs
      · rfl
      · exact hall n

/-! ## Listing -/

theorem not_foreign_of_isListed (h : isListed key = true) : ¬ Foreign kv own key := by
  rintro ⟨q, n, rfl, -⟩
  rw [isListed, Place.not_endsWith_metadata (p := Place.legacyMessages q n) rfl, Bool.and_false] at h
  cases h

open Classical in
theorem DifferOnly.list (h : DifferOnly own kv kv') : (Kv.exec (list own) kv).1 = (Kv.exec (list own) kv').1 := by
  have hkeys : (AList.keys kv).filter isListed = (AList.keys kv').filter isListed := by
    have hsub := congrArg (List.filter isListed) h.keys
    simp only [List.filter_filter] at hsub
    have hdrop : ∀ key, (isListed key && decide (¬ Foreign kv own key)) = isListed key := by
      intro key
      cases hl : isListed key with
      | false => rfl
      | true => simp [not_foreign_of_isListed hl]
    simpa only [hdrop] using hsub
  rw [exec_list, exec_list, ← hkeys]
  refine congrArg Except.ok (List.foldl_ext _ _ _ fun found key hkey => ?_)
  have hl : isListed key = true := by
    rw [List.mem_mergeSort, List.mem_filter] at hkey
    exact hkey.2
  rw [h.lookup key (not_foreign_of_isListed hl)]

/-! ## When an account is isolated -/

theorem isolated_of_readable (h : ¬ StampedForOther kv own peer ∨ AllScoped kv own peer) : Isolated kv own peer := by
  intro kv' hdiff c
  have hind := indistinct_alike kv own peer
  have halike : Alike kv own peer kv kv' := ⟨hdiff.lookup, h⟩
  have hsteady : ∀ {α : Type} {x : KvM α}, Steady (Alike kv own peer) x → (Kv.exec x kv).1 = (Kv.exec x kv').1 ∧
      ∀ q part, (Kv.exec x kv).2.at_ ⟨some own, q, part⟩ = (Kv.exec x kv').2.at_ ⟨some own, q, part⟩ :=
    fun hx => ⟨(hx kv kv' halike).1, (hx kv kv' halike).2.at_⟩
  cases c with
  | loadMetadata => exact hsteady (steady_loadMetadata hind)
  | loadPage number => exact hsteady (steady_loadPage hind number)
  | append message name now => exact hsteady (steady_append hind message name now)
  | find id => exact hsteady (steady_find hind id)
  | update id change => exact hsteady (steady_update hind id change)
  | list =>
    refine ⟨hdiff.list, fun q part => ?_⟩
    simp only [StoreCall.program, exec_list]
    exact halike.at_ q part
  | markRead now => exact hsteady (steady_markRead hind now)
  | pruneOlderThan cutoff now => exact hsteady (steady_pruneOlderThan hind cutoff now)

open Classical in
theorem filter_erase_foreign {keys : List String} (hnd : keys.Nodup) (hf : Foreign kv own key) :
    (keys.erase key).filter (fun key => ¬ Foreign kv own key) = keys.filter (fun key => ¬ Foreign kv own key) := by
  rw [hnd.erase_eq_filter, List.filter_filter]
  refine List.filter_congr fun k _ => ?_
  by_cases hk : k = key
  · simp [hk, hf]
  · simp [hk]

theorem differOnly_erase (hf : Foreign kv own key) : DifferOnly own kv (kv.erase key) where
  lookup := by
    intro k hk
    have hne : k ≠ key := fun he => hk (he ▸ hf)
    rw [Kv.lookup_erase_eq, if_neg hne]
  keys := by rw [AList.keys_erase, filter_erase_foreign kv.keys_nodup hf]

theorem differOnly_insert (hf : Foreign kv own key) (b : Bytes) :
    DifferOnly own kv (kv.insert key b) where
  lookup := by
    intro k hk
    have hne : k ≠ key := fun he => hk (he ▸ hf)
    rw [Kv.lookup_insert_eq, if_neg hne]
  keys := by rw [AList.keys_insert, List.filter_cons_of_neg (by simpa using hf), filter_erase_foreign kv.keys_nodup hf]

theorem loadPage_of_foreign (hscoped : kv.at_ (.messages own peer n) = none) :
    (Kv.exec (loadPage own peer n) kv).1 = pageAtPlace kv (.legacyMessages peer n) := by
  rw [exec_loadPage, pageOf, pageAtPlace, hscoped]
  rfl

theorem not_isolated (hother : StampedForOther kv own peer)
    (hscoped : kv.at_ (.messages own peer n) = none) : ∃ kv', DifferOnly own kv kv' ∧
      (Kv.exec (loadPage own peer n) kv).1 ≠ (Kv.exec (loadPage own peer n) kv').1 := by
  have hf : Foreign kv own (Place.legacyMessages peer n).name := foreign_page.mpr hother
  cases hlegacy : kv.at_ (.legacyMessages peer n) with
  | none =>
    refine ⟨_, differOnly_insert hf (.other []), ?_⟩
    have hscoped' : Kv.at_ (kv.insert (Place.legacyMessages peer n).name (.other [])) (.messages own peer n) = none := by
      rw [Kv.at_insert, if_neg (by simp), hscoped]
    rw [loadPage_of_foreign hscoped, loadPage_of_foreign hscoped', pageAtPlace, pageAtPlace, hlegacy, Kv.at_insert,
      if_pos rfl]
    simp [recordRead, decodePage, fromSlice]
  | some b =>
    refine ⟨_, differOnly_erase hf, ?_⟩
    have hscoped' : Kv.at_ (kv.erase (Place.legacyMessages peer n).name) (.messages own peer n) = none := by
      rw [Kv.at_erase, if_neg (by simp), hscoped]
    rw [loadPage_of_foreign hscoped, loadPage_of_foreign hscoped', pageAtPlace, pageAtPlace, hlegacy, Kv.at_erase,
      if_pos rfl, recordRead, recordRead]
    cases decodePage b <;> simp

end

/-- What the legacy pages of conversations stamped for others hold makes no difference exactly when the peer's legacy
metadata is not stamped for another, or the account has a record of its own for every page. -/
theorem isolated_iff (kv : Kv) (own peer : Cid) :
    Isolated kv own peer ↔ ¬ StampedForOther kv own peer ∨ AllScoped kv own peer := by
  refine ⟨fun hiso => ?_, isolated_of_readable⟩
  by_contra hcon
  simp only [not_or, not_not, AllScoped, not_forall, Option.isSome_iff_ne_none, ne_eq] at hcon
  obtain ⟨hother, n, hscoped⟩ := hcon
  obtain ⟨kv', hdiff, hne⟩ := not_isolated hother hscoped
  exact hne (hiso kv' hdiff (.loadPage n)).1

/-! ## A page handed to the wrong account -/

def othersMetadata : ConversationMetadata where
  peerCid := 2
  ownerCid := some 9
  peerUsername := none
  totalMessageCount := F64.ofNat 1
  oldestMessageTimestamp := F64.ofNat 1
  newestMessageTimestamp := F64.ofNat 1
  latestPage := 0
  messagesPerPage := 50
  unreadCount := F64.ofNat 0
  lastMessageIndex := F64.ofNat 0
  lastUpdated := F64.ofNat 1

def othersPage : ConversationPage where
  peerCid := 2
  pageNumber := 0
  messages := [.text "m1" "for nine" 2 9 (F64.ofNat 1) (F64.ofNat 0) .delivered]
  pageTimestamps := ⟨F64.ofNat 1, F64.ofNat 1⟩

def othersBytes : Bytes := .json (.object (jsFields othersPage.storedFields))

/-- Both records of that conversation, under the keys of before accounts were in them. -/
def othersRecords : Kv :=
  ((∅ : Kv).insert (Place.legacyMetadata 2).name (metadataBytes othersMetadata)).insert (Place.legacyMessages 2 0).name
    othersBytes

theorem stampedForOther_others : StampedForOther othersRecords 1 2 := by
  have h0 : (F64.ofNat 0).isFinite = true := by decide +kernel
  have h1 : (F64.ofNat 1).isFinite = true := by decide +kernel
  have hdecode : decodeMetadata (metadataBytes othersMetadata) = .ok othersMetadata.norm :=
    (decodeMetadata_encodeMetadata (encodeMetadata_ok _) _).mpr
      ⟨by constructor <;> simp only [othersMetadata, h0, h1], rfl⟩
  refine ⟨othersMetadata.norm, 9, ?_, rfl, by decide⟩
  rw [metadataAtPlace, othersRecords, Kv.at_insert, if_neg (by simp), Kv.at_insert, if_pos rfl]
  simp only [recordRead, hdecode]

theorem decodePage_others : decodePage othersBytes = .ok othersPage.norm := by
  have h0 : (F64.ofNat 0).isFinite = true := by decide +kernel
  have h1 : (F64.ofNat 1).isFinite = true := by decide +kernel
  have hencode : encodePage othersPage = .ok othersBytes := by
    refine (encodePage_eq_ok _ _).mpr ⟨?_, rfl⟩
    simp [ConversationPage.FiniteReactions, othersPage, ConversationMessage.text]
  refine (decodePage_encodePage hencode _).mpr ⟨⟨by simp only [othersPage, h1], by simp only [othersPage, h1], ?_⟩, rfl⟩
  intro m hm
  obtain rfl := List.mem_singleton.mp hm
  constructor <;> simp [ConversationMessage.text, ConversationMessage.rereadReactions, h0, h1]

/-- Account 1 is handed the page of account 9. -/
theorem others_page_read : DifferOnly 1 othersRecords (othersRecords.erase (Place.legacyMessages 2 0).name) ∧
    (Kv.exec ((StoreCall.loadPage 0).program 1 2) othersRecords).1 = .ok (some othersPage.norm) ∧
    (Kv.exec ((StoreCall.loadPage 0).program 1 2) (othersRecords.erase (Place.legacyMessages 2 0).name)).1 =
      .ok none ∧ ¬ Isolated othersRecords 1 2 := by
  have hdiff : DifferOnly 1 othersRecords (othersRecords.erase (Place.legacyMessages 2 0).name) :=
    differOnly_erase (foreign_page.mpr stampedForOther_others)
  have hscoped : othersRecords.at_ (.messages 1 2 0) = none := by
    rw [othersRecords, Kv.at_insert, if_neg (by simp), Kv.at_insert, if_neg (by simp)]
    rfl
  have hread : (Kv.exec (loadPage 1 2 0) othersRecords).1 = .ok (some othersPage.norm) := by
    rw [loadPage_of_foreign hscoped, pageAtPlace, othersRecords, Kv.at_insert, if_pos rfl, recordRead, decodePage_others]
  have hscoped' : Kv.at_ (othersRecords.erase (Place.legacyMessages 2 0).name) (.messages 1 2 0) = none := by
    rw [Kv.at_erase, if_neg (by simp), hscoped]
  have hgone : (Kv.exec (loadPage 1 2 0) (othersRecords.erase (Place.legacyMessages 2 0).name)).1 = .ok none := by
    rw [loadPage_of_foreign hscoped', pageAtPlace, Kv.at_erase, if_pos rfl]
    rfl
  refine ⟨hdiff, hread, hgone, fun hiso => ?_⟩
  have hsame := (hiso _ hdiff (.loadPage 0)).1
  rw [show (StoreCall.loadPage 0).program 1 2 = loadPage 1 2 0 from rfl, hread, hgone] at hsame
  cases hsame

end CitadelAgent.Conversations
