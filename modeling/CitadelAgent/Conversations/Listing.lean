import CitadelAgent.Conversations.StoreSpec

/-!
# Listing against loading

`Store::list` in `store_lifecycle.rs`, against `load_metadata` in `store.rs`.

* `Place.startsWith_scoped` : whose keys pass the test for the account's own;
* `listedOf` : what `list` finds, as a function of the records;
* `list_agrees_with_load`, `legacy_is_not_listed` : the prefix of every key holds the text that is to tell a scoped key.
-/

namespace CitadelAgent.Conversations
open Store

/-! ## The tests on a key -/

variable {key : String} {p : Place} {m : ConversationMetadata}

theorem startsWith_iff {start : String} : startsWith key start = true ↔ start.toList <+: key.toList := by
  rw [startsWith, List.isPrefixOf_iff_prefix]

theorem containsText_with (h : startsWith key PAGINATED_PREFIX = true) : containsText key "_with_" = true := by
  obtain ⟨rest, hrest⟩ := startsWith_iff.mp h
  rw [containsText, List.any_eq_true]
  refine ⟨("_with_peer_".toList ++ rest), ?_, by rw [List.isPrefixOf_iff_prefix]; exact ⟨"peer_".toList ++ rest, by simp⟩⟩
  rw [List.mem_tails, ← hrest]
  exact ⟨"msgs".toList, by simp [PAGINATED_PREFIX]⟩

theorem Place.startsWith_paginated (p : Place) : startsWith p.name PAGINATED_PREFIX = true := by
  rw [startsWith_iff]
  cases h : p.owner with
  | none =>
    rw [toList_name_legacy h]
    exact List.prefix_append _ _
  | some own =>
    rw [toList_name_scoped h]
    exact List.prefix_append _ _

theorem Place.endsWith_metadata (h : p.page = none) : endsWith p.name "_metadata" = true := by
  rw [endsWith, List.isSuffixOf_iff_suffix, name, h]
  simp only [metadataKey, String.toList_append]
  exact List.suffix_append _ _

theorem toList_scopedKey (own peer : Cid) : (scopedKey own peer).toList =
    PAGINATED_PREFIX.toList ++ (digits own.toNat ++ ('_' :: ("with_".toList ++ digits peer.toNat))) := by
  simp [scopedKey, digits, String.toList_append]

theorem Place.startsWith_scoped {own peer : Cid} (h : startsWith p.name (scopedKey own peer) = true) :
    p.owner = some own := by
  obtain ⟨rest, hrest⟩ := startsWith_iff.mp h
  rw [toList_scopedKey, List.append_assoc, List.append_assoc, List.cons_append] at hrest
  cases howner : p.owner with
  | none =>
    rw [toList_name_legacy howner] at hrest
    obtain ⟨-, htail⟩ := digits_append_inj (stops_underscore _) p.stops_tail (List.append_cancel_left hrest)
    unfold tail at htail
    split at htail
    · rename_i number _
      have hw : 'w' ∈ digits number.toNat := by
        rw [← (List.cons.inj htail).2]
        simp
      exact absurd hw (not_mem_digits (by decide) _)
    · exact absurd (congrArg (fun l => l[1]?) htail) (by simp)
  | some own' =>
    rw [toList_name_scoped howner] at hrest
    obtain ⟨hown, -⟩ := digits_append_inj (stops_underscore _) p.stops_ownerTail (List.append_cancel_left hrest)
    rw [UInt64.toNat_inj.mp hown]

theorem Place.startsWith_own (own peer : Cid) : startsWith (Place.metadata own peer).name (scopedKey own peer) = true := by
  rw [startsWith_iff, toList_scopedKey, toList_name_scoped rfl, ownerTail]
  refine ⟨tail (Place.metadata own peer), ?_⟩
  simp only [List.append_assoc, List.cons_append]

/-! ## What is listed -/

section

variable {kv : Kv} {own : Cid}

/-- What `list` finds at these keys. -/
def listedOf (kv : Kv) (own : Cid) (keys : List String) : List ConversationMetadata :=
  keys.foldl (fun found key => listed own key found (kv.lookup key)) []

theorem exec_listKeys (keys : List String) (found : List ConversationMetadata) :
    Kv.exec (listKeys own keys found) kv =
      (.ok (keys.foldl (fun found key => listed own key found (kv.lookup key)) found), kv) := by
  induction keys generalizing found with
  | nil => rfl
  | cons key keys ih => exact ih _

/-- The keys `list` looks at. -/
def isListed (key : String) : Bool := startsWith key PAGINATED_PREFIX && endsWith key "_metadata"

theorem exec_list : Kv.exec (list own) kv =
    (.ok (listedOf kv own (((AList.keys kv).filter isListed).mergeSort scopedFirst)), kv) := by
  rw [list, Kv.exec_bind, Kv.exec_keys, Prog.resume_ok, exec_listKeys]
  rfl

theorem isListed_metadata (h : p.page = none) : isListed p.name = true := by
  rw [isListed, p.startsWith_paginated, Place.endsWith_metadata h]
  rfl

theorem startsWith_of_isListed (h : isListed key = true) : startsWith key PAGINATED_PREFIX = true :=
  ((Bool.and_eq_true _ _).mp h).1

/-- The record is this account's, as far as `list` can tell. -/
def Shown (own : Cid) (key : String) (m : ConversationMetadata) : Prop :=
  readable own m = true ∧ startsWith key (scopedKey own m.peerCid) = true

theorem listed_cases (hkey : startsWith key PAGINATED_PREFIX = true) (found : List ConversationMetadata) (bytes : Option Bytes) :
    listed own key found bytes = found ∧ (∀ b m, bytes = some b → decodeMetadata b = .ok m → Shown own key m →
        ∃ m' ∈ found, m'.peerCid = m.peerCid) ∨
      ∃ b m, bytes = some b ∧ decodeMetadata b = .ok m ∧ Shown own key m ∧ (∀ m' ∈ found, m'.peerCid ≠ m.peerCid) ∧
        listed own key found bytes = found ++ [m] := by
  cases bytes with
  | none => exact .inl ⟨rfl, fun b m hb => nomatch hb⟩
  | some b =>
    simp only [listed]
    cases hm : decodeMetadata b with
    | error e =>
      refine .inl ⟨rfl, fun b' m hb hdecode => ?_⟩
      obtain rfl := Option.some.inj hb
      exact nomatch hm.symm.trans hdecode
    | ok m =>
      simp only [containsText_with hkey, Bool.true_and, Bool.not_not]
      by_cases hshown : Shown own key m
      · by_cases hfresh : found.any (fun m' => m'.peerCid = m.peerCid) = true
        · refine .inl ⟨?_, fun b' m' hb hdecode _ => ?_⟩
          · rw [hfresh, Bool.not_true, Bool.and_false]
            rfl
          · obtain rfl := Option.some.inj hb
            obtain rfl := Except.ok.inj (hm.symm.trans hdecode)
            obtain ⟨m', hm', hpeer⟩ := List.any_eq_true.mp hfresh
            exact ⟨m', hm', of_decide_eq_true hpeer⟩
        · refine .inr ⟨b, m, rfl, hm, hshown, fun m' hm' hpeer => ?_, ?_⟩
          · exact hfresh (List.any_eq_true.mpr ⟨m', hm', decide_eq_true hpeer⟩)
          · rw [Bool.not_eq_true] at hfresh
            rw [hshown.1, hshown.2, hfresh]
            rfl
      · refine .inl ⟨?_, fun b' m' hb hdecode h => ?_⟩
        · rw [if_neg]
          rintro h
          simp only [Bool.and_eq_true] at h
          exact hshown ⟨h.1.1, h.1.2⟩
        · obtain rfl := Option.some.inj hb
          obtain rfl := Except.ok.inj (hm.symm.trans hdecode)
          exact absurd h hshown

theorem listedOf_spec (kv : Kv) (own : Cid) (keys : List String) (hkeys : ∀ key ∈ keys, startsWith key PAGINATED_PREFIX = true) :
    (∀ m ∈ listedOf kv own keys, ∃ key ∈ keys, ∃ b, kv.lookup key = some b ∧ decodeMetadata b = .ok m ∧ Shown own key m) ∧
      ((listedOf kv own keys).map (·.peerCid)).Nodup ∧
      ∀ key ∈ keys, ∀ b m, kv.lookup key = some b → decodeMetadata b = .ok m → Shown own key m →
        ∃ m' ∈ listedOf kv own keys, m'.peerCid = m.peerCid := by
  induction keys using List.reverseRecOn with
  | nil => exact ⟨nofun, List.nodup_nil, nofun⟩
  | append_singleton keys key ih =>
    obtain ⟨hfrom, hnodup, hcovers⟩ := ih fun k hk => hkeys k (List.mem_append_left _ hk)
    have hstep : listedOf kv own (keys ++ [key]) = listed own key (listedOf kv own keys) (kv.lookup key) := by
      rw [listedOf, List.foldl_append]
      rfl
    have hlast : key ∈ keys ++ [key] := List.mem_append_right _ List.mem_cons_self
    rw [hstep]
    rcases listed_cases (hkeys key hlast) (listedOf kv own keys) (kv.lookup key) with ⟨hsame, hheld⟩ |
      ⟨b, m, hb, hm, hshown, hfresh, hmore⟩
    · rw [hsame]
      refine ⟨fun m hm => ?_, hnodup, fun k hk b m hb hm hshown => ?_⟩
      · obtain ⟨k, hk, rest⟩ := hfrom m hm
        exact ⟨k, List.mem_append_left _ hk, rest⟩
      · rcases List.mem_append.mp hk with hk | hk
        · exact hcovers k hk b m hb hm hshown
        · obtain rfl := List.mem_singleton.mp hk
          exact hheld b m hb hm hshown
    · rw [hmore]
      refine ⟨fun m' hm' => ?_, ?_, fun k hk b' m' hb' hm' hshown' => ?_⟩
      · rcases List.mem_append.mp hm' with hm' | hm'
        · obtain ⟨k, hk, rest⟩ := hfrom m' hm'
          exact ⟨k, List.mem_append_left _ hk, rest⟩
        · obtain rfl := List.mem_singleton.mp hm'
          exact ⟨key, hlast, b, hb, hm, hshown⟩
      · rw [List.map_append, List.nodup_append']
        refine ⟨hnodup, List.nodup_singleton _, ?_⟩
        intro peer hpeer hpeer'
        obtain ⟨m', hm', rfl⟩ := List.mem_map.mp hpeer
        exact hfresh m' hm' (List.mem_singleton.mp hpeer')
      · rcases List.mem_append.mp hk with hk | hk
        · obtain ⟨m'', hm'', hpeer⟩ := hcovers k hk b' m' hb' hm' hshown'
          exact ⟨m'', List.mem_append_left _ hm'', hpeer⟩
        · obtain rfl := List.mem_singleton.mp hk
          obtain rfl := Option.mem_unique hb hb'
          obtain rfl := Except.ok.inj (hm.symm.trans hm')
          exact ⟨m, List.mem_append_right _ List.mem_cons_self, rfl⟩

/-! ## Listing and loading -/

/-- The conversation records of some accounts: what looks like a metadata key is one, and its record can be read. -/
structure OfConversations (kv : Kv) : Prop where
  keys : ∀ key ∈ AList.keys kv, isListed key = true → ∃ p : Place, p.page = none ∧ p.name = key
  decodes : ∀ p : Place, p.page = none → ∀ b, kv.at_ p = some b → ∃ m, decodeMetadata b = .ok m

/-- `list` answers for every peer, once, what `load_metadata` answers for it. -/
def ListsWhatLoads (kv : Kv) (own : Cid) : Prop :=
  ∃ found, Kv.exec (list own) kv = (.ok found, kv) ∧ ∀ peer, ∃ loaded,
    Kv.exec (loadMetadata own peer) kv = (.ok loaded, kv) ∧ found.filter (fun m => m.peerCid = peer) = loaded.toList

/-- Every conversation that the account may read has a record under its own key, which is its peer's and not stamped for another. -/
def OwnRecords (kv : Kv) (own : Cid) : Prop :=
  ∀ peer, (∀ m, metadataAtPlace kv (.metadata own peer) = .ok (some m) → m.peerCid = peer ∧ readable own m = true) ∧
    (metadataAtPlace kv (.metadata own peer) = .ok none → ∀ m, metadataAtPlace kv (.legacyMetadata peer) = .ok (some m) →
      readable own m = false)

theorem filter_of_nodup {found : List ConversationMetadata} (h : (found.map (·.peerCid)).Nodup)
    (hm : m ∈ found) : found.filter (fun x => x.peerCid = m.peerCid) = [m] := by
  induction found with
  | nil => exact (List.not_mem_nil hm).elim
  | cons x found ih =>
    rw [List.map_cons, List.nodup_cons] at h
    rcases List.mem_cons.mp hm with rfl | hm
    · rw [List.filter_cons_of_pos (by simp), List.filter_eq_nil_iff.mpr]
      intro y hy hpeer
      exact h.1 (List.mem_map.mpr ⟨y, hy, of_decide_eq_true hpeer⟩)
    · rw [List.filter_cons_of_neg, ih h.2 hm]
      intro hpeer
      exact h.1 (List.mem_map.mpr ⟨m, hm, (of_decide_eq_true hpeer).symm⟩)

theorem metadataAtPlace_ok (h : OfConversations kv) (hp : p.page = none) :
    ∃ found, metadataAtPlace kv p = .ok found := by
  rw [metadataAtPlace]
  rcases Option.eq_none_or_eq_some (kv.at_ p) with hnone | ⟨b, hb⟩
  · rw [hnone]
    exact ⟨none, rfl⟩
  · obtain ⟨m, hm⟩ := h.decodes p hp b hb
    rw [hb]
    exact ⟨some m, recordRead_ok hm⟩

theorem own_of_listed (h : OfConversations kv)
    (hm : m ∈ listedOf kv own (((AList.keys kv).filter isListed).mergeSort scopedFirst)) :
    readable own m = true ∧ ∃ q, metadataAtPlace kv (.metadata own q) = .ok (some m) := by
  have hkeys : ∀ key ∈ ((AList.keys kv).filter isListed).mergeSort scopedFirst, key ∈ AList.keys kv ∧ isListed key = true :=
    fun key hkey => List.mem_filter.mp (List.mem_mergeSort.mp hkey)
  obtain ⟨key, hkey, b, hb, hdecode, hreadable, hstarts⟩ :=
    (listedOf_spec kv own _ fun key hkey => startsWith_of_isListed (hkeys key hkey).2).1 m hm
  obtain ⟨⟨owner, peer, page⟩, hpage, rfl⟩ := h.keys key (hkeys key hkey).1 (hkeys key hkey).2
  obtain rfl : page = none := hpage
  obtain rfl : owner = some own := Place.startsWith_scoped hstarts
  refine ⟨hreadable, peer, ?_⟩
  rw [metadataAtPlace, show kv.at_ (.metadata own peer) = some b from hb]
  exact recordRead_ok hdecode

theorem listed_of_own (hm : metadataAtPlace kv (.metadata own m.peerCid) = .ok (some m)) (hreadable : readable own m = true) :
    ∃ m' ∈ listedOf kv own (((AList.keys kv).filter isListed).mergeSort scopedFirst), m'.peerCid = m.peerCid := by
  obtain ⟨b, hb, hdecode⟩ := recordRead_eq_some hm
  have hlisted : isListed (Place.metadata own m.peerCid).name = true := isListed_metadata rfl
  have hkey : (Place.metadata own m.peerCid).name ∈ AList.keys kv := by
    rw [← AList.mem_keys, ← AList.lookup_isSome]
    rw [show AList.lookup (Place.metadata own m.peerCid).name kv = some b from hb]
    rfl
  have hmem : (Place.metadata own m.peerCid).name ∈ ((AList.keys kv).filter isListed).mergeSort scopedFirst :=
    List.mem_mergeSort.mpr (List.mem_filter.mpr ⟨hkey, hlisted⟩)
  have hspec := listedOf_spec kv own (((AList.keys kv).filter isListed).mergeSort scopedFirst)
    fun key hkey => startsWith_of_isListed (List.mem_filter.mp (List.mem_mergeSort.mp hkey)).2
  exact hspec.2.2 _ hmem b m hb hdecode ⟨hreadable, Place.startsWith_own own m.peerCid⟩

/-- Listing agrees with loading exactly when each conversation that the account may read is under the account's own
key. -/
theorem list_agrees_with_load (h : OfConversations kv) : ListsWhatLoads kv own ↔ OwnRecords kv own := by
  have hload (peer : Cid) {loaded : Option ConversationMetadata} :
      Kv.exec (loadMetadata own peer) kv = (.ok loaded, kv) ↔ metadataOf kv own peer = .ok loaded := by
    rw [exec_loadMetadata, Prod.mk.injEq, and_iff_left rfl]
  constructor
  · rintro ⟨found, hfound, hagrees⟩
    rw [exec_list, Prod.mk.injEq, and_iff_left rfl] at hfound
    obtain rfl := Except.ok.inj hfound
    have hscoped (peer : Cid) (m : ConversationMetadata) (hm : metadataAtPlace kv (.metadata own peer) = .ok (some m)) :
        m.peerCid = peer ∧ readable own m = true := by
      obtain ⟨loaded, hloaded, hfilter⟩ := hagrees peer
      rw [hload, metadataOf, hm] at hloaded
      obtain rfl := Except.ok.inj hloaded
      have hmem : m ∈ (some m).toList := List.mem_singleton.mpr rfl
      rw [← hfilter, List.mem_filter] at hmem
      exact ⟨of_decide_eq_true hmem.2, (own_of_listed h hmem.1).1⟩
    refine fun peer => ⟨hscoped peer, fun hnone m hlegacy => ?_⟩
    by_contra hreadable
    rw [Bool.not_eq_false] at hreadable
    obtain ⟨loaded, hloaded, hfilter⟩ := hagrees peer
    rw [hload, metadataOf, hnone, hlegacy] at hloaded
    obtain rfl : some m = loaded := by
      rw [← Except.ok.inj hloaded, Option.filter_some_pos hreadable]
    have hmem : m ∈ (some m).toList := List.mem_singleton.mpr rfl
    rw [← hfilter, List.mem_filter] at hmem
    obtain ⟨-, q, hq⟩ := own_of_listed h hmem.1
    have hpeer : q = peer := (hscoped q m hq).1.symm.trans (of_decide_eq_true hmem.2)
    rw [hpeer, hnone] at hq
    cases hq
  · intro hown
    refine ⟨_, exec_list, fun peer => ?_⟩
    have hnodup := (listedOf_spec kv own (((AList.keys kv).filter isListed).mergeSort scopedFirst)
      fun key hkey => startsWith_of_isListed (List.mem_filter.mp (List.mem_mergeSort.mp hkey)).2).2.1
    have hlisted (m : ConversationMetadata) (hm : m ∈ listedOf kv own (((AList.keys kv).filter isListed).mergeSort scopedFirst)) :
        metadataAtPlace kv (.metadata own m.peerCid) = .ok (some m) := by
      obtain ⟨-, q, hq⟩ := own_of_listed h hm
      rw [((hown q).1 m hq).1]
      exact hq
    obtain ⟨found, hfound⟩ := metadataAtPlace_ok h (p := .metadata own peer) rfl
    cases found with
    | some m =>
      refine ⟨some m, ?_, ?_⟩
      · rw [hload, metadataOf, hfound]
      · obtain ⟨rfl, hreadable⟩ := (hown peer).1 m hfound
        obtain ⟨m', hm', hpeer⟩ := listed_of_own hfound hreadable
        have hsame := hlisted m' hm'
        rw [hpeer, hfound] at hsame
        obtain rfl := Option.some.inj (Except.ok.inj hsame)
        exact filter_of_nodup hnodup hm'
    | none =>
      obtain ⟨legacy, hlegacy⟩ := metadataAtPlace_ok h (p := .legacyMetadata peer) rfl
      refine ⟨none, ?_, ?_⟩
      · rw [hload, metadataOf, hfound, hlegacy]
        cases legacy with
        | none => rfl
        | some m =>
          have hother := (hown peer).2 hfound m hlegacy
          exact congrArg Except.ok (Option.filter_some_neg hother)
      · refine List.filter_eq_nil_iff.mpr fun m hm hpeer => ?_
        have hsame := hlisted m hm
        rw [of_decide_eq_true hpeer, hfound] at hsame
        cases hsame

end

/-! ## A bucket with one record -/

def quietMetadata : ConversationMetadata where
  peerCid := 5
  ownerCid := none
  peerUsername := none
  totalMessageCount := F64.ofNat 0
  oldestMessageTimestamp := F64.ofNat 0
  newestMessageTimestamp := F64.ofNat 0
  latestPage := 0
  messagesPerPage := 50
  unreadCount := F64.ofNat 0
  lastMessageIndex := F64.ofNat 0
  lastUpdated := F64.ofNat 0

theorem decode_quietMetadata : decodeMetadata (metadataBytes quietMetadata) = .ok quietMetadata.norm := by
  have h0 : (F64.ofNat 0).isFinite = true := by decide +kernel
  exact (decodeMetadata_encodeMetadata (encodeMetadata_ok _) _).mpr
    ⟨by constructor <;> simp only [quietMetadata, h0], rfl⟩

def quietAt (p : Place) : Kv := (∅ : Kv).insert p.name (metadataBytes quietMetadata)

theorem metadataAtPlace_quietAt (p q : Place) :
    metadataAtPlace (quietAt p) q = .ok (if q = p then some quietMetadata.norm else none) := by
  rw [metadataAtPlace, quietAt, Kv.at_insert]
  split_ifs
  · exact recordRead_ok decode_quietMetadata
  · rfl

theorem ofConversations_quietAt (hp : p.page = none) : OfConversations (quietAt p) where
  keys key hkey _ := by
    rw [quietAt, AList.keys_insert] at hkey
    rcases List.mem_cons.mp hkey with rfl | hkey
    · exact ⟨p, hp, rfl⟩
    · exact (List.not_mem_nil (List.mem_of_mem_erase hkey)).elim
  decodes q _ b hb := by
    rw [quietAt, Kv.at_insert] at hb
    split_ifs at hb
    · rw [← Option.some.inj hb]
      exact ⟨_, decode_quietMetadata⟩
    · exact nomatch hb

theorem list_agrees_with_load_own : ListsWhatLoads (quietAt (.metadata 7 5)) 7 := by
  refine (list_agrees_with_load (ofConversations_quietAt rfl)).mpr fun peer => ⟨fun m hm => ?_, fun _ m hm => ?_⟩
  · rw [metadataAtPlace_quietAt] at hm
    split_ifs at hm with hpeer
    · rw [← Option.some.inj (Except.ok.inj hm), (Place.mk.inj hpeer).2.1]
      exact ⟨rfl, rfl⟩
    · exact nomatch hm
  · rw [metadataAtPlace_quietAt, if_neg (by simp)] at hm
    exact nomatch hm

/-- An unstamped legacy record is loaded for the account, and not listed. -/
theorem legacy_is_not_listed :
    Kv.exec (loadMetadata 7 5) (quietAt (.legacyMetadata 5)) = (.ok (some quietMetadata.norm), quietAt (.legacyMetadata 5)) ∧
      Kv.exec (list 7) (quietAt (.legacyMetadata 5)) = (.ok [], quietAt (.legacyMetadata 5)) ∧
      ¬ ListsWhatLoads (quietAt (.legacyMetadata 5)) 7 := by
  have hload : Kv.exec (loadMetadata 7 5) (quietAt (.legacyMetadata 5)) =
      (.ok (some quietMetadata.norm), quietAt (.legacyMetadata 5)) := by
    rw [exec_loadMetadata, metadataOf, metadataAtPlace_quietAt, metadataAtPlace_quietAt, if_neg (by simp), if_pos rfl]
    rfl
  have hlist : Kv.exec (list 7) (quietAt (.legacyMetadata 5)) = (.ok [], quietAt (.legacyMetadata 5)) := by
    rw [exec_list, Prod.mk.injEq, and_iff_left rfl]
    refine congrArg Except.ok (List.eq_nil_iff_forall_not_mem.mpr fun m hm => ?_)
    obtain ⟨-, q, hq⟩ := own_of_listed (ofConversations_quietAt rfl) hm
    rw [metadataAtPlace_quietAt, if_neg (by simp)] at hq
    cases hq
  refine ⟨hload, hlist, ?_⟩
  rintro ⟨found, hfound, hagrees⟩
  obtain ⟨loaded, hloaded, hfilter⟩ := hagrees 5
  rw [hlist, Prod.mk.injEq, and_iff_left rfl] at hfound
  rw [hload, Prod.mk.injEq, and_iff_left rfl] at hloaded
  rw [← Except.ok.inj hfound, ← Except.ok.inj hloaded] at hfilter
  cases hfilter

end CitadelAgent.Conversations
