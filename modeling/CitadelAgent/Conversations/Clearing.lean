import CitadelAgent.Conversations.Append
import CitadelAgent.Conversations.Isolation

/-!
# A cleared conversation

`Store::delete` in `store_lifecycle.rs`. A conversation may have records under the account's keys, under the peer alone, or both; the
first go whenever the account may delete what `load_metadata` finds, the others only when it may delete the legacy metadata.

* `LegacyStays` : the legacy records are not among those that go;
* `Spared`, `StartsAfresh`, `Deleted` : what is left of other conversations, and of this one;
* `delete_deletes`, `cleared_is_back` : an unstamped record that was not to go is the conversation's again.
-/

namespace CitadelAgent.Conversations
open Store StoreRules

section

variable {kv kv' : Kv} {own peer : Cid} {includeUnattributed : Bool}

def legacyGoes (own : Cid) (includeUnattributed : Bool) (metadata : ConversationMetadata) :
    Option ConversationMetadata → UInt32 × Bool
  | some m => (m.latestPage, may own includeUnattributed m)
  | none => (metadata.latestPage, includeUnattributed)

/-- The place is one of the conversation's, up to the page `latest`. -/
def UpTo (owner : Option Cid) (peer : Cid) (latest : UInt32) (p : Place) : Prop :=
  p.owner = owner ∧ p.peer = peer ∧ ∀ n, p.page = some n → n ≤ latest

instance (owner : Option Cid) (peer : Cid) (latest : UInt32) (p : Place) : Decidable (UpTo owner peer latest p) := by
  unfold UpTo
  infer_instance

theorem exec_deleteRecords {o : Option Cid} {latest : UInt32} {u : Unit} {kv₁ kv₂ : Kv}
    (hpages : Kv.exec (deleteAll ((pagesTo latest).map (pageKey (Place.mk o peer none).base))) kv = (.ok u, kv₁))
    (hmeta : Kv.exec (Kv.delete (Place.mk o peer none).name) kv₁ = (.ok u, kv₂)) (p : Place) :
    kv₂.at_ p = if UpTo o peer latest p then none else kv.at_ p := by
  obtain ⟨kv₃, hrun, hlookup⟩ := exec_deleteAll ((pagesTo latest).map (pageKey (Place.mk o peer none).base)) kv
  rw [hrun] at hpages
  obtain rfl : kv₃ = kv₁ := (Prod.mk.inj hpages).2
  rw [Kv.exec_delete] at hmeta
  rw [← (Prod.mk.inj hmeta).2, Kv.at_erase, Kv.at_, hlookup, Kv.at_]
  by_cases hpage : p.owner = o ∧ p.peer = peer ∧ ∃ n ≤ latest, p.page = some n
  · obtain ⟨ho, hp, n, hn, hat⟩ := hpage
    have hup : UpTo o peer latest p := ⟨ho, hp, fun n' hn' => Option.mem_unique hat hn' ▸ hn⟩
    rw [if_pos (mem_pageKeys.mpr ⟨ho, hp, n, hn, hat⟩), ite_self, if_pos hup]
  · rw [if_neg (mt mem_pageKeys.mp hpage)]
    refine if_congr ⟨?_, ?_⟩ rfl rfl
    · rintro rfl
      exact ⟨rfl, rfl, by rintro _ ⟨⟩⟩
    · rintro ⟨ho, hp, hle⟩
      refine Place.ext ho hp (Option.eq_none_iff_forall_ne_some.mpr fun n hn => ?_)
      exact hpage ⟨ho, hp, n, hle n hn, hn⟩

theorem delete_eq_true (h : Kv.exec (delete own peer includeUnattributed) kv = (.ok true, kv')) :
    ∃ metadata legacy, metadataOf kv own peer = .ok (some metadata) ∧ may own includeUnattributed metadata = true ∧
      metadataAtPlace kv (.legacyMetadata peer) = .ok legacy ∧ ∀ p : Place, kv'.at_ p =
        if UpTo (some own) peer metadata.latestPage p then none
        else if (legacyGoes own includeUnattributed metadata legacy).2 = true ∧
          UpTo none peer (legacyGoes own includeUnattributed metadata legacy).1 p then none
        else kv.at_ p := by
  obtain ⟨found, kv₁, hload, hrest⟩ := Kv.exec_bind_eq_ok.mp h
  rw [exec_loadMetadata] at hload
  obtain ⟨hfound, rfl⟩ := Prod.mk.inj hload
  cases found with
  | none => exact nomatch hrest
  | some metadata =>
    dsimp only at hrest
    split_ifs at hrest with hmay
    · exact nomatch hrest
    · rw [Bool.not_eq_true, Bool.not_eq_false'] at hmay
      obtain ⟨u, kv₂, hpages, hrest⟩ := Kv.exec_bind_eq_ok.mp hrest
      obtain ⟨u', kv₃, hmeta, hrest⟩ := Kv.exec_bind_eq_ok.mp hrest
      obtain ⟨legacy, kv₄, hlegacy, hrest⟩ := Kv.exec_bind_eq_ok.mp hrest
      have hscoped := exec_deleteRecords (o := some own) hpages hmeta
      have hread : Kv.exec (metadataAt (metadataKey (legacyKey peer))) kv₃ =
          (metadataAtPlace kv₃ (.legacyMetadata peer), kv₃) := exec_metadataAt honest_handle (.legacyMetadata peer) kv₃
      rw [hread] at hlegacy
      obtain ⟨hstamp, rfl⟩ := Prod.mk.inj hlegacy
      have hkept : kv₃.at_ (.legacyMetadata peer) = kv.at_ (.legacyMetadata peer) := by
        rw [hscoped, if_neg]
        exact fun hup => nomatch hup.1
      rw [metadataAtPlace, hkept, ← metadataAtPlace] at hstamp
      refine ⟨metadata, legacy, hfound, hmay, hstamp, fun p => ?_⟩
      replace hrest : Kv.exec (do
          if (legacyGoes own includeUnattributed metadata legacy).2 then
            deleteAll ((pagesTo (legacyGoes own includeUnattributed metadata legacy).1).map (pageKey (legacyKey peer)))
            Kv.delete (metadataKey (legacyKey peer))
          return true) kv₃ = (.ok true, kv') := by
        cases legacy <;> exact hrest
      generalize legacyGoes own includeUnattributed metadata legacy = goes at hrest ⊢
      by_cases hallowed : goes.2 = true
      · rw [if_pos hallowed] at hrest
        obtain ⟨v, kv₅, hpages', hrest⟩ := Kv.exec_bind_eq_ok.mp hrest
        obtain ⟨v', kv₆, hmeta', hdone⟩ := Kv.exec_bind_eq_ok.mp hrest
        obtain rfl : kv₆ = kv' := (Prod.mk.inj hdone).2
        rw [exec_deleteRecords (o := none) hpages' hmeta' p, hscoped]
        simp only [hallowed, true_and]
        by_cases hown : UpTo (some own) peer metadata.latestPage p
        · rw [if_pos hown, if_pos hown, ite_self]
        · rw [if_neg hown, if_neg hown]
      · rw [if_neg hallowed] at hrest
        obtain rfl : kv₃ = kv' := (Prod.mk.inj hrest).2
        rw [hscoped, if_neg (c := goes.2 = true ∧ _) fun hgo => hallowed hgo.1]

theorem delete_answers {metadata : ConversationMetadata} {legacy : Option ConversationMetadata}
    (hmeta : metadataOf kv own peer = .ok (some metadata)) (hmay : may own includeUnattributed metadata = true)
    (hlegacy : metadataAtPlace kv (.legacyMetadata peer) = .ok legacy) :
    ∃ kv', Kv.exec (delete own peer includeUnattributed) kv = (.ok true, kv') := by
  obtain ⟨kv₁, hpages, -⟩ := exec_deleteAll ((pagesTo metadata.latestPage).map (pageKey (scopedKey own peer))) kv
  have hscoped := exec_deleteRecords (o := some own)
    (show Kv.exec (deleteAll ((pagesTo _).map (pageKey (Place.mk (some own) peer none).base))) kv = _ from hpages)
    (Kv.exec_delete _ _)
  have hread : Kv.exec (metadataAt (metadataKey (legacyKey peer))) (kv₁.erase (Place.metadata own peer).name) =
      (.ok legacy, kv₁.erase (Place.metadata own peer).name) := by
    have hread := exec_metadataAt honest_handle (.legacyMetadata peer) (kv₁.erase (Place.metadata own peer).name)
    rw [metadataAtPlace, id, hscoped, if_neg (by rintro ⟨⟨⟩, -⟩), ← metadataAtPlace, hlegacy] at hread
    exact hread
  have hrest : ∃ kv', Kv.exec (do
      if (legacyGoes own includeUnattributed metadata legacy).2 then
        deleteAll ((pagesTo (legacyGoes own includeUnattributed metadata legacy).1).map (pageKey (legacyKey peer)))
        Kv.delete (metadataKey (legacyKey peer))
      return true) (kv₁.erase (Place.metadata own peer).name) = (.ok true, kv') := by
    split_ifs
    · obtain ⟨kv₂, hpages', -⟩ := exec_deleteAll
        ((pagesTo (legacyGoes own includeUnattributed metadata legacy).1).map (pageKey (legacyKey peer)))
        (kv₁.erase (Place.metadata own peer).name)
      exact ⟨_, Kv.exec_bind_eq_ok.mpr ⟨_, _, hpages', Kv.exec_bind_eq_ok.mpr ⟨_, _, Kv.exec_delete _ _, rfl⟩⟩⟩
    · exact ⟨_, rfl⟩
  obtain ⟨kv', hrest⟩ := hrest
  have hload : Kv.exec (loadMetadata own peer) kv = (.ok (some metadata), kv) := by rw [exec_loadMetadata, hmeta]
  refine ⟨kv', Kv.exec_bind_eq_ok.mpr ⟨_, _, hload, ?_⟩⟩
  simp only [hmay, Bool.not_true, Bool.false_eq_true, if_false]
  refine Kv.exec_bind_eq_ok.mpr ⟨_, _, hpages, Kv.exec_bind_eq_ok.mpr ⟨_, _, Kv.exec_delete _ _, ?_⟩⟩
  refine Kv.exec_bind_eq_ok.mpr ⟨_, _, hread, ?_⟩
  cases legacy <;> exact hrest

/-! ## The legacy records -/

def Unattributed (kv : Kv) (peer : Cid) : Prop :=
  ∃ m, metadataAtPlace kv (.legacyMetadata peer) = .ok (some m) ∧ m.ownerCid = none

/-- The legacy records are another account's, or nobody's when those are to stay. -/
def LegacyStays (kv : Kv) (own peer : Cid) (includeUnattributed : Bool) : Prop :=
  StampedForOther kv own peer ∨ includeUnattributed = false ∧
    (Unattributed kv peer ∨ metadataAtPlace kv (.legacyMetadata peer) = .ok none)

theorem legacyGoes_eq_true {metadata : ConversationMetadata} {legacy : Option ConversationMetadata}
    (h : metadataAtPlace kv (.legacyMetadata peer) = .ok legacy) :
    (legacyGoes own includeUnattributed metadata legacy).2 = true ↔ ¬ LegacyStays kv own peer includeUnattributed := by
  unfold LegacyStays StampedForOther Unattributed
  rw [h]
  cases legacy with
  | none => simp [legacyGoes]
  | some m =>
    cases ho : m.ownerCid with
    | none => simp [legacyGoes, may, ho]
    | some o => simp [legacyGoes, may, ho]

section Deleting

variable (h : Kv.exec (delete own peer includeUnattributed) kv = (.ok true, kv'))
include h

theorem own_gone : kv'.at_ (.metadata own peer) = none ∧ kv'.at_ (.messages own peer 0) = none := by
  obtain ⟨metadata, legacy, -, -, -, hat⟩ := delete_eq_true h
  have hup : ∀ part : Option UInt32, (∀ n, part = some n → n ≤ metadata.latestPage) →
      kv'.at_ ⟨some own, peer, part⟩ = none := by
    intro part hpart
    rw [hat, if_pos ⟨rfl, rfl, hpart⟩]
  refine ⟨hup none (fun n hn => nomatch hn), hup (some 0) fun n hn => ?_⟩
  rw [← Option.some.inj hn]
  exact UInt32.zero_le

theorem legacy_stays (hstays : LegacyStays kv own peer includeUnattributed) (p : Place) (hp : p.owner = none) :
    kv'.at_ p = kv.at_ p := by
  obtain ⟨metadata, legacy, -, -, hlegacy, hat⟩ := delete_eq_true h
  have hnot : ¬ UpTo (some own) peer metadata.latestPage p := fun hup => nomatch hp.symm.trans hup.1
  rw [hat, if_neg hnot, if_neg]
  exact fun hgo => (legacyGoes_eq_true hlegacy).mp hgo.1 hstays

theorem legacy_gone (hgoes : ¬ LegacyStays kv own peer includeUnattributed) :
    kv'.at_ (.legacyMetadata peer) = none ∧ kv'.at_ (.legacyMessages peer 0) = none := by
  obtain ⟨metadata, legacy, -, -, hlegacy, hat⟩ := delete_eq_true h
  have hgo := (@legacyGoes_eq_true kv own peer includeUnattributed metadata _ hlegacy).mpr hgoes
  have hup : ∀ part : Option UInt32, (∀ n, part = some n → n = 0) → kv'.at_ ⟨none, peer, part⟩ = none := by
    intro part hpart
    rw [hat, ite_eq_left_iff]
    intro _
    exact if_pos ⟨hgo, rfl, rfl, fun n hn => hpart n hn ▸ UInt32.zero_le⟩
  exact ⟨hup none (fun n hn => nomatch hn), hup (some 0) fun n hn => (Option.some.inj hn).symm⟩

theorem others_stay (p : Place) (hp : p.peer ≠ peer ∨ ∃ o, p.owner = some o ∧ o ≠ own) : kv'.at_ p = kv.at_ p := by
  obtain ⟨metadata, legacy, -, -, -, hat⟩ := delete_eq_true h
  have hown : ¬ UpTo (some own) peer metadata.latestPage p := by
    rintro ⟨ho, hpeer, -⟩
    rcases hp with hp | ⟨o, hp, hne⟩
    · exact hp hpeer
    · exact hne (Option.mem_unique hp ho)
  have hlegacy : ¬ ((legacyGoes own includeUnattributed metadata legacy).2 = true ∧
      UpTo none peer (legacyGoes own includeUnattributed metadata legacy).1 p) := by
    rintro ⟨-, ho, hpeer, -⟩
    rcases hp with hp | ⟨o, hp, -⟩
    · exact hp hpeer
    · exact nomatch hp.symm.trans ho
  rw [hat, if_neg hown, if_neg hlegacy]

end Deleting

/-! ## What is left -/

def StartsAfresh (kv : Kv) (own peer : Cid) : Prop :=
  ∀ (message : ConversationMessage) (name : Option String) (now : F64),
    (place (emptyPage peer 0 message.timestamp) message).FiniteReactions →
    ∃ m page b kv', Kv.exec (append own peer message name now) kv = (.ok (some m), kv') ∧ m.latestPage = 0 ∧
      page.messages = [message] ∧ encodePage page = .ok b ∧ kv'.at_ (.messages own peer 0) = some b

theorem find_of_unloaded (hmeta : metadataOf kv own peer = .ok none) (id : String) :
    Kv.exec (find own peer id) kv = (.ok none, kv) := by
  rw [exec_find, foundIn, hmeta]

theorem startsAfresh_of_unloaded (hmeta : metadataOf kv own peer = .ok none) (hpage : pageOf kv own peer 0 = .ok none) :
    StartsAfresh kv own peer := by
  intro message name now hwritable
  let d : Draft := ⟨stamped own (newMetadata own peer message name message.timestamp),
    emptyPage peer 0 message.timestamp, true⟩
  have hd : draftOf kv own peer message name = .ok (some d) :=
    draftOf_eq_some.mpr ⟨none, hmeta, rfl, rfl, newestPage_eq_ok.mpr ⟨none, hpage, rfl⟩,
      storedIn_eq_false.mpr ⟨rfl, fun h => absurd rfl h⟩⟩
  have hf : ¬ d.Full := by simp [d, Draft.Full, emptyPage, MESSAGES_PER_PAGE]
  have hplaced : d.placed peer message = place (emptyPage peer 0 message.timestamp) message := by
    rw [Draft.placed, if_neg hf]
  obtain ⟨b, hb⟩ : ∃ b, encodePage (d.placed peer message) = .ok b :=
    ⟨_, (encodePage_eq_ok _ _).mpr ⟨hplaced ▸ hwritable, rfl⟩⟩
  have hw : d.Writes own peer message [(.messages own peer 0, b)] := by
    rw [Draft.Writes, if_neg hf]
    exact ⟨b, hb, rfl⟩
  refine ⟨d.recorded own message now, d.placed peer message, b, _, exec_append_of_draft hd hw now, ?_, ?_, hb, ?_⟩
  · show d.number = 0
    rw [Draft.number, if_neg hf]
    rfl
  · rw [hplaced]
    simp [place, emptyPage]
  · rw [show insertAll ([(Place.messages own peer 0, b)] ++ [d.pointer own message now]) kv =
      (kv.insert (Place.messages own peer 0).name b).insert (d.pointer own message now).1.name
        (d.pointer own message now).2 from rfl, Kv.at_insert, if_neg (by simp [Draft.pointer]), Kv.at_insert, if_pos rfl]

theorem append_of_left (hmeta : metadataOf kv own peer = .ok none) {page : ConversationPage}
    (hpage : pageOf kv own peer 0 = .ok (some page)) {message : ConversationMessage}
    (hid : page.messages.any (hasId message.id) = true) {name : Option String} {now : F64} :
    Kv.exec (append own peer message name now) kv = (.ok none, kv) := by
  have hd : draftOf kv own peer message name = .ok none := by
    simp only [draftOf, hmeta, Result.ok_bind, Option.getD_none]
    rw [show (stamped own (newMetadata own peer message name message.timestamp)).latestPage = 0 from rfl, newestPage, hpage]
    simp only [Option.getD_some, Result.ok_bind, storedIn, hid, if_true]
    rfl
  rw [Kv.exec, exec_append_of_honest honest_handle, id, hd]

/-- No record of another peer, of another account or stamped for one is changed. -/
structure Spared (kv kv' : Kv) (own peer : Cid) : Prop where
  places : ∀ p : Place, (p.peer ≠ peer ∨ ∃ o, p.owner = some o ∧ o ≠ own) → kv'.at_ p = kv.at_ p
  stamped : ∀ (p : Place) m o, p.page = none → metadataAtPlace kv p = .ok (some m) → m.ownerCid = some o →
    o ≠ own → kv'.at_ p = kv.at_ p
  pages : StampedForOther kv own peer → ∀ n, kv'.at_ (.legacyMessages peer n) = kv.at_ (.legacyMessages peer n)

/-- What a delete of the conversation that answers yes is to leave. -/
structure Deleted (kv kv' : Kv) (own peer : Cid) (includeUnattributed : Bool) : Prop where
  spared : Spared kv kv' own peer
  unattributed : Unattributed kv peer → includeUnattributed = false →
    (∀ p : Place, p.owner = none → kv'.at_ p = kv.at_ p) ∧
      ∃ m, m.ownerCid = none ∧ Kv.exec (loadMetadata own peer) kv' = (.ok (some m), kv')
  cleared : (Unattributed kv peer → includeUnattributed = true) →
    Kv.exec (loadMetadata own peer) kv' = (.ok none, kv') ∧ ∀ id, Kv.exec (find own peer id) kv' = (.ok none, kv')
  afresh : (Unattributed kv peer → includeUnattributed = true) →
    (LegacyStays kv own peer includeUnattributed → kv.at_ (.legacyMessages peer 0) = none) → StartsAfresh kv' own peer

section Deleting

variable (h : Kv.exec (delete own peer includeUnattributed) kv = (.ok true, kv'))
include h

theorem not_stamped_own {m : ConversationMetadata} {o : Cid} (hm : metadataAtPlace kv (.metadata own peer) = .ok (some m))
    (ho : m.ownerCid = some o) : o = own := by
  obtain ⟨metadata, legacy, hmeta, hmay, -, -⟩ := delete_eq_true h
  rw [metadataOf, hm] at hmeta
  obtain rfl := Option.some.inj (Except.ok.inj hmeta)
  simpa [may, ho] using hmay

theorem delete_spares : Spared kv kv' own peer where
  places := others_stay h
  stamped p m o hpage hm ho hne := by
    obtain ⟨owner, q, part⟩ := p
    obtain rfl : part = none := hpage
    by_cases hq : q = peer
    · subst hq
      cases owner with
      | none => exact legacy_stays h (.inl ⟨m, o, hm, ho, hne⟩) _ rfl
      | some owner =>
        by_cases howner : owner = own
        · subst howner
          exact absurd (not_stamped_own h hm ho) hne
        · exact others_stay h _ (.inr ⟨owner, rfl, howner⟩)
    · exact others_stay h _ (.inl hq)
  pages hother n := legacy_stays h (.inl hother) _ rfl

theorem metadataOf_of_delete : metadataOf kv' own peer =
    match metadataAtPlace kv' (.legacyMetadata peer) with
    | .error e => .error e
    | .ok legacy => .ok (legacy.filter (readable own)) := by
  rw [metadataOf, metadataAtPlace, (own_gone h).1]
  rfl

theorem pageOf_of_delete : pageOf kv' own peer 0 = pageAtPlace kv' (.legacyMessages peer 0) := by
  rw [pageOf, pageAtPlace, (own_gone h).2]
  rfl

theorem unloaded (hcleared : Unattributed kv peer → includeUnattributed = true) : metadataOf kv' own peer = .ok none := by
  rw [metadataOf_of_delete h]
  by_cases hstays : LegacyStays kv own peer includeUnattributed
  · rw [metadataAtPlace, legacy_stays h hstays _ rfl, ← metadataAtPlace]
    rcases hstays with ⟨m, o, hm, ho, hne⟩ | ⟨hflag, hun | hnone⟩
    · rw [hm]
      simp [Option.filter, readable, ho, hne]
    · cases hflag.symm.trans (hcleared hun)
    · rw [hnone]
      rfl
  · rw [metadataAtPlace, (legacy_gone h hstays).1]
    rfl

theorem unattributed_loads (hun : Unattributed kv peer) (hflag : includeUnattributed = false) :
    ∃ m, m.ownerCid = none ∧ Kv.exec (loadMetadata own peer) kv' = (.ok (some m), kv') := by
  have hstays : LegacyStays kv own peer includeUnattributed := .inr ⟨hflag, .inl hun⟩
  obtain ⟨m, hm, ho⟩ := hun
  refine ⟨m, ho, ?_⟩
  rw [exec_loadMetadata, metadataOf_of_delete h, metadataAtPlace, legacy_stays h hstays _ rfl, ← metadataAtPlace, hm]
  simp [Option.filter, readable, ho]

end Deleting

/-- After a delete that answers yes the conversation is gone, but for an unstamped record that was to stay; and no other
conversation has changed. -/
theorem delete_deletes (h : Kv.exec (delete own peer includeUnattributed) kv = (.ok true, kv')) :
    Deleted kv kv' own peer includeUnattributed where
  spared := delete_spares h
  unattributed hun hflag := ⟨legacy_stays h (.inr ⟨hflag, .inl hun⟩), unattributed_loads h hun hflag⟩
  cleared := by
    intro hcleared
    have hmeta := unloaded h hcleared
    exact ⟨by rw [exec_loadMetadata, hmeta], find_of_unloaded hmeta⟩
  afresh := by
    intro hcleared hfirst
    refine startsAfresh_of_unloaded (unloaded h hcleared) ?_
    rw [pageOf_of_delete h, pageAtPlace]
    by_cases hstays : LegacyStays kv own peer includeUnattributed
    · rw [legacy_stays h hstays _ rfl, hfirst hstays]
      rfl
    · rw [(legacy_gone h hstays).2]
      rfl

end

/-! ## Two conversations that are not cleared -/

theorem delete_deletes_quiet : ∃ kv', Kv.exec (delete 7 5 true) (quietAt (.legacyMetadata 5)) = (.ok true, kv') ∧
    Deleted (quietAt (.legacyMetadata 5)) kv' 7 5 true := by
  have hlegacy : metadataAtPlace (quietAt (.legacyMetadata 5)) (.legacyMetadata 5) = .ok (some quietMetadata.norm) := by
    rw [metadataAtPlace_quietAt, if_pos rfl]
  have hmeta : metadataOf (quietAt (.legacyMetadata 5)) 7 5 = .ok (some quietMetadata.norm) := by
    rw [metadataOf, metadataAtPlace_quietAt, if_neg (by simp), hlegacy]
    rfl
  obtain ⟨kv', h⟩ := delete_answers hmeta (show may 7 true _ = true from rfl) hlegacy
  exact ⟨kv', h, delete_deletes h⟩

def adopted : Kv :=
  (quietAt (.legacyMetadata 5)).insert (Place.metadata 7 5).name (metadataBytes { quietMetadata with ownerCid := some 7 })

/-- Account 9's conversation with a peer of account 1, and account 1's own with that peer. -/
def sharedPeer : Kv := othersRecords.insert (Place.metadata 1 2).name (metadataBytes { othersMetadata with ownerCid := some 1 })

/-- The conversation is loaded again after its delete, or its first message is taken for one of another account's. -/
theorem cleared_is_back :
    (∃ kv' m, Kv.exec (delete 7 5 false) adopted = (.ok true, kv') ∧
      Kv.exec (loadMetadata 7 5) kv' = (.ok (some m), kv')) ∧
    ∃ kv' message, Kv.exec (delete 1 2 true) sharedPeer = (.ok true, kv') ∧
      Kv.exec (append 1 2 message none message.timestamp) kv' = (.ok none, kv') := by
  constructor
  · have h0 : (F64.ofNat 0).isFinite = true := by decide +kernel
    have hlegacy : metadataAtPlace adopted (.legacyMetadata 5) = .ok (some quietMetadata.norm) := by
      rw [metadataAtPlace, adopted, Kv.at_insert, if_neg (by simp), ← metadataAtPlace, metadataAtPlace_quietAt, if_pos rfl]
    have hown : metadataOf adopted 7 5 = .ok (some ({ quietMetadata with ownerCid := some 7 } : ConversationMetadata).norm) := by
      rw [adopted, metadataOf_insert_metadata, if_pos rfl, recordRead_metadataBytes]
      exact ⟨by constructor <;> simp only [quietMetadata, h0], rfl⟩
    obtain ⟨kv', h⟩ := delete_answers hown (show may 7 false _ = true by decide) hlegacy
    obtain ⟨m, -, hload⟩ := unattributed_loads h ⟨_, hlegacy, rfl⟩ rfl
    exact ⟨kv', m, h, hload⟩
  · have h0 : (F64.ofNat 0).isFinite = true := by decide +kernel
    have h1 : (F64.ofNat 1).isFinite = true := by decide +kernel
    have hkept : ∀ p : Place, p.owner = none → sharedPeer.at_ p = othersRecords.at_ p := by
      intro p hp
      rw [sharedPeer, Kv.at_insert, if_neg]
      rintro rfl
      cases hp
    have hother : StampedForOther sharedPeer 1 2 := by
      obtain ⟨m, o, hm, ho⟩ := stampedForOther_others
      exact ⟨m, o, by rw [metadataAtPlace, hkept _ rfl, ← metadataAtPlace, hm], ho⟩
    have hown : metadataOf sharedPeer 1 2 = .ok (some ({ othersMetadata with ownerCid := some 1 } : ConversationMetadata).norm) := by
      rw [sharedPeer, metadataOf_insert_metadata, if_pos rfl, recordRead_metadataBytes]
      exact ⟨by constructor <;> simp only [othersMetadata, h0, h1], rfl⟩
    obtain ⟨m, _, hlegacy, _⟩ := id hother
    obtain ⟨kv', h⟩ := delete_answers hown (show may 1 true _ = true by decide) hlegacy
    have hpage : pageOf kv' 1 2 0 = .ok (some othersPage.norm) := by
      rw [pageOf_of_delete h, pageAtPlace, legacy_stays h (.inl hother) _ rfl, hkept _ rfl, othersRecords, Kv.at_insert,
        if_pos rfl, recordRead, decodePage_others]
    exact ⟨kv', firstMessage, h, append_of_left (unloaded h fun _ => rfl) hpage (by decide)⟩

end CitadelAgent.Conversations
