import CitadelAgent.Conversations.Store
import CitadelAgent.Conversations.StoredRead

/-!
# What the store's loads and saves do

* `metadataOf`, `pageOf` : what a load finds, as a function of the records;
* `Honest` : a bucket that answers every read from its records; on any such bucket the loads find that.
-/

namespace CitadelAgent.Conversations
open Store StoreRules

/-! ## The places of one conversation -/

namespace Place

abbrev metadata (own peer : Cid) : Place := ⟨some own, peer, none⟩

abbrev messages (own peer : Cid) (number : UInt32) : Place := ⟨some own, peer, some number⟩

abbrev legacyMetadata (peer : Cid) : Place := ⟨none, peer, none⟩

abbrev legacyMessages (peer : Cid) (number : UInt32) : Place := ⟨none, peer, some number⟩

end Place

namespace Kv

def at_ (kv : Kv) (p : Place) : Option Bytes := kv.lookup p.name

theorem at_insert (kv : Kv) (p q : Place) (b : Bytes) :
    at_ (kv.insert q.name b) p = if p = q then some b else kv.at_ p := by
  simp only [at_, lookup_insert_eq, Place.name_inj]

theorem at_erase (kv : Kv) (p q : Place) : at_ (kv.erase q.name) p = if p = q then none else kv.at_ p := by
  simp only [at_, lookup_erase_eq, Place.name_inj]

end Kv

def recordRead {α : Type} (decode : Bytes → Except StoredError α) : Option Bytes → Except KvError (Option α)
  | none => .ok none
  | some b =>
    match decode b with
    | .ok a => .ok (some a)
    | .error e => .error (.stored e)

def metadataAtPlace (kv : Kv) (p : Place) : Except KvError (Option ConversationMetadata) :=
  recordRead decodeMetadata (kv.at_ p)

def pageAtPlace (kv : Kv) (p : Place) : Except KvError (Option ConversationPage) := recordRead decodePage (kv.at_ p)

/-- What `load_metadata` finds. -/
def metadataOf (kv : Kv) (own peer : Cid) : Except KvError (Option ConversationMetadata) :=
  match metadataAtPlace kv (.metadata own peer) with
  | .error e => .error e
  | .ok (some found) => .ok (some found)
  | .ok none =>
    match metadataAtPlace kv (.legacyMetadata peer) with
    | .error e => .error e
    | .ok legacy => .ok (legacy.filter (readable own))

/-- What `load_page` finds. -/
def pageOf (kv : Kv) (own peer : Cid) (number : UInt32) : Except KvError (Option ConversationPage) :=
  match pageAtPlace kv (.messages own peer number) with
  | .error e => .error e
  | .ok (some page) => .ok (some page)
  | .ok none => pageAtPlace kv (.legacyMessages peer number)

/-! ## Loads on any bucket that answers reads -/

/-- Reads are answered from the records `view s` and change nothing. -/
def Honest {σ : Type} (handle : (o : KvOp) → σ → o.Ans × σ) (view : σ → Kv) : Prop :=
  ∀ key s, handle (.get key) s = (.ok ((view s).lookup key), s)

theorem honest_handle : Honest Kv.handle id := fun _ _ => rfl

theorem honest_refusing : Honest Kv.refusing Prod.fst := fun _ _ => rfl

theorem exec_stored {σ α : Type} (handle : (o : KvOp) → σ → o.Ans × σ) (x : Except StoredError α) (s : σ) :
    Prog.exec handle (Kv.stored x) s = (match x with | .ok a => .ok a | .error e => .error (.stored e), s) := by
  cases x <;> rfl

section Loads

variable {σ : Type} {handle : (o : KvOp) → σ → o.Ans × σ} {view : σ → Kv} (hon : Honest handle view)
include hon

theorem exec_get_of_honest (key : String) (s : σ) :
    Prog.exec handle (Kv.get key) s = (.ok ((view s).lookup key), s) := hon key s

theorem exec_metadataAt (p : Place) (s : σ) :
    Prog.exec handle (metadataAt p.name) s = (metadataAtPlace (view s) p, s) := by
  rw [metadataAt, Prog.exec_bind, exec_get_of_honest hon, Prog.resume_ok, metadataAtPlace, Kv.at_]
  cases (view s).lookup p.name with
  | none => rfl
  | some b =>
    rw [Prog.exec_bind, exec_stored, recordRead]
    cases decodeMetadata b <;> rfl

theorem exec_pageAt (p : Place) (s : σ) : Prog.exec handle (pageAt p.name) s = (pageAtPlace (view s) p, s) := by
  rw [pageAt, Prog.exec_bind, exec_get_of_honest hon, Prog.resume_ok, pageAtPlace, Kv.at_]
  cases (view s).lookup p.name with
  | none => rfl
  | some b =>
    rw [Prog.exec_bind, exec_stored, recordRead]
    cases decodePage b <;> rfl

theorem exec_loadMetadata_of_honest (own peer : Cid) (s : σ) :
    Prog.exec handle (loadMetadata own peer) s = (metadataOf (view s) own peer, s) := by
  have hscoped := exec_metadataAt hon (.metadata own peer) s
  have hlegacy := exec_metadataAt hon (.legacyMetadata peer) s
  rw [loadMetadata, Prog.exec_bind]
  rw [show metadataKey (scopedKey own peer) = (Place.metadata own peer).name from rfl, hscoped, metadataOf]
  cases metadataAtPlace (view s) (.metadata own peer) with
  | error e => rfl
  | ok found =>
    cases found with
    | some found => rfl
    | none =>
      rw [Prog.resume_ok, Prog.exec_bind,
        show metadataKey (legacyKey peer) = (Place.legacyMetadata peer).name from rfl, hlegacy]
      cases metadataAtPlace (view s) (.legacyMetadata peer) <;> rfl

theorem exec_loadPage_of_honest (own peer : Cid) (number : UInt32) (s : σ) :
    Prog.exec handle (loadPage own peer number) s = (pageOf (view s) own peer number, s) := by
  have hscoped := exec_pageAt hon (.messages own peer number) s
  have hlegacy := exec_pageAt hon (.legacyMessages peer number) s
  rw [loadPage, Prog.exec_bind, show pageKey (scopedKey own peer) number = (Place.messages own peer number).name from rfl,
    hscoped, pageOf]
  cases pageAtPlace (view s) (.messages own peer number) with
  | error e => rfl
  | ok found =>
    cases found with
    | some found => rfl
    | none => exact hlegacy

end Loads

@[simp] theorem exec_loadMetadata (own peer : Cid) (kv : Kv) :
    Kv.exec (loadMetadata own peer) kv = (metadataOf kv own peer, kv) :=
  exec_loadMetadata_of_honest honest_handle own peer kv

@[simp] theorem exec_loadPage (own peer : Cid) (number : UInt32) (kv : Kv) :
    Kv.exec (loadPage own peer number) kv = (pageOf kv own peer number, kv) :=
  exec_loadPage_of_honest honest_handle own peer number kv

/-! ## Saves -/

def metadataBytes (m : ConversationMetadata) : Bytes := .json (.object (jsFields m.storedFields))

theorem encodeMetadata_ok (m : ConversationMetadata) : encodeMetadata m = .ok (metadataBytes m) := encodeMetadata_eq m

theorem exec_saveMetadata (own : Cid) (m : ConversationMetadata) (kv : Kv) :
    Kv.exec (saveMetadata own m) kv = (.ok (), kv.insert (Place.metadata own m.peerCid).name (metadataBytes m)) := by
  rw [saveMetadata, Kv.exec_bind, encodeMetadata_ok]
  rfl

theorem exec_savePage (own : Cid) (p : ConversationPage) (kv : Kv) :
    Kv.exec (savePage own p) kv = match encodePage p with
      | .ok b => (.ok (), kv.insert (Place.messages own p.peerCid p.pageNumber).name b)
      | .error e => (.error (.stored e), kv) := by
  rw [savePage, Kv.exec_bind]
  cases encodePage p <;> rfl

variable {kv : Kv} {own peer : Cid} {p : ConversationPage} {b : Bytes}

theorem exec_savePage_eq_ok {kv' : Kv} {u : Unit} :
    Kv.exec (savePage own p) kv = (.ok u, kv') ↔
      ∃ b, encodePage p = .ok b ∧ kv' = kv.insert (Place.messages own p.peerCid p.pageNumber).name b := by
  rw [exec_savePage]
  cases encodePage p with
  | ok b => simp [eq_comm]
  | error e => simp

/-! ## Reading after a write -/

section

variable (kv : Kv) (own c peer : Cid) (k n : UInt32) (b : Bytes)

theorem metadataOf_insert_messages : metadataOf (kv.insert (Place.messages own c k).name b) own peer =
    metadataOf kv own peer := by
  simp only [metadataOf, metadataAtPlace, Kv.at_insert, Place.mk.injEq, reduceCtorEq, and_false, if_false]

theorem pageOf_insert_messages : pageOf (kv.insert (Place.messages own c k).name b) own peer n =
    if peer = c ∧ n = k then recordRead decodePage (some b) else pageOf kv own peer n := by
  simp only [pageOf, pageAtPlace, Kv.at_insert, Place.mk.injEq, Option.some.injEq, true_and, reduceCtorEq, false_and,
    if_false]
  split_ifs with h
  · rw [recordRead]
    cases decodePage b <;> rfl
  · rfl

theorem pageOf_insert_metadata : pageOf (kv.insert (Place.metadata own c).name b) own peer n = pageOf kv own peer n := by
  simp only [pageOf, pageAtPlace, Kv.at_insert, Place.mk.injEq, reduceCtorEq, and_false, if_false]

theorem metadataOf_insert_metadata : metadataOf (kv.insert (Place.metadata own c).name b) own peer =
    if peer = c then recordRead decodeMetadata (some b) else metadataOf kv own peer := by
  simp only [metadataOf, metadataAtPlace, Kv.at_insert, Place.mk.injEq, true_and, and_true,
    reduceCtorEq, false_and, if_false]
  split_ifs with h
  · rw [recordRead]
    cases decodeMetadata b <;> rfl
  · rfl

end

theorem recordRead_ok {α : Type} {decode : Bytes → Except StoredError α} {a : α} (h : decode b = .ok a) :
    recordRead decode (some b) = .ok (some a) := by
  simp only [recordRead, h]

theorem recordRead_eq_some {α : Type} {decode : Bytes → Except StoredError α} {r : Option Bytes} {a : α}
    (h : recordRead decode r = .ok (some a)) : ∃ b, r = some b ∧ decode b = .ok a := by
  cases r with
  | none => simp [recordRead] at h
  | some b =>
    refine ⟨b, rfl, ?_⟩
    cases hb : decode b with
    | error e => simp [recordRead, hb] at h
    | ok x =>
      simp only [recordRead, hb, Except.ok.injEq, Option.some.injEq] at h
      rw [h]

theorem sound_of_pageOf {n : UInt32} (h : pageOf kv own peer n = .ok (some p)) : p.Sound := by
  have hread : ∃ place, pageAtPlace kv place = .ok (some p) := by
    unfold pageOf at h
    split at h
    · cases h
    · next q hq =>
      cases h
      exact ⟨_, hq⟩
    · exact ⟨_, h⟩
  obtain ⟨place, hplace⟩ := hread
  obtain ⟨b, -, hb⟩ := recordRead_eq_some hplace
  exact sound_of_decodePage hb

theorem readable_of_metadataOf {m : ConversationMetadata} (h : metadataOf kv own peer = .ok (some m)) : m.Readable := by
  have hread : ∃ place, metadataAtPlace kv place = .ok (some m) := by
    unfold metadataOf at h
    split at h
    · cases h
    · next found hfound =>
      cases h
      exact ⟨_, hfound⟩
    · split at h
      · cases h
      · next legacy hlegacy =>
        obtain ⟨rfl, -⟩ := Option.filter_eq_some_iff.mp (Except.ok.inj h)
        exact ⟨_, hlegacy⟩
  obtain ⟨place, hplace⟩ := hread
  obtain ⟨b, -, hb⟩ := recordRead_eq_some hplace
  exact readable_of_decodeMetadata hb

theorem recordRead_metadataBytes (m : ConversationMetadata) (found : Option ConversationMetadata) :
    recordRead decodeMetadata (some (metadataBytes m)) = .ok found ↔ m.Readable ∧ found = some m.norm := by
  have hdecode := decodeMetadata_encodeMetadata (encodeMetadata_ok m)
  rw [recordRead]
  cases hb : decodeMetadata (metadataBytes m) with
  | error e =>
    have hnot : ¬ m.Readable := fun hm => by simpa [hb] using (hdecode m.norm).mpr ⟨hm, rfl⟩
    simp [hnot]
  | ok q =>
    obtain ⟨hm, rfl⟩ := (hdecode q).mp hb
    simp [hm, eq_comm]

theorem recordRead_encodePage (h : encodePage p = .ok b) (found : Option ConversationPage) :
    recordRead decodePage (some b) = .ok found ↔ p.Readable ∧ found = some p.norm := by
  have hdecode := decodePage_encodePage h
  rw [recordRead]
  cases hb : decodePage b with
  | error e =>
    have hnot : ¬ p.Readable := fun hp => by simpa [hb] using (hdecode p.norm).mpr ⟨hp, rfl⟩
    simp [hnot]
  | ok q =>
    obtain ⟨hp, rfl⟩ := (hdecode q).mp hb
    simp [hp, eq_comm]

theorem pageOf_saved {k : UInt32} (hb : encodePage p = .ok b)
    (hp : p.Readable) (n : UInt32) : pageOf (kv.insert (Place.messages own peer k).name b) own peer n =
      if n = k then .ok (some p.norm) else pageOf kv own peer n := by
  rw [pageOf_insert_messages]
  by_cases hn : n = k
  · rw [if_pos ⟨rfl, hn⟩, if_pos hn, (recordRead_encodePage hb _).mpr ⟨hp, rfl⟩]
  · rw [if_neg fun hk => hn hk.2, if_neg hn]

def pageBytes (p : ConversationPage) : Bytes := .json (.object (jsFields p.storedFields))

/-! ## Finding a message -/

theorem toNat_add_one {k : UInt32} (h : k.toNat + 1 < 2 ^ 32) : (k + 1).toNat = k.toNat + 1 := by
  rw [UInt32.toNat_add, UInt32.toNat_one, Nat.mod_eq_of_lt h]

theorem mem_pagesTo {n latest : UInt32} : n ∈ pagesTo latest ↔ n ≤ latest := by
  simp only [pagesTo, List.mem_map, List.mem_range, UInt32.le_iff_toNat_le]
  constructor
  · rintro ⟨k, hk, rfl⟩
    have hlt := latest.toNat_lt
    rw [UInt32.toNat_ofNat_of_lt' (by simp only [UInt32.size]; omega)]
    omega
  · intro h
    exact ⟨n.toNat, by omega, UInt32.ofNat_toNat⟩

theorem nodup_pagesTo (latest : UInt32) : (pagesTo latest).Nodup := by
  refine List.Nodup.map_on (fun a ha b hb hab => ?_) List.nodup_range
  have hlt := latest.toNat_lt
  rw [List.mem_range] at ha hb
  have h := congrArg UInt32.toNat hab
  rwa [UInt32.toNat_ofNat_of_lt' (by simp only [UInt32.size]; omega),
    UInt32.toNat_ofNat_of_lt' (by simp only [UInt32.size]; omega)] at h

section Finding

variable (kv : Kv) (own peer : Cid) (id : String)

def foundOn (metadata : ConversationMetadata) : List UInt32 → Except KvError (Option Found)
  | [] => .ok none
  | number :: rest =>
    match pageOf kv own peer number with
    | .error e => .error e
    | .ok none => foundOn metadata rest
    | .ok (some page) =>
      match page.messages.findFinIdx? (hasId id) with
      | some index => .ok (some ⟨metadata, page, index⟩)
      | none => foundOn metadata rest

/-- What `find` finds. -/
def foundIn : Except KvError (Option Found) :=
  match metadataOf kv own peer with
  | .error e => .error e
  | .ok none => .ok none
  | .ok (some metadata) => foundOn kv own peer id metadata (pagesTo metadata.latestPage).reverse

theorem exec_findOn (metadata : ConversationMetadata) (numbers : List UInt32) :
    Kv.exec (findOn own metadata peer id numbers) kv = (foundOn kv own peer id metadata numbers, kv) := by
  induction numbers with
  | nil => rfl
  | cons number rest ih =>
    rw [findOn, Kv.exec_bind, exec_loadPage, foundOn]
    cases pageOf kv own peer number with
    | error e => rfl
    | ok page =>
      cases page with
      | none => exact ih
      | some page =>
        simp only [Prog.resume_ok]
        cases page.messages.findFinIdx? (hasId id) with
        | none => exact ih
        | some index => rfl

theorem exec_find : Kv.exec (find own peer id) kv = (foundIn kv own peer id, kv) := by
  rw [find, Kv.exec_bind, exec_loadMetadata, foundIn]
  cases metadataOf kv own peer with
  | error e => rfl
  | ok metadata =>
    cases metadata with
    | none => rfl
    | some metadata => exact exec_findOn kv own peer id metadata _

variable {kv own peer id}

theorem foundOn_eq_some {metadata : ConversationMetadata} {numbers : List UInt32} {f : Found}
    (h : foundOn kv own peer id metadata numbers = .ok (some f)) :
    f.metadata = metadata ∧ f.message.id = id ∧ ∃ n ∈ numbers, pageOf kv own peer n = .ok (some f.page) := by
  induction numbers with
  | nil => simp [foundOn] at h
  | cons number rest ih =>
    have hrest : foundOn kv own peer id metadata rest = .ok (some f) → f.metadata = metadata ∧ f.message.id = id ∧
        ∃ n ∈ number :: rest, pageOf kv own peer n = .ok (some f.page) := by
      intro hr
      obtain ⟨hm, hid, n, hn, hp⟩ := ih hr
      exact ⟨hm, hid, n, List.mem_cons_of_mem _ hn, hp⟩
    rw [foundOn] at h
    split at h
    · cases h
    · exact hrest h
    · next page hpage =>
      split at h
      · next index hindex =>
        cases h
        have hid := (List.findFinIdx?_eq_some_iff.mp hindex).1
        exact ⟨rfl, by simpa [hasId, Found.message] using hid, number, List.mem_cons_self, hpage⟩
      · exact hrest h

theorem foundIn_eq_some {f : Found} (h : foundIn kv own peer id = .ok (some f)) :
    metadataOf kv own peer = .ok (some f.metadata) ∧ f.message.id = id ∧
      ∃ n ≤ f.metadata.latestPage, pageOf kv own peer n = .ok (some f.page) := by
  unfold foundIn at h
  split at h
  · cases h
  · cases h
  · next metadata hmeta =>
    obtain ⟨rfl, hid, n, hn, hp⟩ := foundOn_eq_some h
    rw [List.mem_reverse, mem_pagesTo] at hn
    exact ⟨hmeta, hid, n, hn, hp⟩

theorem find_eq_ok {kv' : Kv} {found : Option Found} (h : Kv.exec (find own peer id) kv = (.ok found, kv')) :
    kv' = kv ∧ ∀ f, found = some f → metadataOf kv own peer = .ok (some f.metadata) ∧
      ∃ n, pageOf kv own peer n = .ok (some f.page) := by
  rw [exec_find] at h
  obtain ⟨hfound, rfl⟩ := Prod.mk.inj h
  refine ⟨rfl, fun f hf => ?_⟩
  obtain ⟨hmeta, -, n, -, hp⟩ := foundIn_eq_some (hf ▸ hfound)
  exact ⟨hmeta, n, hp⟩

end Finding

/-! ## Deleting records -/

theorem exec_deleteAll (keys : List String) (kv : Kv) : ∃ kv', Kv.exec (deleteAll keys) kv = (.ok (), kv') ∧
    ∀ key, kv'.lookup key = if key ∈ keys then none else kv.lookup key := by
  induction keys generalizing kv with
  | nil => exact ⟨kv, rfl, fun key => by simp⟩
  | cons k keys ih =>
    obtain ⟨kv', hrun, hlookup⟩ := ih (kv.erase k)
    refine ⟨kv', hrun, fun key => ?_⟩
    rw [hlookup, Kv.lookup_erase_eq]
    by_cases h1 : key ∈ keys
    · simp [h1]
    · by_cases h2 : key = k <;> simp [h1, h2]

theorem mem_pageKeys {o : Option Cid} {latest : UInt32} {p : Place} :
    p.name ∈ (pagesTo latest).map (pageKey (Place.mk o peer none).base) ↔
      p.owner = o ∧ p.peer = peer ∧ ∃ n ≤ latest, p.page = some n := by
  have hname : ∀ n, pageKey (Place.mk o peer none).base n = (Place.mk o peer (some n)).name := fun n => rfl
  simp only [List.mem_map, mem_pagesTo, hname, Place.name_inj]
  constructor
  · rintro ⟨n, hn, rfl⟩
    exact ⟨rfl, rfl, n, hn, rfl⟩
  · rintro ⟨ho, hp, n, hn, hpage⟩
    exact ⟨n, hn, Place.ext ho.symm hp.symm hpage.symm⟩

end CitadelAgent.Conversations
