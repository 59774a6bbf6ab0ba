import CitadelAgent.Transfers.StagingInvariant

/-!
# What staging keeps, step by step

* `Quiet` : the steps that change neither what is on disk, but for what is removed, nor what is reserved, with `Inv.quiet`.
-/

namespace CitadelAgent.Transfers.Staging
open Function Places

structure Quiet (s t : State) : Prop where
  agrees : ∀ n, Agrees s t n
  made : t.made = s.made
  inFlight : t.inFlight = s.inFlight
  closures : t.closures = s.closures
  admitted : t.admitted = s.admitted

variable {s t : State}

theorem Quiet.sinks (h : Quiet s t) : Sinks s t := Agrees.sinks h.agrees h.made.ge

variable {upload : StagedUpload} {cid : Cid} {id : Uuid} {uploads : StagedUploads}

theorem Quiet.entered (h : Quiet s t) (hentered : Entered s upload)
    (happends : ∀ i append, t.appends i = some append → s.appends i = some append) : Entered t upload :=
  hentered.agrees (h.agrees _) fun i append hi _ => happends i append hi

theorem Inv.number_lt (h : Inv s) {i n : Nat} {store : Store} (hi : s.stores i = some store) (hn : store.phase.number = some n) :
    n < s.made := (h.single.fresh (.task i) n ⟨store, hi, hn⟩).1

theorem Inv.entry_lt (h : Inv s) (hfind : s.find cid id = some upload) :
    upload.number < s.made := (h.single.fresh (.entry cid id) upload.number ⟨upload, hfind, rfl⟩).1

theorem Inv.quiet (h : Inv s) (hquiet : Quiet s t) (hsingle : Single t.At [] s.made)
    (hspawned : ∀ i, t.spawned ≤ i → t.stores i = none ∧ t.appends i = none)
    (happended : ∀ i append, t.appends i = some append → append.number < s.made ∧ ∀ j, ¬ t.At (.task j) append.number)
    (hheld : ∀ p n, s.At p n → s.reserved n ≠ 0 → ∃ q, t.At q n)
    (hstores : ∀ i store, t.stores i = some store → s.stores i = some store ∨
      (store.data.length ≤ store.reserve ∧ store.reserve ≤ MAX_BROWSER_TRANSFER_TOTAL_BYTES) ∧ Stored s store)
    (hentered : ∀ cid id upload, t.find cid id = some upload → Entered t upload)
    (htaken : ∀ taken ∈ t.taken, taken.Whole) : Inv t where
  single := by rw [hquiet.made]; exact hsingle
  spawned := hspawned
  appended i append hi := by rw [hquiet.made]; exact happended i append hi
  unmade n hn := by
    rw [hquiet.made] at hn
    rw [(hquiet.agrees n).chunks, (hquiet.agrees n).reserved]
    exact h.unmade n hn
  held n hn := by
    rw [(hquiet.agrees n).reserved] at hn
    obtain ⟨p, hp⟩ := h.held n hn
    exact hheld p n hp hn
  kept n file hfile := by
    rw [(hquiet.agrees n).chunks]
    exact h.kept n file ((hquiet.agrees n).files file hfile)
  sizes i store hi := (hstores i store hi).elim (h.sizes i store) And.left
  stored i store hi := by
    have hs : Stored s store := (hstores i store hi).elim (h.stored i store) And.right
    refine hs.agrees (fun n hn => ⟨?_, hquiet.agrees n⟩) hquiet.sinks (fun n hn => by rw [hquiet.admitted]; exact hn)
    exact (hsingle.fresh (.task i) n ⟨store, hi, hn⟩).1
  entered := hentered
  taken := htaken
  bounded n := by rw [(hquiet.agrees n).reserved]; exact h.bounded n
  threads := by rw [hquiet.closures]; exact h.threads
  closures n hn := by
    rw [(hquiet.agrees n).reserved] at hn
    rw [hquiet.closures, hquiet.admitted]
    exact h.closures n hn
  flight := by
    rw [hquiet.inFlight, hquiet.made, h.flight]
    exact Finset.sum_congr rfl fun n _ => (hquiet.agrees n).reserved.symm
  cap n hn := by
    rw [hquiet.admitted] at hn
    obtain ⟨hlt, hcap⟩ := h.cap n hn
    rw [hquiet.made]
    exact ⟨hlt, hquiet.sinks.cap hlt hcap⟩

theorem quiet_of (hfiles : t.files = s.files) (hchunks : t.chunks = s.chunks) (hreserved : t.reserved = s.reserved)
    (hmade : t.made = s.made) (hflight : t.inFlight = s.inFlight) (hclosures : t.closures = s.closures)
    (hadmitted : t.admitted = s.admitted) : Quiet s t where
  agrees n := ⟨fun file hfile => by rw [← hfiles]; exact hfile, congrFun hchunks n, congrFun hreserved n⟩
  made := hmade
  inFlight := hflight
  closures := hclosures
  admitted := hadmitted

/-! ## Answers and removals -/

theorem Inv.still (h : Inv s) (hquiet : Quiet s t) (hsessions : t.sessions = s.sessions) (hstores : t.stores = s.stores)
    (happends : t.appends = s.appends) (hspawned : t.spawned = s.spawned) (hdropping : t.dropping = s.dropping)
    (htaken : ∀ taken ∈ t.taken, taken.Whole) : Inv t := by
  have hfind (cid : Cid) (id : Uuid) : t.find cid id = s.find cid id := by rw [State.find, State.find, hsessions]
  have hat (p : Place) (n : Nat) : t.At p n = s.At p n := by
    cases p with
    | task i =>
      show (∃ store, t.stores i = some store ∧ _) = _
      rw [hstores]
      rfl
    | entry cid id =>
      show (∃ upload, t.find cid id = some upload ∧ _) = _
      rw [hfind]
      rfl
    | dropping =>
      show (n ∈ t.dropping) = _
      rw [hdropping]
      rfl
  refine h.quiet hquiet (h.single.shrink fun p n hp => (hat p n).mp hp) ?_ ?_ (fun p n hp _ => ⟨p, (hat p n).mpr hp⟩) ?_ ?_
    htaken
  · rw [hspawned, hstores, happends]
    exact h.spawned
  · intro i append hi
    rw [happends] at hi
    obtain ⟨hlt, htask⟩ := h.appended i append hi
    exact ⟨hlt, fun j hj => htask j ((hat _ _).mp hj)⟩
  · rw [hstores]
    exact fun i store hi => .inl hi
  · intro cid id upload hupload
    rw [hfind] at hupload
    exact hquiet.entered (h.entered cid id upload hupload) fun i append hi => by rw [← happends]; exact hi

theorem Inv.answer (h : Inv s) (outcome : Except String Nat) : Inv (s.answer outcome) :=
  h.still (quiet_of rfl rfl rfl rfl rfl rfl rfl) rfl rfl rfl rfl rfl h.taken

theorem Inv.schedule (h : Inv s) (numbers : List Nat) : Inv (s.schedule numbers) :=
  h.still (quiet_of rfl rfl rfl rfl rfl rfl rfl) rfl rfl rfl rfl rfl h.taken

theorem Inv.removeDir (h : Inv s) (number : Nat) : Inv (s.removeDir number) := by
  unfold State.removeDir
  split_ifs
  · refine h.still ⟨fun n => ⟨fun file hfile => ?_, rfl, rfl⟩, rfl, rfl, rfl, rfl⟩ rfl rfl rfl rfl rfl h.taken
    have hfile' : update s.files number none n = some file := hfile
    rw [update_apply] at hfile'
    split_ifs at hfile'
    exact hfile'
  · exact h

/-! ## Uploads that leave their table -/

theorem Inv.left (h : Inv s) (sessions : Cid → Option StagedUploads) (numbers : List Nat)
    (hkept : ∀ cid id upload, (sessions cid).bind (fun uploads => uploads.get id) = some upload → s.find cid id = some upload)
    (hlost : ∀ n, n ∈ numbers ↔ ∃ cid id upload, s.find cid id = some upload ∧ upload.number = n ∧
      (sessions cid).bind (fun uploads => uploads.get id) = none) :
    Inv (State.abandon { s with sessions := sessions } numbers) := by
  have hquiet : Quiet s (State.abandon { s with sessions := sessions } numbers) := quiet_of rfl rfl rfl rfl rfl rfl rfl
  have hwas (n : Nat) (hn : n ∈ numbers) : ∃ cid id, s.At (.entry cid id) n ∧
      (sessions cid).bind (fun uploads => uploads.get id) = none := by
    obtain ⟨cid, id, upload, hfind, hnumber, hnone⟩ := (hlost n).mp hn
    exact ⟨cid, id, ⟨upload, hfind, hnumber⟩, hnone⟩
  refine h.quiet hquiet ?_ h.spawned h.appended ?_ (fun _ _ hi => .inl hi) ?_ h.taken
  · refine h.single.gather (d := .dropping) (· ∈ numbers) (fun n hn => ?_) fun p n hp => ?_
    · obtain ⟨cid, id, hat, -⟩ := hwas n hn
      exact ⟨_, hat⟩
    · cases p with
      | task i =>
        refine .inl ⟨hp, fun hn => ?_⟩
        obtain ⟨cid, id, hat, -⟩ := hwas n hn
        exact nomatch h.single.one (.task i) _ n hp hat
      | entry cid id =>
        obtain ⟨upload, hfind, hnumber⟩ := hp
        have hat : s.At (.entry cid id) n := ⟨upload, hkept cid id upload hfind, hnumber⟩
        refine .inl ⟨hat, fun hn => ?_⟩
        obtain ⟨cid', id', hat', hnone⟩ := hwas n hn
        obtain ⟨rfl, rfl⟩ := Place.entry.inj (h.single.one _ _ n hat hat')
        exact nomatch hnone.symm.trans hfind
      | dropping =>
        rcases List.mem_append.mp hp with hn | hn
        · exact .inr ⟨rfl, hn⟩
        · exact .inl ⟨hn, fun _ => rfl⟩
  · intro p n hp _
    cases p with
    | task i => exact ⟨.task i, hp⟩
    | entry cid id =>
      obtain ⟨upload, hfind, hnumber⟩ := hp
      rcases Option.eq_none_or_eq_some ((sessions cid).bind fun uploads => uploads.get id) with hnone | ⟨left, hleft⟩
      · exact ⟨.dropping, List.mem_append_left _ ((hlost n).mpr ⟨cid, id, upload, hfind, hnumber, hnone⟩)⟩
      · obtain rfl := Option.mem_unique (hkept cid id left hleft) hfind
        exact ⟨.entry cid id, left, hleft, hnumber⟩
    | dropping => exact ⟨.dropping, List.mem_append_right _ hp⟩
  · intro cid id upload hfind
    exact hquiet.entered (h.entered cid id upload (hkept cid id upload hfind)) fun _ _ hi => hi

theorem Inv.leftOf (h : Inv s) (hsession : s.sessions cid = some uploads)
    (next : Option StagedUploads) {numbers : List Nat}
    (hkept : ∀ id upload, next.bind (fun uploads => uploads.get id) = some upload → uploads.get id = some upload)
    (hlost : ∀ n, n ∈ numbers ↔ ∃ id upload, uploads.get id = some upload ∧ upload.number = n ∧
      next.bind (fun uploads => uploads.get id) = none) :
    Inv (State.abandon { s with sessions := update s.sessions cid next } numbers) := by
  have hfind (id : Uuid) : s.find cid id = uploads.get id := by rw [State.find, hsession, Option.bind_some]
  refine h.left _ _ (fun cid' id upload hupload => ?_) fun n => ?_
  · rw [update_apply] at hupload
    split_ifs at hupload with heq
    · rw [heq, hfind]
      exact hkept id upload hupload
    · exact hupload
  · rw [hlost]
    constructor
    · rintro ⟨id, upload, hget, hnumber, hnone⟩
      exact ⟨cid, id, upload, (hfind id).trans hget, hnumber, by rw [update_self]; exact hnone⟩
    · rintro ⟨cid', id, upload, hupload, hnumber, hnone⟩
      rw [update_apply] at hnone
      split_ifs at hnone with heq
      · rw [heq, hfind] at hupload
        exact ⟨id, upload, hupload, hnumber, hnone⟩
      · exact nomatch hnone.symm.trans hupload

theorem Inv.sessionEnds (h : Inv s) (cid : Cid) : Inv (s.sessionEnds cid) := by
  unfold State.sessionEnds
  cases hsession : s.sessions cid with
  | none => exact h
  | some uploads =>
    refine h.leftOf hsession none (fun id upload hnone => (nomatch hnone)) fun n => ?_
    simp only [List.mem_map, StagedUploads.mem_all]
    constructor
    · rintro ⟨upload, ⟨id, hget⟩, hnumber⟩
      exact ⟨id, upload, hget, hnumber, rfl⟩
    · rintro ⟨id, upload, hget, hnumber, -⟩
      exact ⟨upload, ⟨id, hget⟩, hnumber⟩

theorem Inv.prune (h : Inv s) (hsession : s.sessions cid = some uploads) (now : Instant) :
    Inv (s.prune cid uploads now) := by
  refine Inv.schedule (h.leftOf hsession _ (fun id upload hget => ?_) fun n => ?_) _
  · exact (StagedUploads.get_prune.mp hget).1
  · simp only [List.mem_map, StagedUploads.mem_pruned, Option.bind_some]
    constructor
    · rintro ⟨upload, ⟨id, hget, hstale⟩, hnumber⟩
      refine ⟨id, upload, hget, hnumber, Option.eq_none_iff_forall_ne_some.mpr fun left hleft => ?_⟩
      obtain ⟨hleft, hfresh⟩ := StagedUploads.get_prune.mp hleft
      obtain rfl := Option.mem_unique hleft hget
      exact hfresh hstale
    · rintro ⟨id, upload, hget, hnumber, hnone⟩
      refine ⟨upload, ⟨id, hget, ?_⟩, hnumber⟩
      by_contra hfresh
      exact nomatch hnone.symm.trans (StagedUploads.get_prune.mpr ⟨hget, hfresh⟩)

theorem Inv.removed (h : Inv s) (hsession : s.sessions cid = some uploads) (hget : uploads.get id = some upload) :
    Inv ((s.setUploads cid (uploads.remove id)).abandon [upload.number]) := by
  refine h.leftOf hsession _ (fun other found hfound => ?_) fun n => ?_
  · rw [Option.bind_some, StagedUploads.get_remove] at hfound
    split_ifs at hfound
    exact hfound
  · simp only [List.mem_singleton, Option.bind_some, StagedUploads.get_remove]
    constructor
    · rintro rfl
      exact ⟨id, upload, hget, rfl, if_pos rfl⟩
    · rintro ⟨other, found, hfound, hnumber, hnone⟩
      split_ifs at hnone with heq
      · rw [heq, hget] at hfound
        rw [← hnumber, Option.some.inj hfound]
      · exact nomatch hnone.symm.trans hfound

theorem Inv.take (h : Inv s) (hmeets : s.Meets (.take cid id)) : Inv (s.take cid id) := by
  unfold State.take
  cases hsession : s.sessions cid with
  | none => exact h.answer _
  | some uploads =>
    dsimp only
    cases htake : uploads.takeComplete id with
    | error reason => exact h.answer _
    | ok upload =>
      obtain ⟨hget, hidle, hfull⟩ := StagedUploads.takeComplete_ok htake
      have hfind : s.find cid id = some upload := by rw [State.find, hsession, Option.bind_some, hget]
      have hentered := h.entered cid id upload hfind
      have hrest := hentered.rest
      obtain ⟨file, hfile⟩ := Option.ne_none_iff_exists'.mp (hmeets upload hfind hidle hfull)
      have hwhole : Taken.Whole ⟨upload, s.files upload.number, s.chunks upload.number⟩ := by
        refine ⟨?_, hentered.order, hentered.length.trans (show upload.received = upload.total by omega)⟩
        show s.files upload.number = _
        rw [hfile, hentered.idle hidle file hfile]
      have hremoved := h.removed hsession hget
      refine hremoved.still (quiet_of rfl rfl rfl rfl rfl rfl rfl) rfl rfl rfl rfl rfl fun taken htaken => ?_
      rcases List.mem_cons.mp htaken with rfl | htaken
      · exact hwhole
      · exact h.taken taken htaken

/-! ## A chunk arrives -/

theorem State.find_setUploads (s : State) (cid cid' : Cid) (uploads : StagedUploads) (id : Uuid) :
    (s.setUploads cid uploads).find cid' id = if cid' = cid then uploads.get id else s.find cid' id := by
  show (update s.sessions cid (some uploads) cid').bind _ = _
  rw [update_apply]
  split_ifs <;> rfl

theorem Inv.connect (h : Inv s) (cid : Cid) : Inv (s.connect cid) := by
  unfold State.connect
  cases hsession : s.sessions cid with
  | some uploads => exact h
  | none =>
    dsimp only
    have hempty := h.left (update s.sessions cid (some .empty)) [] (fun cid' id upload hupload => ?_)
      fun n => ?_
    · exact hempty
    · rw [update_apply] at hupload
      split_ifs at hupload
      · exact nomatch hupload
      · exact hupload
    · refine iff_of_false (List.not_mem_nil) ?_
      rintro ⟨cid', id, upload, hfind, -, hnone⟩
      rw [update_apply] at hnone
      split_ifs at hnone with heq
      · rw [State.find, heq, hsession] at hfind
        exact nomatch hfind
      · exact nomatch hnone.symm.trans hfind

theorem Inv.spawnStore (h : Inv s) {purpose : Purpose} {data : List UInt8}
    (hsizes : ∀ phase, data.length ≤ (Store.mk purpose data phase).reserve ∧
      (Store.mk purpose data phase).reserve ≤ MAX_BROWSER_TRANSFER_TOTAL_BYTES) : Inv (s.spawnStore purpose data) := by
  have hquiet : Quiet s (s.spawnStore purpose data) := quiet_of rfl rfl rfl rfl rfl rfl rfl
  have hnew : s.stores s.spawned = none := (h.spawned s.spawned le_rfl).1
  have hstores (i : Nat) : (s.spawnStore purpose data).stores i = if i = s.spawned then some ⟨purpose, data, .begun⟩ else s.stores i :=
    update_apply ..
  have hat (p : Place) (n : Nat) (hp : (s.spawnStore purpose data).At p n) : s.At p n := by
    cases p with
    | task i =>
      obtain ⟨store, hi, hnumber⟩ := hp
      rw [hstores] at hi
      split_ifs at hi
      · rw [← Option.some.inj hi] at hnumber
        exact nomatch hnumber
      · exact ⟨store, hi, hnumber⟩
    | entry cid id => exact hp
    | dropping => exact hp
  refine h.quiet hquiet (h.single.shrink hat) (fun i hi => ⟨?_, ?_⟩)
    (fun i append hi => (h.appended i append hi).imp_right fun htask j hj => htask j (hat _ _ hj)) (fun p n hp _ => ⟨p, ?_⟩)
    (fun i store hi => ?_) (fun cid id upload hfind => hquiet.entered (h.entered cid id upload hfind) fun _ _ hi => hi) h.taken
  · have hi' : s.spawned + 1 ≤ i := hi
    rw [hstores, if_neg (by omega)]
    exact (h.spawned i (by omega)).1
  · have hi' : s.spawned + 1 ≤ i := hi
    exact (h.spawned i (by omega)).2
  · cases p with
    | task i =>
      obtain ⟨store, hi, hnumber⟩ := hp
      refine ⟨store, ?_, hnumber⟩
      rw [hstores, if_neg]
      · exact hi
      · rintro rfl
        exact nomatch hnew.symm.trans hi
    | entry cid id => exact hp
    | dropping => exact hp
  · rw [hstores] at hi
    split_ifs at hi
    · rw [← Option.some.inj hi]
      exact .inr ⟨hsizes _, trivial⟩
    · exact .inl hi

theorem Inv.spawnAppend (h : Inv s) (hsession : s.sessions cid = some uploads) (hget : uploads.get id = some upload)
    (hidle : upload.writing = false) {offset : Nat} {data : List UInt8} (hoffset : upload.received = offset)
    (hfits : offset + data.length ≤ upload.total) :
    Inv ((s.setUploads cid (uploads.set id { upload with writing := true })).spawnAppend cid id upload.number offset data) := by
  have hquiet : Quiet s ((s.setUploads cid (uploads.set id { upload with writing := true })).spawnAppend cid id upload.number
    offset data) := quiet_of rfl rfl rfl rfl rfl rfl rfl
  have hfind : s.find cid id = some upload := by rw [State.find, hsession, Option.bind_some, hget]
  have hentered := h.entered cid id upload hfind
  have hfound (cid' : Cid) (id' : Uuid) :
      ((s.setUploads cid (uploads.set id { upload with writing := true })).spawnAppend cid id upload.number offset data).find
        cid' id' = if cid' = cid ∧ id' = id then some { upload with writing := true } else s.find cid' id' := by
    refine (State.find_setUploads s cid cid' _ id').trans ?_
    rw [StagedUploads.get_set]
    by_cases hcid : cid' = cid
    · rw [hcid, if_pos rfl, State.find, hsession, Option.bind_some]
      simp only [true_and]
    · rw [if_neg hcid, if_neg fun heq => hcid heq.1]
  have happends (i : Nat) :
      ((s.setUploads cid (uploads.set id { upload with writing := true })).spawnAppend cid id upload.number offset data).appends i =
        if i = s.spawned then some ⟨cid, id, upload.number, offset, data, .opening⟩ else s.appends i := update_apply ..
  have hnone (i : Nat) (append : Append) (hi : s.appends i = some append) : append.number ≠ upload.number := by
    intro hnumber
    exact nomatch hidle.symm.trans (hentered.pending i append hi hnumber).1
  refine h.quiet hquiet (h.single.shrink fun p n hp => ?_) (fun i hi => ⟨?_, ?_⟩) (fun i append hi => ?_) (fun p n hp _ => ⟨p, ?_⟩)
    (fun i store hi => .inl hi) (fun cid' id' found hfind' => ?_) h.taken
  · cases p with
    | task i => exact hp
    | entry cid' id' =>
      obtain ⟨found, hfind', hnumber⟩ := hp
      rw [hfound] at hfind'
      split_ifs at hfind' with heq
      · rw [heq.1, heq.2]
        refine ⟨upload, hfind, ?_⟩
        rw [← hnumber, ← Option.some.inj hfind']
      · exact ⟨found, hfind', hnumber⟩
    | dropping => exact hp
  · have hi' : s.spawned + 1 ≤ i := hi
    exact (h.spawned i (by omega)).1
  · have hi' : s.spawned + 1 ≤ i := hi
    rw [happends, if_neg (by omega)]
    exact (h.spawned i (by omega)).2
  · rw [happends] at hi
    split_ifs at hi
    · rw [← Option.some.inj hi]
      exact ⟨h.entry_lt hfind, fun j hj => nomatch h.single.one (.task j) (.entry cid id) upload.number hj ⟨upload, hfind, rfl⟩⟩
    · exact h.appended i append hi
  · cases p with
    | task i => exact hp
    | entry cid' id' =>
      obtain ⟨found, hfind', hnumber⟩ := hp
      by_cases heq : cid' = cid ∧ id' = id
      · refine ⟨{ upload with writing := true }, by rw [hfound, if_pos heq], ?_⟩
        rw [heq.1, heq.2, hfind] at hfind'
        rw [← hnumber, ← Option.some.inj hfind']
      · exact ⟨found, by rw [hfound, if_neg heq]; exact hfind', hnumber⟩
    | dropping => exact hp
  · rw [hfound] at hfind'
    split_ifs at hfind' with heq
    · rw [← Option.some.inj hfind']
      refine ⟨hentered.rest, hentered.length, hentered.order, nofun, ?_, ?_⟩
      · intro i j a b hi hj ha hb
        rw [happends] at hi hj
        split_ifs at hi hj with hi' hj' hj'
        · rw [hi', hj']
        · exact absurd hb (hnone j b hj)
        · exact absurd ha (hnone i a hi)
        · exact absurd ha (hnone i a hi)
      · intro i append hi hnumber
        rw [happends] at hi
        split_ifs at hi
        · rw [← Option.some.inj hi]
          exact ⟨rfl, hoffset.symm, hfits, fun file hfile => hentered.idle hidle file hfile⟩
        · exact absurd hnumber (hnone i append hi)
    · refine (h.entered cid' id' found hfind').agrees (hquiet.agrees _) fun i append hi hnumber => ?_
      rw [happends] at hi
      split_ifs at hi
      · rw [← Option.some.inj hi] at hnumber
        have hsame := h.single.one (.entry cid id) (.entry cid' id') upload.number ⟨upload, hfind, rfl⟩ ⟨found, hfind', hnumber.symm⟩
        obtain ⟨rfl, rfl⟩ := Place.entry.inj hsame
        exact absurd ⟨rfl, rfl⟩ heq
      · exact hi

theorem Inv.planned (h : Inv s) (hsession : s.sessions cid = some uploads) (id : Uuid)
    (total offset : Nat) (data : List UInt8) : Inv (s.planned cid uploads id total offset data) := by
  unfold State.planned
  cases hplan : planChunk (uploads.get id) offset data.length total with
  | Refuse reason => exact h.answer _
  | Start =>
    obtain ⟨hmax, -, -⟩ := planChunk_bounds (fun reason => by rw [hplan]; nofun)
    exact h.spawnStore fun phase => ⟨(planChunk_Start hplan).2.2, hmax⟩
  | Append =>
    obtain ⟨upload, hget, htotal, hidle, hoffset, hfits⟩ := planChunk_Append hplan
    rw [hget]
    exact h.spawnAppend hsession hget hidle hoffset (by rw [htotal]; exact hfits)

theorem Inv.stageChunk (h : Inv s) (cid : Cid) (id : Uuid) (total offset : Nat) (data : List UInt8) (now : Instant) :
    Inv (s.stageChunk cid id total offset data now) := by
  unfold State.stageChunk
  cases hsession : s.sessions cid with
  | none => exact h.answer _
  | some uploads => exact (h.prune hsession now).planned (update_self ..) id total offset data

theorem Inv.sendBytes (h : Inv s) (cid : Cid) (data : List UInt8) : Inv (s.sendBytes cid data) := by
  unfold State.sendBytes
  cases s.sessions cid with
  | none => exact h.answer _
  | some uploads =>
    dsimp only
    split_ifs with hlarge
    · exact h.answer _
    · refine h.spawnStore fun phase => ⟨le_rfl, ?_⟩
      show data.length ≤ MAX_BROWSER_TRANSFER_TOTAL_BYTES
      unfold MAX_BYTE_CONTENTS_BYTES at hlarge
      unfold MAX_BROWSER_TRANSFER_TOTAL_BYTES MAX_STAGED_UPLOAD_BYTES
      omega

end CitadelAgent.Transfers.Staging
