import CitadelAgent.Transfers.StagingWrites

/-!
# What staging keeps: bytes that land

* `State.lower`, `Inv.lower` : what is no longer reserved is on disk, or given up;
* `Inv.finish`, `settle` : the first write has ended; `Inv.openFile`, `appendBytes`, `land` : a later chunk's.
-/

namespace CitadelAgent.Transfers.Staging
open Function Places

variable {s t : State}

/-! ## Less is reserved -/

/-- In no table, and with no first write that counts on it. -/
def State.Free (s : State) (n : Nat) : Prop :=
  (∀ cid id upload, s.find cid id = some upload → upload.number ≠ n) ∧
    ∀ i store, s.stores i = some store → store.phase.number = some n → ∃ reason, store.phase = .failing n reason

/-- Some bytes are no longer reserved for the payload, which has been given `chunks`. -/
def State.lower (s : State) (n bytes : Nat) (chunks : List Chunk) : State :=
  { s with inFlight := fetchSub s.inFlight bytes, reserved := update s.reserved n (s.reserved n - bytes),
           chunks := update s.chunks n chunks }

variable {n i : Nat}

theorem Inv.lower (h : Inv s) {bytes : Nat} (chunks : List Chunk) (hn : n < s.made) (hfree : s.Free n)
    (hbytes : bytes ≤ s.reserved n) (hchunks : (contents chunks).length ≤ (contents (s.chunks n)).length + bytes)
    (hkept : ∀ file, s.files n = some file → contents chunks <+: file) : Inv (s.lower n bytes chunks) := by
  have hreserved (m : Nat) : (s.lower n bytes chunks).reserved m = if m = n then s.reserved n - bytes else s.reserved m :=
    update_apply ..
  have hgiven (m : Nat) : (s.lower n bytes chunks).chunks m = if m = n then chunks else s.chunks m := update_apply ..
  have hle (m : Nat) : (s.lower n bytes chunks).reserved m ≤ s.reserved m := by
    rw [hreserved]
    split_ifs with heq
    · rw [heq]
      exact Nat.sub_le _ _
    · exact le_rfl
  have hagrees (m : Nat) (hm : m ≠ n) : Agrees s (s.lower n bytes chunks) m :=
    ⟨fun _ hf => hf, by rw [hgiven, if_neg hm], by rw [hreserved, if_neg hm]⟩
  have hsinks : Sinks s (s.lower n bytes chunks) := by
    refine ⟨le_rfl, fun m _ => hle m, fun m _ => ?_⟩
    by_cases hm : m = n
    · rw [hm]
      unfold State.weight
      rw [hreserved, if_pos rfl]
      have hpayload : (s.lower n bytes chunks).payload n = if (s.files n).isSome then (contents chunks).length else 0 := by
        unfold State.payload
        rw [hgiven, if_pos rfl]
        rfl
      rw [hpayload]
      unfold State.payload
      split_ifs <;> omega
    · exact Nat.add_le_add (hagrees m hm).payload (hle m)
  have hat (p : Place) (m : Nat) : (s.lower n bytes chunks).At p m ↔ s.At p m := by cases p <;> rfl
  refine { h with
    single := h.single.shrink fun p m hp => (hat p m).mp hp
    unmade := fun m hm => ?_
    held := fun m hm => ?_
    kept := fun m file hfile => ?_
    stored := fun i store hi => ?_
    entered := fun cid id upload hfind => ?_
    bounded := fun m => (hle m).trans (h.bounded m)
    closures := fun m hm => h.closures m fun hzero => hm (Nat.le_zero.mp ((hle m).trans hzero.le))
    flight := h.flight_sub hbytes
    cap := fun m hm => ⟨(h.cap m hm).1, hsinks.cap (h.cap m hm).1 (h.cap m hm).2⟩ }
  · have hm' : s.made ≤ m := hm
    rw [hgiven, hreserved, if_neg (by omega), if_neg (by omega)]
    exact h.unmade m hm
  · obtain ⟨p, hp⟩ := h.held m fun hzero => hm (Nat.le_zero.mp ((hle m).trans hzero.le))
    exact ⟨p, (hat p m).mpr hp⟩
  · rw [hgiven]
    split_ifs with heq
    · rw [heq] at hfile
      exact hkept file hfile
    · exact h.kept m file hfile
  · by_cases hm : store.phase.number = some n
    · obtain ⟨reason, hphase⟩ := hfree.2 i store hi hm
      obtain ⟨purpose, data, phase⟩ := store
      obtain rfl : phase = .failing n reason := hphase
      exact trivial
    · refine (h.stored i store hi).agrees (fun m hnumber => ⟨h.number_lt hi hnumber, hagrees m ?_⟩) hsinks fun m hm => hm
      rintro rfl
      exact hm hnumber
  · exact (h.entered cid id upload hfind).agrees (hagrees _ (hfree.1 cid id upload hfind)) fun _ _ hj _ => hj

theorem State.landed_eq {bytes : Nat} (h : bytes ≤ s.reserved n) : s.landed n bytes = s.lower n bytes (s.chunks n) := by
  unfold State.landed State.lower
  rw [Nat.min_eq_left h, update_eq_self]

theorem State.release_eq (s : State) (n : Nat) : s.release n = s.lower n (s.reserved n) (s.chunks n) := by
  unfold State.release State.lower
  rw [Nat.sub_self, update_eq_self]

theorem State.give_lower (s : State) (n bytes : Nat) (chunk : Chunk) :
    (s.lower n bytes (s.chunks n)).give n chunk = s.lower n bytes (s.chunks n ++ [chunk]) := by
  unfold State.lower State.give
  rw [update_eq_self]

theorem Inv.release (h : Inv s) (hn : n < s.made) (hfree : s.Free n) : Inv (s.release n) := by
  rw [State.release_eq]
  exact h.lower _ hn hfree le_rfl (Nat.le_add_right _ _) (h.kept n)

theorem Inv.free_task (h : Inv s) {purpose : Purpose} {data : List UInt8} {reason : String}
    (hi : s.stores i = some ⟨purpose, data, .failing n reason⟩) : s.Free n := by
  have htask : s.At (.task i) n := ⟨_, hi, rfl⟩
  constructor
  · rintro cid id upload hfind hnumber
    exact nomatch h.single.one (.task i) (.entry cid id) n htask ⟨upload, hfind, hnumber⟩
  · intro j store hj hnumber
    obtain rfl := Place.task.inj (h.single.one (.task j) (.task i) n ⟨store, hj, hnumber⟩ htask)
    exact ⟨reason, by rw [← Option.mem_unique hi hj]⟩

theorem Inv.free_dropping (h : Inv s) (hn : n ∈ s.dropping) : s.Free n := by
  constructor
  · rintro cid id upload hfind hnumber
    exact nomatch h.single.one .dropping (.entry cid id) n hn ⟨upload, hfind, hnumber⟩
  · intro j store hj hnumber
    exact nomatch h.single.one .dropping (.task j) n hn ⟨store, hj, hnumber⟩

theorem Inv.drop (h : Inv s) (n : Nat) : Inv (s.drop n) := by
  unfold State.drop
  split_ifs with hn
  case neg => exact h
  have hreleased := h.release (h.single.fresh .dropping n hn).1 (h.free_dropping hn)
  have hquiet : Quiet (s.release n) (State.release { s with dropping := s.dropping.filter (· ≠ n) } n) :=
    quiet_of rfl rfl rfl rfl rfl rfl rfl
  refine hreleased.quiet hquiet (hreleased.single.shrink fun p m hp => ?_) hreleased.spawned hreleased.appended
    (fun p m hp hm => ⟨p, ?_⟩) (fun _ _ hi => .inl hi)
    (fun cid id upload hfind => hquiet.entered (hreleased.entered cid id upload hfind) fun _ _ hi => hi) h.taken
  · cases p with
    | task i => exact hp
    | entry cid id => exact hp
    | dropping => exact (List.mem_filter.mp hp).1
  · cases p with
    | task i => exact hp
    | entry cid id => exact hp
    | dropping =>
      refine List.mem_filter.mpr ⟨hp, decide_eq_true ?_⟩
      rintro rfl
      exact hm (update_self ..)

/-! ## The end of the first write -/

theorem Inv.closureEnds (h : Inv s) (hn : s.reserved n = 0 ∨ n ∈ s.admitted) :
    Inv { s with closures := s.closures.erase n } := by
  have hagrees (m : Nat) : Agrees s { s with closures := s.closures.erase n } m := ⟨fun _ hf => hf, rfl, rfl⟩
  have hat (p : Place) (m : Nat) : State.At { s with closures := s.closures.erase n } p m ↔ s.At p m := by cases p <;> rfl
  exact { h with
    single := h.single.shrink fun p m hp => (hat p m).mp hp
    held := fun m hm => (h.held m hm).imp fun p hp => (hat p m).mpr hp
    stored := fun i store hi => (h.stored i store hi).agrees (fun m hnumber => ⟨h.number_lt hi hnumber, hagrees m⟩)
      (Agrees.sinks hagrees le_rfl) fun m hm => hm
    entered := fun cid id upload hfind => (h.entered cid id upload hfind).agrees (hagrees _) fun _ _ hj _ => hj
    threads := List.length_erase_le.trans h.threads
    closures := fun m hm => by
      by_cases heq : m = n
      · exact .inr (heq ▸ hn.resolve_left fun hzero => hm (heq ▸ hzero))
      · exact (h.closures m hm).imp_left (List.mem_erase_of_ne heq).mpr }

theorem Inv.written (h : Inv s) {purpose : Purpose} {data : List UInt8} (hi : s.stores i = some ⟨purpose, data, .writing n []⟩) :
    Inv (((s.setStore i (some ⟨purpose, data, .closed n⟩)).lower n data.length [⟨0, data⟩])) := by
  obtain ⟨hfresh, hadmitted, hfile⟩ := h.stored i _ hi
  obtain ⟨hlen, -⟩ := h.sizes i _ hi
  have hreserved : s.reserved n = (Store.mk purpose data (.closed n)).reserve := hfresh.reserved
  have hlen' : data.length ≤ s.reserved n := by
    rw [hreserved]
    exact hlen
  have hn := h.number_lt hi rfl
  have hcontents : contents [⟨0, data⟩] = data := contents_singleton _
  have hbefore := h.phase (.failing n "") hi rfl trivial
  have hlower := hbefore.lower [⟨0, data⟩] hn (hbefore.free_task (update_self ..)) hlen'
    (by rw [hcontents]; exact Nat.le_add_left _ _) fun file hf => by
      have hdata : data = file ++ [] := hfile file hf
      rw [hcontents, hdata, List.append_nil]
  have hphase := hlower.phase (.closed n) (update_self ..) rfl ⟨?_, update_self .., fun file hf => ?_⟩
  · rw [← State.setStore_idem s i (some ⟨purpose, data, .failing n ""⟩)]
    exact hphase
  · show update s.reserved n (s.reserved n - data.length) n + data.length = _
    rw [update_self, Nat.sub_add_cancel hlen', hreserved]
  · have hdata : data = file ++ [] := hfile file hf
    rw [hdata, List.append_nil]

theorem Inv.finish (h : Inv s) (i : Nat) : Inv (s.finish i) := by
  unfold State.finish
  split
  case h_3 => exact h
  case h_1 purpose data number hi =>
    obtain ⟨hfresh, hadmitted, -⟩ := h.stored i _ hi
    obtain ⟨hlen, -⟩ := h.sizes i _ hi
    have hended := (h.written hi).closureEnds (.inr hadmitted)
    generalize ht : ({ s.setStore i (some ⟨purpose, data, .closed number⟩) with closures := s.closures.erase number } : State) = t
    have hchunks : t.chunks number = [] := by
      rw [← ht]
      exact hfresh.chunks
    have hlower : Inv (t.lower number data.length (t.chunks number ++ [⟨0, data⟩])) := by
      rw [hchunks, ← ht]
      exact hended
    have hreserved : t.reserved number = (Store.mk purpose data (.closed number)).reserve := by
      rw [← ht]
      exact hfresh.reserved
    cases purpose with
    | stage cid id total =>
      show Inv ((t.landed number data.length).give number ⟨0, data⟩)
      have hle : data.length ≤ t.reserved number := by
        rw [hreserved]
        exact hlen
      rw [State.landed_eq hle, State.give_lower]
      exact hlower
    | bytes =>
      show Inv ((t.release number).give number ⟨0, data⟩)
      rw [State.release_eq, State.give_lower, hreserved]
      exact hlower
  case h_2 purpose data number reason hi =>
    have hreleased := h.release (h.number_lt hi rfl) (h.free_task hi)
    have hzero : (s.release number).reserved number = 0 := update_self ..
    have hrefused := hreleased.phase (.refused (some number) reason) hi rfl
      fun n hn => (Option.some.inj hn) ▸ hzero
    exact hrefused.closureEnds (.inl hzero)

/-! ## After the first write -/

theorem Inv.storeEnds (h : Inv s) {store : Store} (hi : s.stores i = some store) (numbers : List Nat)
    (hnumbers : ∀ n ∈ numbers, store.phase.number = some n)
    (hreserved : ∀ n, store.phase.number = some n → s.reserved n ≠ 0 → n ∈ numbers) :
    Inv ((s.setStore i none).abandon numbers) := by
  have hquiet : Quiet s ((s.setStore i none).abandon numbers) := quiet_of rfl rfl rfl rfl rfl rfl rfl
  have hstores (j : Nat) : ((s.setStore i none).abandon numbers).stores j = if j = i then none else s.stores j := update_apply ..
  have htask (j n : Nat) (hj : ((s.setStore i none).abandon numbers).At (.task j) n) : s.At (.task j) n ∧ j ≠ i := by
    obtain ⟨found, hj, hnumber⟩ := hj
    rw [hstores] at hj
    split_ifs at hj with heq
    exact ⟨⟨found, hj, hnumber⟩, heq⟩
  refine h.quiet hquiet ?_ (fun j hj => ⟨?_, (h.spawned j hj).2⟩)
    (fun j append hj => (h.appended j append hj).imp_right fun hno k hk => hno k (htask k _ hk).1) ?_ ?_
    (fun cid id upload hfind => hquiet.entered (h.entered cid id upload hfind) fun _ _ hj => hj) h.taken
  · refine h.single.gather (d := .dropping) (· ∈ numbers) (fun n hn => ⟨.task i, store, hi, hnumbers n hn⟩)
      fun p n hp => ?_
    cases p with
    | task j =>
      obtain ⟨hat, hne⟩ := htask j n hp
      refine .inl ⟨hat, fun hn => ?_⟩
      exact absurd (Place.task.inj (h.single.one (.task j) (.task i) n hat ⟨store, hi, hnumbers n hn⟩)) hne
    | entry cid id =>
      exact .inl ⟨hp, fun hn => nomatch h.single.one (.entry cid id) (.task i) n hp ⟨store, hi, hnumbers n hn⟩⟩
    | dropping =>
      rcases List.mem_append.mp hp with hn | hn
      · exact .inr ⟨rfl, hn⟩
      · exact .inl ⟨hn, fun _ => rfl⟩
  · rw [hstores]
    split_ifs
    · rfl
    · exact (h.spawned j hj).1
  · intro p n hp hn
    cases p with
    | task j =>
      obtain ⟨found, hj, hnumber⟩ := hp
      by_cases heq : j = i
      · rw [heq] at hj
        obtain rfl := Option.mem_unique hi hj
        exact ⟨.dropping, List.mem_append_left _ (hreserved n hnumber hn)⟩
      · exact ⟨.task j, found, by rw [hstores, if_neg heq]; exact hj, hnumber⟩
    | entry cid id => exact ⟨.entry cid id, hp⟩
    | dropping => exact ⟨.dropping, List.mem_append_right _ hp⟩
  · intro j found hj
    rw [hstores] at hj
    split_ifs at hj
    exact .inl hj

theorem Inv.enter (h : Inv s) {cid : Cid} {uploads : StagedUploads} (hsession : s.sessions cid = some uploads) {id : Uuid}
    (next : StagedUploads) (upload : StagedUpload) (hnew : uploads.get id = none)
    (hnext : ∀ other, next.get other = if other = id then some upload else uploads.get other) {rest : List Nat}
    (hdropping : s.dropping = upload.number :: rest) (hrest : upload.number ∉ rest) (hentered : Entered s upload) :
    Inv { s.setUploads cid next with dropping := rest } := by
  have hquiet : Quiet s { s.setUploads cid next with dropping := rest } := quiet_of rfl rfl rfl rfl rfl rfl rfl
  have hwas : upload.number ∈ s.dropping := by
    rw [hdropping]
    exact List.mem_cons_self
  have hfound (cid' : Cid) (id' : Uuid) : State.find { s.setUploads cid next with dropping := rest } cid' id' =
      if cid' = cid ∧ id' = id then some upload else s.find cid' id' := by
    refine (State.find_setUploads s cid cid' next id').trans ?_
    by_cases hcid : cid' = cid
    · rw [hcid, if_pos rfl, hnext, State.find, hsession, Option.bind_some]
      simp only [true_and]
    · rw [if_neg hcid, if_neg fun heq => hcid heq.1]
  refine h.quiet hquiet ?_ h.spawned h.appended ?_ (fun _ _ hj => .inl hj) ?_ h.taken
  · refine h.single.gather (d := .entry cid id) (· = upload.number) (fun n hn => ⟨.dropping, hn ▸ hwas⟩) fun p n hp => ?_
    cases p with
    | task j =>
      refine .inl ⟨hp, fun hn => ?_⟩
      cases h.single.one (.task j) .dropping n hp (hn ▸ hwas)
    | entry cid' id' =>
      obtain ⟨found, hfind, hnumber⟩ := hp
      rw [hfound] at hfind
      split_ifs at hfind with heq
      · rw [heq.1, heq.2, ← hnumber, Option.some.inj hfind]
        exact .inr ⟨rfl, rfl⟩
      · have hat : s.At (.entry cid' id') n := ⟨found, hfind, hnumber⟩
        refine .inl ⟨hat, fun hn => ?_⟩
        cases h.single.one (.entry cid' id') .dropping n hat (hn ▸ hwas)
    | dropping =>
      have hn : n ∈ rest := hp
      refine .inl ⟨?_, fun heq => absurd (heq ▸ hn) hrest⟩
      show n ∈ s.dropping
      rw [hdropping]
      exact List.mem_cons_of_mem _ hn
  · intro p n hp _
    cases p with
    | task j => exact ⟨.task j, hp⟩
    | entry cid' id' =>
      obtain ⟨found, hfind, hnumber⟩ := hp
      refine ⟨.entry cid' id', found, ?_, hnumber⟩
      rw [hfound, if_neg]
      · exact hfind
      · rintro ⟨rfl, rfl⟩
        rw [State.find, hsession, Option.bind_some, hnew] at hfind
        cases hfind
    | dropping =>
      have hn : n ∈ s.dropping := hp
      rw [hdropping] at hn
      rcases List.mem_cons.mp hn with rfl | hn
      · exact ⟨.entry cid id, upload, by rw [hfound, if_pos ⟨rfl, rfl⟩], rfl⟩
      · exact ⟨.dropping, hn⟩
  · intro cid' id' found hfind
    rw [hfound] at hfind
    split_ifs at hfind
    · rw [← Option.some.inj hfind]
      exact hquiet.entered hentered fun _ _ hj => hj
    · exact hquiet.entered (h.entered cid' id' found hfind) fun _ _ hj => hj

theorem Inv.settle (h : Inv s) (i : Nat) (now : Instant) : Inv (s.settle i now) := by
  unfold State.settle
  split
  case h_4 => exact h
  case h_2 data number hi =>
    obtain ⟨hreserved, -, -⟩ := h.stored i _ hi
    have hends := h.storeEnds hi [] (fun n hn => (List.not_mem_nil hn).elim) fun n hn hne => ?_
    · exact hends.schedule [number]
    · obtain rfl := Option.some.inj hn
      have hsum : s.reserved number + data.length = data.length := hreserved
      omega
  case h_3 purpose data number reason hi =>
    have hzero := h.stored i _ hi
    have hends := h.storeEnds hi [] (fun n hn => (List.not_mem_nil hn).elim) fun n hn hne => absurd (hzero n hn) hne
    exact (hends.schedule number.toList).answer _
  case h_1 cid id total data number hi =>
    obtain ⟨hreserved, hchunks, hfile⟩ := h.stored i _ hi
    have hends := h.storeEnds hi [number] (fun n hn => by rw [List.mem_singleton.mp hn]; rfl)
      fun n hn _ => List.mem_singleton.mpr (Option.some.inj hn).symm
    have hrefused := hends.schedule [number]
    dsimp only
    split
    case h_1 => exact hrefused.answer _
    case h_2 uploads hsession =>
      rcases uploads.insert_cases id ⟨number, total, data.length, false, now⟩ with hinsert | ⟨hnew, hinsert⟩
      · rw [hinsert]
        exact hrefused.answer _
      · rw [hinsert]
        have hcontents : contents (s.chunks number) = data := by
          rw [hchunks]
          exact contents_singleton _
        have hnot : number ∉ s.dropping := by
          intro hn
          exact nomatch h.single.one .dropping (.task i) number hn ⟨_, hi, rfl⟩
        have htask (j : Nat) (append : Append) (hj : s.appends j = some append) : append.number ≠ number := by
          rintro rfl
          exact (h.appended j append hj).2 i ⟨_, hi, rfl⟩
        have hentered : Entered (((s.setStore i none).abandon [number]).schedule [number])
            ⟨number, total, data.length, false, now⟩ := by
          refine ⟨?_, ?_, ?_, fun _ file hf => ?_, fun j k a b hj _ ha _ => absurd ha (htask j a hj),
            fun j append hj hnumber => absurd hnumber (htask j append hj)⟩
          · rw [Nat.add_comm]
            exact hreserved
          · show (contents (s.chunks number)).length = data.length
            rw [hcontents]
          · show Contiguous 0 (s.chunks number)
            rw [hchunks]
            exact ⟨rfl, trivial⟩
          · show file = contents (s.chunks number)
            rw [hcontents]
            exact hfile file hf
        have henter := hrefused.enter hsession (uploads.set id ⟨number, total, data.length, false, now⟩)
          ⟨number, total, data.length, false, now⟩ hnew (fun other => StagedUploads.get_set ..) rfl hnot hentered
        exact henter.answer _

/-! ## A later chunk -/

theorem Inv.appendPhase (h : Inv s) {append : Append} (hi : s.appends i = some append) {phase : AppendPhase}
    (hpending : Pending s append → Pending s { append with phase := phase }) :
    Inv (s.setAppend i (some { append with phase := phase })) := by
  have hquiet : Quiet s (s.setAppend i (some { append with phase := phase })) := quiet_of rfl rfl rfl rfl rfl rfl rfl
  have happends (j : Nat) (found : Append) (hj : (s.setAppend i (some { append with phase := phase })).appends j = some found) :
      ∃ before, s.appends j = some before ∧ found = { before with phase := found.phase } ∧
        (Pending s before → Pending s found) := by
    have hj' : update s.appends i _ j = some found := hj
    rw [update_apply] at hj'
    split_ifs at hj' with heq
    · rw [heq, ← Option.some.inj hj']
      exact ⟨append, hi, rfl, hpending⟩
    · exact ⟨found, hj', rfl, id⟩
  refine h.quiet hquiet (h.single.shrink fun p _ hp => by cases p <;> exact hp) (fun j hj => ⟨(h.spawned j hj).1, ?_⟩)
    (fun j found hj => ?_) (fun p n hp _ => ⟨p, by cases p <;> exact hp⟩) (fun _ _ hj => .inl hj)
    (fun cid id upload hfind => ?_) h.taken
  · show update s.appends i _ j = none
    rw [update_of_ne]
    · exact (h.spawned j hj).2
    · rintro rfl
      exact nomatch (h.spawned j hj).2.symm.trans hi
  · obtain ⟨before, hbefore, heq, -⟩ := happends j found hj
    rw [heq]
    exact h.appended j before hbefore
  · have hentered := h.entered cid id upload hfind
    refine ⟨hentered.rest, hentered.length, hentered.order, hentered.idle, fun j k a b hj hk ha hb => ?_,
      fun j found hj hnumber => ?_⟩
    · obtain ⟨a', ha', heqa, -⟩ := happends j a hj
      obtain ⟨b', hb', heqb, -⟩ := happends k b hk
      rw [heqa] at ha
      rw [heqb] at hb
      exact hentered.one j k a' b' ha' hb' ha hb
    · obtain ⟨before, hbefore, heq, hstill⟩ := happends j found hj
      have hnumber' : before.number = upload.number := by
        rw [heq] at hnumber
        exact hnumber
      obtain ⟨hwriting, hoffset, hfits, hbeforePending⟩ := hentered.pending j before hbefore hnumber'
      have hfound := (hstill hbeforePending).agrees (hquiet.agrees _)
      rw [heq] at hfound ⊢
      exact ⟨hwriting, hoffset, hfits, hfound⟩

theorem Inv.openFile (h : Inv s) (i : Nat) : Inv (s.openFile i) := by
  unfold State.openFile
  split
  case h_2 => exact h
  case h_1 append hi =>
    split_ifs with hopening
    · refine h.appendPhase hi fun hpending file hfile => ⟨[], rfl, ?_⟩
      have hfile' := hpending file hfile
      rw [hopening.1] at hfile'
      rw [List.append_nil]
      exact hfile'
    · exact h

theorem Inv.appendFails (h : Inv s) (i : Nat) (reason : String) : Inv (s.appendFails i reason) := by
  unfold State.appendFails
  split
  case h_2 => exact h
  case h_1 append hi =>
    split
    case h_1 => exact h.appendPhase hi fun _ _ _ => trivial
    case h_2 => exact h.appendPhase hi fun _ _ _ => trivial
    case h_3 => exact h
    case h_4 => exact h

theorem Inv.appendBytes (h : Inv s) (i count : Nat) : Inv (s.appendBytes i count) := by
  unfold State.appendBytes
  split
  case h_2 => exact h
  case h_1 append hi =>
    split
    case h_2 => exact h
    case h_3 => exact h
    case h_1 rest hphase =>
      obtain ⟨hlt, htask⟩ := h.appended i append hi
      generalize hnext : ({ append with phase := .writing (rest.drop count) } : Append) = next
      have hnumber : next.number = append.number := by rw [← hnext]
      generalize ht : (s.setAppend i (some next)).setFile append.number ((s.files append.number).map (· ++ rest.take count)) = t
      have hfiles (m : Nat) : t.files m =
          if m = append.number then (s.files append.number).map (· ++ rest.take count) else s.files m := by
        rw [← ht]
        exact update_apply ..
      have hchunks : t.chunks = s.chunks := by rw [← ht]; rfl
      have hreserved : t.reserved = s.reserved := by rw [← ht]; rfl
      have happends (j : Nat) : t.appends j = if j = i then some next else s.appends j := by
        rw [← ht]
        exact update_apply ..
      have hpayload (m : Nat) : t.payload m = s.payload m := by
        unfold State.payload
        rw [hchunks, hfiles]
        by_cases hm : m = append.number
        · rw [if_pos hm, hm, Option.isSome_map]
        · rw [if_neg hm]
      have hagrees (m : Nat) (hm : m ≠ append.number) : Agrees s t m := by
        refine ⟨fun file hfile => ?_, by rw [hchunks], by rw [hreserved]⟩
        rw [hfiles, if_neg hm] at hfile
        exact hfile
      have hmade : t.made = s.made := by rw [← ht]; rfl
      have hsinks : Sinks s t := by
        refine ⟨hmade.ge, fun m _ => by rw [hreserved], fun m _ => ?_⟩
        unfold State.weight
        rw [hpayload, hreserved]
      have hat (p : Place) (m : Nat) : t.At p m ↔ s.At p m := by
        rw [← ht]
        cases p <;> rfl
      have hfind (cid : Cid) (id : Uuid) : t.find cid id = s.find cid id := by rw [← ht]; rfl
      constructor
      · rw [hmade]
        exact h.single.shrink fun p m hp => (hat p m).mp hp
      · intro j hj
        have hj' : s.spawned ≤ j := by rw [← ht] at hj; exact hj
        refine ⟨by rw [← ht]; exact (h.spawned j hj').1, ?_⟩
        rw [happends, if_neg]
        · exact (h.spawned j hj').2
        · rintro rfl
          exact nomatch (h.spawned j hj').2.symm.trans hi
      · intro j found hj
        rw [happends] at hj
        rw [hmade]
        split_ifs at hj
        · rw [← Option.some.inj hj, hnumber]
          exact ⟨hlt, fun k hk => htask k ((hat _ _).mp hk)⟩
        · exact (h.appended j found hj).imp_right fun hno k hk => hno k ((hat _ _).mp hk)
      · rw [hmade, hchunks, hreserved]
        exact h.unmade
      · intro m hm
        rw [hreserved] at hm
        exact (h.held m hm).imp fun p hp => (hat p m).mpr hp
      · intro m file hfile
        rw [hchunks]
        rw [hfiles] at hfile
        split_ifs at hfile with hm
        · obtain ⟨old, hold, rfl⟩ := Option.map_eq_some_iff.mp hfile
          rw [hm]
          exact (h.kept _ old hold).trans (List.prefix_append _ _)
        · exact h.kept m file hfile
      · rw [← ht]
        exact h.sizes
      · intro j store hj
        have hj' : s.stores j = some store := by rw [← ht] at hj; exact hj
        refine (h.stored j store hj').agrees (fun m hm => ⟨h.number_lt hj' hm, hagrees m ?_⟩) hsinks (by rw [← ht]; exact fun m hm => hm)
        rintro rfl
        exact htask j ⟨store, hj', hm⟩
      · intro cid id upload hupload
        rw [hfind] at hupload
        have hentered := h.entered cid id upload hupload
        by_cases hm : upload.number = append.number
        · obtain ⟨hwriting, hoffset, hfits, hpending⟩ := hentered.pending i append hi hm.symm
          have honly (j : Nat) (a : Append) (hj : t.appends j = some a) (ha : a.number = upload.number) : j = i ∧ a = next := by
            rw [happends] at hj
            split_ifs at hj with heq
            · exact ⟨heq, (Option.some.inj hj).symm⟩
            · exact absurd (hentered.one j i a append hj hi ha hm.symm) heq
          refine ⟨by rw [hreserved]; exact hentered.rest, by rw [hchunks]; exact hentered.length, by rw [hchunks]; exact hentered.order,
            fun hidle => (nomatch hidle.symm.trans hwriting), fun j k a b hj hk ha hb => ?_, fun j a hj ha => ?_⟩
          · rw [(honly j a hj ha).1, (honly k b hk hb).1]
          · rw [(honly j a hj ha).2, ← hnext]
            refine ⟨hwriting, hoffset, hfits, fun file hfile => ?_⟩
            rw [hfiles, if_pos rfl] at hfile
            obtain ⟨old, hold, rfl⟩ := Option.map_eq_some_iff.mp hfile
            have hbefore := hpending old hold
            rw [hphase] at hbefore
            obtain ⟨done, hdata, hcontents⟩ := hbefore
            refine ⟨done ++ rest.take count, ?_, ?_⟩
            · rw [List.append_assoc, List.take_append_drop]
              exact hdata
            · rw [hchunks, hcontents, List.append_assoc]
        · refine hentered.agrees (hagrees _ hm) fun j a hj ha => ?_
          rw [happends] at hj
          split_ifs at hj
          · rw [← Option.some.inj hj, hnumber] at ha
            exact absurd ha.symm hm
          · exact hj
      · rw [← ht]
        exact h.taken
      · rw [hreserved]
        exact h.bounded
      · rw [← ht]
        exact h.threads
      · rw [hreserved, ← ht]
        exact h.closures
      · rw [hreserved, hmade, ← ht]
        exact h.flight
      · intro m hm
        have hm' : m ∈ s.admitted := by rw [← ht] at hm; exact hm
        obtain ⟨hlt', hcap⟩ := h.cap m hm'
        rw [hmade]
        exact ⟨hlt', hsinks.cap hlt' hcap⟩

theorem Inv.forget (h : Inv s) (i : Nat) : Inv (s.setAppend i none) := by
  have hquiet : Quiet s (s.setAppend i none) := quiet_of rfl rfl rfl rfl rfl rfl rfl
  have happends (j : Nat) : (s.setAppend i none).appends j = if j = i then none else s.appends j := update_apply ..
  have hstill (j : Nat) (append : Append) (hj : (s.setAppend i none).appends j = some append) : s.appends j = some append := by
    rw [happends] at hj
    split_ifs at hj
    exact hj
  refine h.quiet hquiet (h.single.shrink fun p _ hp => by cases p <;> exact hp) (fun j hj => ⟨(h.spawned j hj).1, ?_⟩)
    (fun j append hj => h.appended j append (hstill j append hj)) (fun p n hp _ => ⟨p, by cases p <;> exact hp⟩) (fun _ _ hj => .inl hj)
    (fun cid id upload hfind => hquiet.entered (h.entered cid id upload hfind) hstill) h.taken
  rw [happends]
  split_ifs
  · rfl
  · exact (h.spawned j hj).2

theorem Inv.landFailure (h : Inv s) (append : Append) (reason : String) : Inv (s.landFailure append reason) := by
  unfold State.landFailure
  split
  case h_1 => exact h.answer _
  case h_2 uploads hsession =>
    dsimp only
    split
    case h_1 => exact h.answer _
    case h_2 upload hget => exact ((h.removed hsession hget).schedule _).answer _

theorem Inv.landChunk (h : Inv s) {append : Append} (hi : s.appends i = some append) (hphase : append.phase = .writing [])
    (hmeets : ∀ upload, s.find append.cid append.id = some upload → upload.number = append.number) :
    Inv ((s.setAppend i none).landChunk append) := by
  have hforget := h.forget i
  unfold State.landChunk
  split
  case h_1 => exact hforget.answer _
  case h_2 uploads hsession =>
    dsimp only
    split
    case h_1 => exact hforget.answer _
    case h_2 upload hget =>
      have hfind : s.find append.cid append.id = some upload := (congrArg (·.bind (·.get append.id)) hsession).trans hget
      have hnumber := hmeets upload hfind
      have hentered := h.entered append.cid append.id upload hfind
      have hlt := h.entry_lt hfind
      obtain ⟨hwriting, hoffset, hfits, hpending⟩ := hentered.pending i append hi hnumber.symm
      have hrest := hentered.rest
      have hlength := hentered.length
      have hlen : append.data.length ≤ s.reserved upload.number := by omega
      have hfile (file : List UInt8) (hfile : s.files upload.number = some file) :
          file = contents (s.chunks upload.number ++ [⟨append.offset, append.data⟩]) := by
        rw [hnumber] at hfile
        have hdone := hpending file hfile
        rw [hphase] at hdone
        obtain ⟨done, hdata, hcontents⟩ := hdone
        rw [hcontents, contents_append, hdata, List.append_nil, hnumber]
      have hcontents : (contents (s.chunks upload.number ++ [⟨append.offset, append.data⟩])).length =
          (contents (s.chunks upload.number)).length + append.data.length := by rw [contents_append, List.length_append]
      have hgone (j : Nat) (a : Append) (hj : (s.setAppend i none).appends j = some a) : a.number ≠ upload.number := by
        intro ha
        have hj' : update s.appends i none j = some a := hj
        rw [update_apply] at hj'
        split_ifs at hj' with heq
        exact heq (hentered.one j i a append hj' hi ha hnumber.symm)
      have hnot : upload.number ∉ s.dropping := by
        intro hn
        exact nomatch h.single.one .dropping (.entry append.cid append.id) upload.number hn ⟨upload, hfind, rfl⟩
      -- the upload is out of its table while its bytes go from the reservation to the disk
      have hremoved := hforget.removed hsession hget
      have hlower := hremoved.lower (s.chunks upload.number ++ [⟨append.offset, append.data⟩]) hlt
        (hremoved.free_dropping List.mem_cons_self) hlen hcontents.le fun file hf => by rw [hfile file hf]
      generalize hnext : (uploads.set append.id { upload with writing := false, received := upload.received + append.data.length }) =
        next
      have henter := hlower.enter (update_self ..) next
        { upload with writing := false, received := upload.received + append.data.length } ((uploads.get_remove _ _).trans (if_pos rfl)) (fun other => ?_) rfl hnot ?_
      · refine Inv.answer ?_ _
        rw [State.landed_eq (s := (s.setAppend i none).setUploads append.cid next) hlen, State.give_lower]
        have hsessions := update_idem (some (uploads.remove append.id)) (some next) s.sessions (a := append.cid)
        simp only [State.setUploads, State.lower, State.abandon, State.setAppend] at henter ⊢
        rw [hsessions] at henter
        exact henter
      · rw [← hnext, StagedUploads.get_set, StagedUploads.get_remove]
        split_ifs <;> rfl
      · refine ⟨?_, ?_, ?_, fun _ file hf => ?_, fun j k a b hj _ ha _ => absurd ha (hgone j a hj),
          fun j a hj ha => absurd ha (hgone j a hj)⟩
        · show upload.received + append.data.length + update s.reserved upload.number _ upload.number = upload.total
          rw [update_self]
          show upload.received + append.data.length + (s.reserved upload.number - append.data.length) = upload.total
          omega
        · show (contents (update s.chunks upload.number _ upload.number)).length = upload.received + append.data.length
          rw [update_self, hcontents, hlength]
        · show Contiguous 0 (update s.chunks upload.number _ upload.number)
          rw [update_self]
          refine hentered.order.snoc ?_
          rw [Nat.zero_add, hlength]
          exact hoffset
        · show file = contents (update s.chunks upload.number _ upload.number)
          rw [update_self]
          exact hfile file hf

theorem Inv.land (h : Inv s) (hmeets : s.Meets (.land i)) : Inv (s.land i) := by
  unfold State.land
  split
  case h_2 => exact h
  case h_1 append hi =>
    split
    case h_1 hphase => exact h.landChunk hi hphase fun upload hfind => hmeets append hi hphase upload hfind
    case h_2 reason _ => exact (h.forget i).landFailure append reason
    case h_3 => exact h
    case h_4 => exact h

end CitadelAgent.Transfers.Staging
