import CitadelAgent.Transfers.StagingSteps

/-!
# What staging keeps: the check against the cap, and the first write

* `Inv.reserved_le`, `flight_sub` : the counter never wraps;
* `Inv.reserve`, `list`, `read`, `decide` : the check against the cap;
* `Inv.create`, `write`, `fail` : the first write, up to the end of its closure.
-/

namespace CitadelAgent.Transfers.Staging
open Function Places

variable {s t : State}

/-! ## The counter -/

theorem Inv.admitted_le (h : Inv s) :
    ∑ n ∈ (Finset.range s.made).filter (· ∈ s.admitted), s.weight n ≤ MAX_BROWSER_TRANSFER_TOTAL_BYTES := by
  rcases Finset.eq_empty_or_nonempty ((Finset.range s.made).filter (· ∈ s.admitted)) with hempty | hsome
  · rw [hempty]
    exact Nat.zero_le _
  · obtain ⟨last, hlast, hmax⟩ := Finset.exists_max_image _ id hsome
    obtain ⟨-, hcap⟩ := h.cap last (Finset.mem_filter.mp hlast).2
    refine le_trans (Finset.sum_le_sum_of_subset fun n hn => ?_) hcap
    exact Finset.mem_range.mpr (Nat.lt_succ_of_le (hmax n hn))

theorem Inv.reserved_le (h : Inv s) :
    ∑ n ∈ Finset.range s.made, s.reserved n ≤ (MAX_BLOCKING_THREADS + 1) * MAX_BROWSER_TRANSFER_TOTAL_BYTES := by
  have hsplit : ∑ n ∈ Finset.range s.made, s.reserved n ≤
      ∑ n ∈ (Finset.range s.made).filter (· ∈ s.admitted), s.weight n + ∑ n ∈ s.closures.toFinset, s.reserved n := by
    rw [← Finset.sum_filter_add_sum_filter_not (Finset.range s.made) (· ∈ s.admitted)]
    refine Nat.add_le_add (Finset.sum_le_sum fun n _ => Nat.le_add_left _ _) ?_
    refine Finset.sum_le_sum_of_ne_zero fun n hn hne => ?_
    rw [List.mem_toFinset]
    exact (h.closures n hne).resolve_right (Finset.mem_filter.mp hn).2
  have hclosures : ∑ n ∈ s.closures.toFinset, s.reserved n ≤ MAX_BLOCKING_THREADS * MAX_BROWSER_TRANSFER_TOTAL_BYTES := by
    refine (Finset.sum_le_card_nsmul _ _ _ fun n _ => h.bounded n).trans ?_
    exact Nat.mul_le_mul_right _ ((List.toFinset_card_le _).trans h.threads)
  have hadmitted := h.admitted_le
  rw [Nat.add_mul]
  omega

theorem fetchAdd_eq {value bytes : Nat} (h : value + bytes < 2 ^ 64) : fetchAdd value bytes = value + bytes := Nat.mod_eq_of_lt h

theorem fetchSub_eq {value bytes : Nat} (h : bytes ≤ value) (hvalue : value < 2 ^ 64) : fetchSub value bytes = value - bytes := by
  unfold fetchSub
  omega

theorem Inv.inFlight_lt (h : Inv s) : s.inFlight + MAX_BROWSER_TRANSFER_TOTAL_BYTES < 2 ^ 64 := by
  have hle := h.reserved_le
  rw [← h.flight] at hle
  unfold MAX_BLOCKING_THREADS at hle
  unfold MAX_BROWSER_TRANSFER_TOTAL_BYTES MAX_STAGED_UPLOAD_BYTES at *
  omega

theorem sum_lowered (f : Nat → Nat) (made n bytes : Nat) (hbytes : bytes ≤ f n) (hn : n < made ∨ f n = 0) :
    ∑ m ∈ Finset.range made, update f n (f n - bytes) m = (∑ m ∈ Finset.range made, f m) - bytes ∧
      bytes ≤ ∑ m ∈ Finset.range made, f m := by
  rcases hn with hn | hzero
  · have hmem : n ∈ Finset.range made := Finset.mem_range.mpr hn
    have hsum := Finset.sum_eq_add_sum_sdiff_singleton_of_mem hmem f
    rw [Finset.sum_update_of_mem hmem]
    omega
  · rw [hzero] at hbytes
    obtain rfl := Nat.le_zero.mp hbytes
    rw [hzero, Nat.sub_zero, Nat.sub_zero]
    refine ⟨?_, Nat.zero_le _⟩
    rw [← hzero, update_eq_self]

theorem Inv.flight_sub (h : Inv s) {n bytes : Nat} (hbytes : bytes ≤ s.reserved n) :
    fetchSub s.inFlight bytes = ∑ m ∈ Finset.range s.made, update s.reserved n (s.reserved n - bytes) m := by
  have hn : n < s.made ∨ s.reserved n = 0 := (Nat.lt_or_ge n s.made).imp_right fun hn => (h.unmade n hn).2
  obtain ⟨hsum, hle⟩ := sum_lowered s.reserved s.made n bytes hbytes hn
  have hlt := h.inFlight_lt
  rw [hsum, ← h.flight, fetchSub_eq]
  · rw [h.flight]
    exact hle
  · omega

/-! ## The check -/

theorem State.at_setStore {i : Nat} {store : Store} (store' : Store) (hi : s.stores i = some store)
    (hnumber : store'.phase.number = store.phase.number) (p : Place) (n : Nat) : (s.setStore i (some store')).At p n ↔ s.At p n := by
  cases p with
  | task j =>
    show (∃ found, update s.stores i (some store') j = some found ∧ _) ↔ _
    rw [update_apply]
    split_ifs with heq
    · rw [heq]
      show _ ↔ ∃ found, s.stores i = some found ∧ _
      rw [hi]
      simp only [Option.some.injEq, exists_eq_left']
      rw [hnumber]
    · rfl
  | entry cid id => rfl
  | dropping => rfl

theorem Inv.phase (h : Inv s) {i : Nat} {purpose : Purpose} {data : List UInt8} {phase : StorePhase} (phase' : StorePhase)
    (hi : s.stores i = some ⟨purpose, data, phase⟩) (hnumber : phase'.number = phase.number)
    (hstored : Stored s ⟨purpose, data, phase'⟩) : Inv (s.setStore i (some ⟨purpose, data, phase'⟩)) := by
  have hquiet : Quiet s (s.setStore i (some ⟨purpose, data, phase'⟩)) := quiet_of rfl rfl rfl rfl rfl rfl rfl
  have hat := State.at_setStore ⟨purpose, data, phase'⟩ hi hnumber
  refine h.quiet hquiet (h.single.shrink fun p n hp => (hat p n).mp hp) (fun j hj => ⟨?_, (h.spawned j hj).2⟩)
    (fun j append hj => (h.appended j append hj).imp_right fun htask k hk => htask k ((hat _ _).mp hk))
    (fun p n hp _ => ⟨p, (hat p n).mpr hp⟩) (fun j store hj => ?_)
    (fun cid id upload hfind => hquiet.entered (h.entered cid id upload hfind) fun _ _ hi => hi) h.taken
  · show update s.stores i _ j = none
    rw [update_of_ne]
    · exact (h.spawned j hj).1
    · rintro rfl
      exact nomatch (h.spawned j hj).1.symm.trans hi
  · have hj' : update s.stores i _ j = some store := hj
    rw [update_apply] at hj'
    split_ifs at hj'
    · rw [← Option.some.inj hj']
      have hsizes := h.sizes i _ hi
      exact .inr ⟨hsizes, hstored⟩
    · exact .inl hj'

theorem State.Fresh.payload {n reserve : Nat} (h : s.Fresh n reserve) : s.payload n = 0 := by
  unfold State.payload
  rw [h.chunks]
  split_ifs <;> rfl

theorem Inv.reserve (h : Inv s) (i : Nat) (ready : Except String Unit) : Inv (s.reserve i ready) := by
  unfold State.reserve
  split
  case h_1 purpose data reason hi => exact h.phase _ hi rfl (fun n hn => nomatch hn)
  case h_3 => exact h
  case h_2 purpose data hi =>
    dsimp only
    split_ifs with hthreads
    case neg => exact h
    generalize hstore : (⟨purpose, data, .reserved s.made s.inFlight⟩ : Store) = store
    obtain ⟨hlen, hmax⟩ : store.data.length ≤ store.reserve ∧ store.reserve ≤ MAX_BROWSER_TRANSFER_TOTAL_BYTES := by
      have hsizes := h.sizes i _ hi
      rw [← hstore]
      exact hsizes
    obtain ⟨hchunks, hzero⟩ := h.unmade s.made le_rfl
    generalize ht : ({ s.setStore i (some store) with
      inFlight := fetchAdd s.inFlight store.reserve, reserved := update s.reserved s.made store.reserve,
      closures := s.made :: s.closures, made := s.made + 1 } : State) = t
    have hreserved (n : Nat) : t.reserved n = if n = s.made then store.reserve else s.reserved n := by
      rw [← ht]
      exact update_apply ..
    have hstores (j : Nat) : t.stores j = if j = i then some store else s.stores j := by
      rw [← ht]
      exact update_apply ..
    have hfind (cid : Cid) (id : Uuid) : t.find cid id = s.find cid id := by rw [← ht]; rfl
    have hagrees (n : Nat) (hn : n < s.made) : Agrees s t n := by
      refine ⟨fun file hfile => ?_, ?_, ?_⟩
      · rw [← ht] at hfile
        exact hfile
      · rw [← ht]
        rfl
      · rw [hreserved, if_neg hn.ne]
    have hsinks : Sinks s t := by
      refine ⟨?_, fun n hn => (hagrees n hn).reserved.le, fun n hn => Nat.add_le_add (hagrees n hn).payload (hagrees n hn).reserved.le⟩
      rw [← ht]
      exact Nat.le_succ _
    have hat (p : Place) (n : Nat) (hp : t.At p n) : s.At p n ∨ p = .task i ∧ n = s.made := by
      cases p with
      | task j =>
        obtain ⟨found, hj, hnumber⟩ := hp
        rw [hstores] at hj
        split_ifs at hj with heq
        · rw [← Option.some.inj hj, ← hstore] at hnumber
          exact .inr ⟨by rw [heq], (Option.some.inj hnumber).symm⟩
        · exact .inl ⟨found, hj, hnumber⟩
      | entry cid id =>
        obtain ⟨upload, hupload, hnumber⟩ := hp
        rw [hfind] at hupload
        exact .inl ⟨upload, hupload, hnumber⟩
      | dropping =>
        rw [← ht] at hp
        exact .inl hp
    constructor
    · rw [← ht] at hat ⊢
      exact h.single.make hat
    · intro j hj
      rw [← ht] at hj
      refine ⟨?_, by rw [← ht]; exact (h.spawned j hj).2⟩
      rw [hstores, if_neg]
      · exact (h.spawned j hj).1
      · rintro rfl
        exact nomatch (h.spawned j hj).1.symm.trans hi
    · intro j append hj
      rw [← ht] at hj
      obtain ⟨hlt, htask⟩ := h.appended j append hj
      refine ⟨by rw [← ht]; exact Nat.lt_succ_of_lt hlt, fun k hk => ?_⟩
      rcases hat _ _ hk with hk | ⟨-, hk⟩
      · exact htask k hk
      · exact hlt.ne hk
    · intro n hn
      have hn' : s.made + 1 ≤ n := by rw [← ht] at hn; exact hn
      rw [hreserved, if_neg (by omega)]
      refine ⟨?_, (h.unmade n (by omega)).2⟩
      rw [← ht]
      exact (h.unmade n (by omega)).1
    · intro n hn
      rw [hreserved] at hn
      split_ifs at hn with heq
      · refine ⟨.task i, store, by rw [hstores, if_pos rfl], ?_⟩
        rw [heq, ← hstore, StorePhase.number]
      · obtain ⟨p, hp⟩ := h.held n hn
        refine ⟨p, ?_⟩
        cases p with
        | task j =>
          obtain ⟨found, hj, hnumber⟩ := hp
          refine ⟨found, ?_, hnumber⟩
          rw [hstores, if_neg]
          · exact hj
          · rintro rfl
            rw [← Option.mem_unique hi hj] at hnumber
            exact nomatch hnumber
        | entry cid id =>
          obtain ⟨upload, hupload, hnumber⟩ := hp
          exact ⟨upload, (hfind cid id).trans hupload, hnumber⟩
        | dropping => rw [← ht]; exact hp
    · rw [← ht]
      exact h.kept
    · intro j found hj
      rw [hstores] at hj
      split_ifs at hj
      · rw [← Option.some.inj hj]
        exact ⟨hlen, hmax⟩
      · exact h.sizes j found hj
    · intro j found hj
      rw [hstores] at hj
      split_ifs at hj
      · rw [← Option.some.inj hj, ← hstore]
        refine ⟨⟨?_, by rw [← ht]; exact hchunks⟩, ?_⟩
        · rw [hreserved, if_pos rfl, ← hstore]
        · show ∑ m ∈ Finset.range s.made, t.counted (fun _ => true) m ≤ s.inFlight
          rw [h.flight]
          refine Finset.sum_le_sum fun m hm => ?_
          exact (hagrees m (Finset.mem_range.mp hm)).reserved.le
      · refine (h.stored j found hj).agrees (fun n hn => ?_) hsinks (fun n hn => by rw [← ht]; exact hn)
        have hlt := h.number_lt hj hn
        exact ⟨hlt, hagrees n hlt⟩
    · intro cid id upload hupload
      rw [hfind] at hupload
      exact (h.entered cid id upload hupload).agrees (hagrees _ (h.entry_lt hupload)) fun j append hj _ => by
        rw [← ht] at hj
        exact hj
    · rw [← ht]
      exact h.taken
    · intro n
      rw [hreserved]
      split_ifs
      · exact hmax
      · exact h.bounded n
    · rw [← ht]
      exact hthreads
    · intro n hn
      rw [hreserved] at hn
      rw [← ht]
      split_ifs at hn with heq
      · exact .inl (heq ▸ List.mem_cons_self)
      · exact (h.closures n hn).imp_left fun hmem => List.mem_cons_of_mem _ hmem
    · have hlt := h.inFlight_lt
      rw [← ht]
      show fetchAdd s.inFlight store.reserve = ∑ n ∈ Finset.range (s.made + 1), update s.reserved s.made store.reserve n
      rw [fetchAdd_eq (by omega), Finset.sum_range_succ, update_self, h.flight]
      congr 1
      exact Finset.sum_congr rfl fun n hn => (update_of_ne (Finset.mem_range.mp hn).ne _ _).symm
    · intro n hn
      rw [← ht] at hn
      obtain ⟨hlt, hcap⟩ := h.cap n hn
      exact ⟨by rw [← ht]; exact Nat.lt_succ_of_lt hlt, hsinks.cap hlt hcap⟩

/-! ## The scan -/

theorem Inv.list (h : Inv s) (i : Nat) : Inv (s.list i) := by
  unfold State.list
  split
  case h_2 => exact h
  case h_1 purpose data number before hi =>
    obtain ⟨hfresh, hwithin⟩ := h.stored i _ hi
    have hlt := h.number_lt hi rfl
    refine h.phase _ hi rfl ⟨hfresh, .inr (le_trans (Finset.sum_le_sum fun m hm => ?_) hwithin)⟩
    have hm' := Finset.mem_range.mp hm
    unfold State.counted
    by_cases hfile : (s.files m).isSome
    · rw [if_pos]
      · rfl
      · simp only [List.mem_filter, List.mem_range, List.not_mem_nil, not_false_eq_true, and_true, decide_eq_true_eq]
        exact ⟨by omega, hfile⟩
    · have hnone : s.payload m = 0 := by
        unfold State.payload
        rw [if_neg hfile]
      rw [hnone, ite_self]
      rfl

theorem State.Within.read {unread unread' : Nat → Bool} {number bound size n : Nat} (h : s.Within unread number bound)
    (hunread : ∀ m ≠ n, unread' m = unread m) (hsize : s.payload n ≤ size) : s.Within unread' number (bound + size) := by
  have hle (m : Nat) : s.counted unread' m ≤ s.counted unread m + if m = n then size else 0 := by
    unfold State.counted
    by_cases hm : m = n
    · rw [hm, if_pos rfl]
      split_ifs <;> omega
    · rw [hunread m hm, if_neg hm]
      exact Nat.le_refl _
  refine le_trans (Finset.sum_le_sum fun m _ => hle m) ?_
  rw [Finset.sum_add_distrib]
  refine Nat.add_le_add h ?_
  rw [Finset.sum_ite_eq']
  split_ifs <;> omega

theorem saturatingAdd_cases (a b : Nat) :
    MAX_BROWSER_TRANSFER_TOTAL_BYTES < saturatingAdd a b ∨ saturatingAdd a b = a + b := by
  unfold saturatingAdd MAX_BROWSER_TRANSFER_TOTAL_BYTES MAX_STAGED_UPLOAD_BYTES
  omega

theorem le_saturatingAdd {a b : Nat} (h : MAX_BROWSER_TRANSFER_TOTAL_BYTES < a) :
    MAX_BROWSER_TRANSFER_TOTAL_BYTES < saturatingAdd a b := by
  unfold saturatingAdd MAX_BROWSER_TRANSFER_TOTAL_BYTES MAX_STAGED_UPLOAD_BYTES at *
  omega

theorem Inv.payload_le (h : Inv s) (n : Nat) : s.payload n ≤ (s.files n).elim 0 (·.length) := by
  unfold State.payload
  rcases Option.eq_none_or_eq_some (s.files n) with hfile | ⟨file, hfile⟩
  · rw [hfile]
    exact Nat.zero_le _
  · rw [hfile]
    exact (h.kept n file hfile).length_le

theorem Inv.read (h : Inv s) (i n : Nat) : Inv (s.read i n) := by
  unfold State.read
  split
  case h_2 => exact h
  case h_1 purpose data number before listed seen onDisk hi =>
    split_ifs with hseen
    · exact h
    obtain ⟨hfresh, hscan⟩ := h.stored i _ hi
    refine h.phase _ hi rfl ⟨hfresh, ?_⟩
    rcases hscan with hover | hwithin
    · exact .inl (le_saturatingAdd hover)
    · refine (saturatingAdd_cases onDisk _).imp_right fun heq => ?_
      rw [heq, ← Nat.add_assoc]
      refine hwithin.read (n := n) (fun m hm => ?_) (h.payload_le n)
      simp only [List.mem_cons, or_iff_right hm]

theorem Inv.decide (h : Inv s) (i : Nat) : Inv (s.decide i) := by
  unfold State.decide
  split
  case h_2 => exact h
  case h_1 purpose data number before listed seen onDisk hi =>
    obtain ⟨hfresh, hscan⟩ := h.stored i _ hi
    dsimp only
    split_ifs with hread hover
    · exact h.phase _ hi rfl trivial
    · have hreserve : s.reserved number = (Store.mk purpose data (.admitted number)).reserve := hfresh.reserved
      have hpayload := hfresh.payload
      have hwithin : ∑ m ∈ Finset.range number, s.weight m ≤ before + onDisk := by
        rcases hscan with hlarge | hwithin
        · exact absurd (le_saturatingAdd (le_saturatingAdd hlarge)) hover
        · refine le_trans (Finset.sum_le_sum fun m _ => ?_) hwithin
          unfold State.counted State.weight
          rw [if_neg, Nat.add_comm]
          rw [decide_eq_true_eq, not_and_not_right]
          intro hlisted
          exact of_decide_eq_true (List.all_eq_true.mp hread m hlisted)
      have hcap : ∑ m ∈ Finset.range (number + 1), s.weight m ≤ MAX_BROWSER_TRANSFER_TOTAL_BYTES := by
        rw [Finset.sum_range_succ]
        unfold State.weight at hwithin ⊢
        unfold saturatingAdd MAX_BROWSER_TRANSFER_TOTAL_BYTES MAX_STAGED_UPLOAD_BYTES at *
        omega
      have hadmitted : Inv { s with admitted := number :: s.admitted } := by
        have hsinks : Sinks s { s with admitted := number :: s.admitted } :=
          ⟨le_rfl, fun n _ => le_rfl, fun n _ => le_rfl⟩
        have hagrees (n : Nat) : Agrees s { s with admitted := number :: s.admitted } n := ⟨fun _ hf => hf, rfl, rfl⟩
        refine { h with
          single := h.single.shrink fun p n hp => by cases p <;> exact hp
          appended := fun j append hj => (h.appended j append hj).imp_right fun htask k hk => htask k hk
          held := fun n hn => ?_
          stored := fun j store hj => ?_
          entered := fun cid id upload hfind => (h.entered cid id upload hfind).agrees (hagrees _) fun _ _ hi _ => hi
          closures := fun n hn => (h.closures n hn).imp_right fun hmem => List.mem_cons_of_mem _ hmem
          cap := fun n hn => ?_ }
        · obtain ⟨p, hp⟩ := h.held n hn
          exact ⟨p, by cases p <;> exact hp⟩
        · exact (h.stored j store hj).agrees (fun n hn => ⟨h.number_lt hj hn, hagrees n⟩) hsinks
            fun n hn => List.mem_cons_of_mem _ hn
        · rcases List.mem_cons.mp hn with rfl | hn
          · exact ⟨h.number_lt hi rfl, hcap⟩
          · exact h.cap n hn
      exact hadmitted.phase _ hi rfl ⟨⟨hfresh.reserved, hfresh.chunks⟩, List.mem_cons_self⟩
    · exact h

/-! ## The first write -/

theorem Inv.fail (h : Inv s) (i : Nat) (reason : String) : Inv (s.fail i reason) := by
  unfold State.fail
  split
  case h_1 purpose data number hi => exact h.phase _ hi rfl trivial
  case h_2 purpose data number byte rest hi => exact h.phase _ hi rfl trivial
  case h_3 => exact h

theorem State.files_setFile (s : State) (n : Nat) (file : Option (List UInt8)) : (s.setFile n file).files n = file := update_self ..

theorem Inv.setFile (h : Inv s) {i n : Nat} {purpose : Purpose} {data : List UInt8}
    (hi : s.stores i = some ⟨purpose, data, .admitted n⟩) (file : Option (List UInt8)) : Inv (s.setFile n file) := by
  obtain ⟨hfresh, hadmitted⟩ := h.stored i _ hi
  have hfiles (m : Nat) : (s.setFile n file).files m = if m = n then file else s.files m := update_apply ..
  have hagrees (m : Nat) (hm : m ≠ n) : Agrees s (s.setFile n file) m := by
    refine ⟨fun found hfound => ?_, rfl, rfl⟩
    rw [hfiles, if_neg hm] at hfound
    exact hfound
  have hsinks : Sinks s (s.setFile n file) := by
    refine ⟨le_rfl, fun m _ => le_rfl, fun m _ => ?_⟩
    by_cases hm : m = n
    · have hzero : (s.setFile n file).payload n = 0 := State.Fresh.payload ⟨hfresh.reserved, hfresh.chunks⟩
      rw [hm]
      unfold State.weight
      rw [hzero, hfresh.payload]
      rfl
    · exact Nat.add_le_add (hagrees m hm).payload le_rfl
  have hat (p : Place) (m : Nat) : (s.setFile n file).At p m ↔ s.At p m := by cases p <;> rfl
  have htask : s.At (.task i) n := ⟨_, hi, rfl⟩
  refine { h with
    single := h.single.shrink fun p m hp => (hat p m).mp hp
    appended := h.appended
    held := fun m hm => (h.held m hm).imp fun p hp => (hat p m).mpr hp
    kept := fun m found hfound => ?_
    stored := fun j store hj => ?_
    entered := fun cid id upload hfind => ?_
    cap := fun m hm => ⟨(h.cap m hm).1, hsinks.cap (h.cap m hm).1 (h.cap m hm).2⟩ }
  · by_cases hm : m = n
    · show contents (s.chunks m) <+: found
      rw [hm, hfresh.chunks]
      exact List.nil_prefix
    · exact h.kept m found ((hagrees m hm).files found hfound)
  · by_cases hm : store.phase.number = some n
    · obtain rfl := Place.task.inj (h.single.one (.task j) (.task i) n ⟨store, hj, hm⟩ htask)
      rw [← Option.mem_unique hi hj]
      exact ⟨⟨hfresh.reserved, hfresh.chunks⟩, hadmitted⟩
    · refine (h.stored j store hj).agrees (fun m hnumber => ⟨h.number_lt hj hnumber, hagrees m ?_⟩) hsinks fun m hm => hm
      rintro rfl
      exact hm hnumber
  · refine (h.entered cid id upload hfind).agrees (hagrees _ fun hnumber => ?_) fun _ _ hj _ => hj
    exact nomatch h.single.one (.task i) (.entry cid id) n htask ⟨upload, hfind, hnumber⟩

theorem Inv.create (h : Inv s) (i : Nat) : Inv (s.create i) := by
  unfold State.create
  split
  case h_2 => exact h
  case h_1 purpose data number hi =>
    obtain ⟨hfresh, hadmitted⟩ := h.stored i _ hi
    have hcreated := h.setFile hi (some [])
    refine hcreated.phase _ hi rfl ⟨⟨hfresh.reserved, hfresh.chunks⟩, hadmitted, fun file hfile => ?_⟩
    rw [State.files_setFile] at hfile
    rw [← Option.some.inj hfile]
    rfl

theorem State.setStore_idem (s : State) (i : Nat) (store store' : Option Store) :
    (s.setStore i store).setStore i store' = s.setStore i store' := by
  show { s with stores := update (update s.stores i store) i store' } = _
  rw [update_idem]
  rfl

theorem Inv.write (h : Inv s) (i count : Nat) : Inv (s.write i count) := by
  unfold State.write
  split
  case h_2 => exact h
  case h_1 purpose data number rest hi =>
    obtain ⟨hfresh, hadmitted, hfile⟩ := h.stored i _ hi
    -- with the phase before the write, nothing is known of the file
    have hbefore := h.phase (.admitted number) hi rfl ⟨hfresh, hadmitted⟩
    have hwritten := hbefore.setFile (update_self ..) ((s.files number).map (· ++ rest.take count))
    have hphase := hwritten.phase (.writing number (rest.drop count)) (update_self ..) rfl
      ⟨⟨hfresh.reserved, hfresh.chunks⟩, hadmitted, fun file hf => ?_⟩
    · rw [← State.setStore_idem s i (some ⟨purpose, data, .admitted number⟩)]
      exact hphase
    · rw [State.files_setFile] at hf
      obtain ⟨old, hold, rfl⟩ := Option.map_eq_some_iff.mp hf
      show data = _
      rw [List.append_assoc, List.take_append_drop]
      exact hfile old hold

end CitadelAgent.Transfers.Staging
