import CitadelAgent.Transfers.Offered

/-!
# Answers to offered transfers

* `Service.Answerable` : an offer that a window was told of can be answered, once;
* `Service.offers_answerable` : in the runs whose steps meet `Service.Meets`;
* `Service.server_offer_is_lost` : an offer of the server's, and of a peer whose entry is not there, is told and not kept.
-/

namespace CitadelAgent.Transfers.Offered
open Function Machine

namespace Service

variable {s t : Service}

/-! ## What windows are told -/

/-- Notifications name the key of their offer, and those that reached no window are declined or still to be. -/
structure Noticed (s : Service) : Prop where
  tasks : ∀ i task, s.tasks i = some task → task.notice = task.offer.notification ∧ i < s.begun
  told : ∀ x ∈ s.told, x.notice = x.offer.notification
  reclaimed : ∀ x ∈ s.told, x.reached = [] →
    s.Declined x.offer ∨ ∃ i task, s.tasks i = some task ∧ task.offer = x.offer ∧ task.stage = .reclaiming

structure Reported (s : Service) : Prop where
  statuses : ∀ x ∈ s.statuses, x.success = true ↔
    ∃ a ∈ s.answers, a.request = some x.requestId ∧ a.accept = x.response ∧ a.error = none
  asked : ∀ x ∈ s.statuses, x.requestId < s.requests
  answered : ∀ a ∈ s.answers, ∀ r ∈ a.request, r < s.requests

structure Quiet (s t : Service) : Prop where
  tasks : t.tasks = s.tasks
  begun : t.begun = s.begun
  told : t.told = s.told
  answers : t.answers = s.answers
  statuses : t.statuses = s.statuses
  requests : t.requests = s.requests

theorem Quiet.refl (s : Service) : Quiet s s := ⟨rfl, rfl, rfl, rfl, rfl, rfl⟩

theorem Noticed.quiet (h : s.Noticed) (hq : Quiet s t) : t.Noticed where
  tasks := by
    rw [hq.tasks, hq.begun]
    exact h.tasks
  told := hq.told ▸ h.told
  reclaimed := by
    unfold Declined
    rw [hq.told, hq.tasks, hq.answers]
    exact h.reclaimed

theorem Reported.same (h : s.Reported) (hanswers : t.answers = s.answers) (hstatuses : t.statuses = s.statuses)
    (hrequests : t.requests = s.requests) : t.Reported where
  statuses := by
    rw [hstatuses, hanswers]
    exact h.statuses
  asked := by
    rw [hstatuses, hrequests]
    exact h.asked
  answered := by
    rw [hanswers, hrequests]
    exact h.answered

theorem Reported.quiet (h : s.Reported) (hq : Quiet s t) : t.Reported := h.same hq.answers hq.statuses hq.requests

/-- Acts that are no step of the handling of an offer or of a request. -/
def Act.Outside : Act → Prop
  | .inbound _ => False
  | .deliver _ => False
  | .reclaim _ _ => False
  | .respond _ _ _ _ _ => False
  | _ => True

theorem quiet_step {act : Act} (h : Act.Outside act) : Quiet s (s.step act) := by
  have hset : ∀ cid c, Quiet s (s.set cid c) := fun _ _ => ⟨rfl, rfl, rfl, rfl, rfl, rfl⟩
  cases act with
  | sessionOpens cid => exact ⟨rfl, rfl, rfl, rfl, rfl, rfl⟩
  | sessionEnds cid => exact ⟨rfl, rfl, rfl, rfl, rfl, rfl⟩
  | linkDrops cid =>
    simp only [step]
    split
    · exact ⟨rfl, rfl, rfl, rfl, rfl, rfl⟩
    · exact .refl s
  | attach cid members =>
    simp only [step]
    split
    · exact hset ..
    · exact .refl s
  | clients live => exact ⟨rfl, rfl, rfl, rfl, rfl, rfl⟩
  | install cid peerCid =>
    simp only [step]
    split
    · exact hset ..
    · exact .refl s
  | removePeer cid peerCid =>
    simp only [step]
    split
    · exact hset ..
    · exact .refl s
  | connectionEnds cid source => exact ⟨rfl, rfl, rfl, rfl, rfl, rfl⟩
  | inbound handle => exact h.elim
  | deliver i => exact h.elim
  | reclaim i error => exact h.elim
  | respond cid peerCid objectId accept error => exact h.elim

theorem Noticed.grow (h : s.Noticed) (htasks : t.tasks = s.tasks) (hbegun : t.begun = s.begun) (htold : t.told = s.told)
    (hanswers : ∀ a ∈ s.answers, a ∈ t.answers) : t.Noticed where
  tasks := by
    rw [htasks, hbegun]
    exact h.tasks
  told := htold ▸ h.told
  reclaimed x hx hnone := by
    rw [htasks]
    refine (h.reclaimed x (htold ▸ hx) hnone).imp_left fun ⟨a, ha, hao⟩ => ?_
    exact ⟨a, hanswers a ha, hao⟩

theorem noticed_inbound (h : s.Noticed) (handle : ObjectTransferHandle) : (s.step (.inbound handle)).Noticed := by
  simp only [step]
  split_ifs
  · cases hc : s.connections handle.sessionCid with
    | none => exact h
    | some c =>
      dsimp only
      refine ⟨fun i task hi => ?_, h.told, fun x hx hnone => ?_⟩
      · replace hi : update s.tasks s.begun _ i = some task := hi
        rcases of_update_some hi with ⟨hnew, rfl⟩ | ⟨-, hi⟩
        · exact ⟨rfl, hnew ▸ Nat.lt_succ_self _⟩
        · exact ⟨(h.tasks i task hi).1, Nat.lt_succ_of_lt (h.tasks i task hi).2⟩
      · rcases h.reclaimed x hx hnone with hdeclined | ⟨i, task, hi, hrest⟩
        · exact .inl hdeclined
        refine .inr ⟨i, task, ?_, hrest⟩
        show update s.tasks s.begun _ i = some task
        rw [update_of_ne (Nat.ne_of_lt (h.tasks i task hi).2)]
        exact hi
  · exact h

theorem noticed_deliver (h : s.Noticed) (i : Nat) : (s.step (.deliver i)).Noticed := by
  simp only [step]
  split
  · rename_i offer notice attached hi
    set reached := attached.filter (· ∈ s.clients)
    obtain ⟨hnotice, hbelow⟩ := h.tasks i _ hi
    refine ⟨fun j task hj => ?_, fun x hx => ?_, fun x hx hnone => ?_⟩
    · replace hj : update s.tasks i _ j = some task := hj
      rcases of_update hj with ⟨hsame, hj⟩ | ⟨-, hj⟩
      · split_ifs at hj
        obtain rfl := Option.some.inj hj
        exact ⟨hnotice, hsame ▸ hbelow⟩
      · exact h.tasks j task hj
    · rcases List.mem_cons.mp hx with rfl | hold
      · exact hnotice
      · exact h.told x hold
    · rcases List.mem_cons.mp hx with rfl | hold
      · refine .inr ⟨i, ⟨offer, notice, attached, .reclaiming⟩, ?_, rfl, rfl⟩
        show update s.tasks i _ i = _
        rw [update_self, if_pos (List.isEmpty_iff.mpr hnone)]
      · rcases h.reclaimed x hold hnone with hdeclined | ⟨j, task, hj, hoffer, hstage⟩
        · exact .inl hdeclined
        refine .inr ⟨j, task, ?_, hoffer, hstage⟩
        have hne : j ≠ i := by
          rintro rfl
          rw [hi] at hj
          obtain rfl := Option.some.inj hj
          cases hstage
        show update s.tasks i _ j = some task
        rw [update_of_ne hne]
        exact hj
  · exact h

theorem Noticed.settle (h : s.Noticed) {i : Nat} (hdeclined : ∀ task, s.tasks i = some task → s.Declined task.offer) :
    (s.settle i none).Noticed where
  tasks j task hj := by
    replace hj : update s.tasks i none j = some task := hj
    obtain ⟨-, hj⟩ := of_update_none hj
    exact h.tasks j task hj
  told := h.told
  reclaimed x hx hnone := by
    rcases h.reclaimed x hx hnone with hdone | ⟨j, task, hj, hoffer, hstage⟩
    · exact .inl hdone
    · by_cases hsame : j = i
      · subst hsame
        exact .inl (hoffer ▸ hdeclined task hj)
      · refine .inr ⟨j, task, ?_, hoffer, hstage⟩
        show update s.tasks i none j = some task
        rw [update_of_ne hsame]
        exact hj

theorem noticed_reclaim (hs : s.Sound) (h : s.Noticed) {i : Nat} {error : Option String} (hmeets : s.Meets (.reclaim i error)) :
    (s.step (.reclaim i error)).Noticed := by
  cases hi : s.tasks i with
  | none => simpa only [step, hi] using h
  | some task =>
    obtain ⟨offer, notice, attached, stage⟩ := task
    cases stage with
    | delivering => simpa only [step, hi] using h
    | reclaiming =>
      have hfound := hmeets _ hi rfl
      rcases reclaim_cases hs hi error with ⟨handler, t, hf, hstep⟩ | ⟨t, hm, hstep⟩
      · rw [hstep]
        have hq := hf.quiet
        have hanswers : t.answers = s.answers := by rw [hq]
        have htasks : t.tasks = s.tasks := by rw [hq]
        have hgrown : (t.answer handler false error none).Noticed :=
          h.grow htasks (by rw [hq]; rfl) (by rw [hq]; rfl) fun a ha => List.mem_cons_of_mem _ (hanswers ▸ ha)
        refine hgrown.settle fun task htask => ?_
        replace htask : t.tasks i = some task := htask
        rw [htasks, hi] at htask
        obtain rfl := Option.some.inj htask
        rcases hfound with ⟨a, ha, hao⟩ | ⟨hheld, rfl⟩
        · exact ⟨a, List.mem_cons_of_mem _ (hanswers ▸ ha), hao⟩
        · obtain rfl : handler = offer := by simpa [hheld] using hf.1.symm
          exact ⟨_, List.mem_cons_self, rfl, rfl, rfl⟩
      · rw [hstep]
        have hq := hm.quiet
        have hsame : t.Noticed := h.quiet (by rw [hq]; exact ⟨rfl, rfl, rfl, rfl, rfl, rfl⟩)
        refine hsame.settle fun task htask => ?_
        have htasks : t.tasks = s.tasks := by rw [hq]
        rw [htasks, hi] at htask
        obtain rfl := Option.some.inj htask
        rcases hfound with ⟨a, ha, hao⟩ | ⟨hheld, -⟩
        · exact ⟨a, by rw [hq]; exact ha, hao⟩
        · rw [hm.1] at hheld
          cases hheld

theorem noticed_step (hs : s.Sound) (h : s.Noticed) (act : Act) (hmeets : s.Meets act) : (s.step act).Noticed := by
  cases act with
  | inbound handle => exact noticed_inbound h handle
  | deliver i => exact noticed_deliver h i
  | reclaim i error => exact noticed_reclaim hs h hmeets
  | respond cid peerCid objectId accept error =>
    rcases respond_cases hs cid peerCid objectId accept error with ⟨handler, t, hf, hstep⟩ | ⟨message, t, hm, hstep⟩
    · rw [hstep, hf.quiet]
      exact h.grow rfl rfl rfl fun a ha => List.mem_cons_of_mem _ ha
    · rw [hstep, hm.quiet]
      exact h.grow rfl rfl rfl fun a ha => ha
  | _ => exact h.quiet (quiet_step trivial)

theorem Reported.status (h : s.Reported) (given : List Answer) {cid : Cid} {objectId : ObjectId} {success response : Bool}
    {message : Option String} (hstatuses : t.statuses = s.statuses) (hrequests : t.requests = s.requests)
    (hanswers : t.answers = given ++ s.answers) (hgiven : ∀ a ∈ given, a.request = some s.requests)
    (hsuccess : success = true ↔ ∃ a ∈ given, a.accept = response ∧ a.error = none) :
    (t.status cid objectId success response message).Reported := by
  have hmem : ∀ a, a ∈ (t.status cid objectId success response message).answers ↔ a ∈ given ∨ a ∈ s.answers := by
    intro a
    show a ∈ t.answers ↔ _
    rw [hanswers, List.mem_append]
  refine ⟨fun x hx => ?_, fun x hx => ?_, fun a ha r hr => ?_⟩
  · simp only [hmem]
    rcases List.mem_cons.mp hx with rfl | hold
    · dsimp only
      rw [hsuccess, hrequests]
      constructor
      · rintro ⟨a, ha, hrest⟩
        exact ⟨a, .inl ha, hgiven a ha, hrest⟩
      · rintro ⟨a, hnew | hold, hrequest, hrest⟩
        · exact ⟨a, hnew, hrest⟩
        · exact (Nat.lt_irrefl _ (h.answered a hold _ hrequest)).elim
    · rw [hstatuses] at hold
      rw [h.statuses x hold]
      constructor
      · rintro ⟨a, ha, hrest⟩
        exact ⟨a, .inr ha, hrest⟩
      · rintro ⟨a, hnew | hold', hrequest, hrest⟩
        · have hlast : s.requests = x.requestId := Option.mem_unique (hgiven a hnew) hrequest
          exact absurd (h.asked x hold) (by omega)
        · exact ⟨a, hold', hrequest, hrest⟩
  · show x.requestId < t.requests + 1
    rw [hrequests]
    rcases List.mem_cons.mp hx with rfl | hold
    · exact hrequests ▸ Nat.lt_succ_self _
    · exact Nat.lt_succ_of_lt (h.asked x (hstatuses ▸ hold))
  · show r < t.requests + 1
    rw [hrequests]
    rcases (hmem a).mp ha with hnew | hold
    · obtain rfl : s.requests = r := Option.mem_unique (hgiven a hnew) hr
      exact Nat.lt_succ_self _
    · exact Nat.lt_succ_of_lt (h.answered a hold r hr)

theorem reported_step (hs : s.Sound) (h : s.Reported) (act : Act) : (s.step act).Reported := by
  cases act with
  | inbound handle =>
    simp only [step]
    split_ifs
    · split
      · exact h.same rfl rfl rfl
      · exact h
    · exact h
  | deliver i =>
    simp only [step]
    split
    · exact h.same rfl rfl rfl
    · exact h
  | reclaim i error =>
    cases hi : s.tasks i with
    | none => simpa only [step, hi] using h
    | some task =>
      obtain ⟨offer, notice, attached, stage⟩ := task
      cases stage with
      | delivering => simpa only [step, hi] using h
      | reclaiming =>
        rcases reclaim_cases hs hi error with ⟨handler, t, hf, hstep⟩ | ⟨t, hm, hstep⟩
        · rw [hstep, hf.quiet]
          refine ⟨fun x hx => ?_, h.asked, fun a ha r hr => ?_⟩
          · rw [h.statuses x hx]
            constructor
            · rintro ⟨a, ha, hrest⟩
              exact ⟨a, List.mem_cons_of_mem _ ha, hrest⟩
            · rintro ⟨a, _ | ⟨_, hold⟩, hrequest, hrest⟩
              · cases hrequest
              · exact ⟨a, hold, hrequest, hrest⟩
          · rcases List.mem_cons.mp ha with rfl | hold
            · cases hr
            · exact h.answered a hold r hr
        · rw [hstep, hm.quiet]
          exact h.same rfl rfl rfl
  | respond cid peerCid objectId accept error =>
    rcases respond_cases hs cid peerCid objectId accept error with ⟨handler, t, hf, hstep⟩ | ⟨message, t, hm, hstep⟩
    · rw [hstep, hf.quiet]
      refine h.status [⟨handler, accept, error, some s.requests⟩] rfl rfl rfl (by simp) ?_
      simp [Option.isNone_iff_eq_none]
    · rw [hstep, hm.quiet]
      exact h.status [] rfl rfl rfl (by simp) (by simp)
  | _ => exact h.quiet (quiet_step trivial)

/-! ## Answerable offers -/

/-- No offer is answered twice; one whose session and sender's connection last is pending until then, under what its
notification named; one that no window was told of is declined; and an answer is told of success when it was the one
given. -/
structure Answerable (s : Service) : Prop where
  once : ∀ offer, (s.answers.map Answer.offer).count offer ≤ 1
  named : (∀ i task, s.tasks i = some task → task.notice = task.offer.notification) ∧
    ∀ x ∈ s.told, x.notice = x.offer.notification
  pending : ∀ offer ∈ s.offers, offer ∉ s.ended → ¬ s.Answered offer →
    ∀ key, s.held key = some (some offer) ↔ key = offer.notification.key
  declined : ∀ x ∈ s.told, x.reached = [] → (∀ i task, s.tasks i = some task → task.offer ≠ x.offer) → s.Declined x.offer
  statuses : ∀ x ∈ s.statuses, x.success = true ↔
    ∃ a ∈ s.answers, a.request = some x.requestId ∧ a.accept = x.response ∧ a.error = none

theorem answerable (hs : s.Sound) (hn : s.Noticed) (hr : s.Reported) : s.Answerable where
  once := List.nodup_iff_count_le_one.mp hs.once
  named := ⟨fun i task hi => (hn.tasks i task hi).1, hn.told⟩
  pending offer ho hended hun key := by
    constructor
    · intro hheld
      obtain ⟨other, -, hsome, hkey, -⟩ := hs.kept key _ hheld
      obtain rfl : offer = other := Option.some.inj hsome
      exact hkey.symm
    · rintro rfl
      exact hs.whole offer ho hended hun
  declined x hx hnone htasks := by
    refine (hn.reclaimed x hx hnone).resolve_right ?_
    rintro ⟨i, task, hi, hoffer, -⟩
    exact htasks i task hi hoffer
  statuses := hr.statuses

/-- Offers can be answered as long as each finds a place, none is removed with its peer's entry, and what no window was told of is
there to be declined. -/
theorem offers_answerable (s : Service) (run : Reaches step Meets (· = new) s) : s.Answerable := by
  have h : s.Sound ∧ s.Noticed ∧ s.Reported := by
    induction run with
    | start h =>
      subst h
      refine ⟨⟨?_, ?_, ?_, ?_, ?_⟩, ⟨?_, ?_, ?_⟩, ⟨?_, ?_, ?_⟩⟩
      all_goals simp [new, held]
    | step _ act hmeets ih =>
      obtain ⟨hs, hn, hr⟩ := ih
      exact ⟨sound_step hs act hmeets, noticed_step hs hn act hmeets, reported_step hs hr act⟩
  exact answerable h.1 h.2.1 h.2.2

theorem offers_answerable_accepted :
    let s := [Act.sessionOpens 1, .clients [7], .attach 1 [7], .install 1 2, .inbound ⟨1, 2, 1, 5⟩, .deliver 0,
      .respond 1 2 5 true none].foldl step new
    s.Answerable ∧ s.told = [⟨⟨1, 2, 1, 5⟩, ⟨1, 2, 5⟩, [7]⟩] ∧ s.statuses = [⟨1, 5, true, true, none, 0⟩] :=
  ⟨offers_answerable _ (reaches_foldl (by decide +kernel)), by decide +kernel, by decide +kernel⟩

theorem not_answerable (offer : ObjectTransferHandle) (ho : offer ∈ s.offers) (hended : offer ∉ s.ended) (hun : ¬ s.Answered offer)
    (hnone : s.held offer.notification.key = none) : ¬ s.Answerable := by
  intro h
  have hheld := (h.pending offer ho hended hun _).mpr rfl
  rw [hnone] at hheld
  exact nomatch hheld

/-- The server's offer is told to a window and kept nowhere: the window's answer finds none. So is that of a peer whose channel
is still to be installed. -/
theorem server_offer_is_lost :
    let told : Cid → Service := fun source =>
      [Act.sessionOpens 1, .clients [7], .attach 1 [7], .inbound ⟨1, source, 1, 5⟩, .deliver 0].foldl step new
    let answered : Cid → Service := fun source =>
      [Act.install 1 2, .respond 1 source 5 true none].foldl step (told source)
    (¬ (told 0).Answerable ∧ (told 0).told = [⟨⟨1, 0, 1, 5⟩, ⟨1, 0, 5⟩, [7]⟩] ∧
      (answered 0).statuses = [⟨1, 5, false, true, some "File transfer not found", 0⟩]) ∧
    (¬ (told 2).Answerable ∧ (told 2).told = [⟨⟨1, 2, 1, 5⟩, ⟨1, 2, 5⟩, [7]⟩] ∧
      (answered 2).statuses = [⟨1, 5, false, true, some "File transfer not found", 0⟩]) := by
  refine ⟨⟨?_, by decide +kernel, by decide +kernel⟩, ?_, by decide +kernel, by decide +kernel⟩
  · exact not_answerable ⟨1, 0, 1, 5⟩ (by decide +kernel) (by decide +kernel) (by decide +kernel) (by decide +kernel)
  · exact not_answerable ⟨1, 2, 1, 5⟩ (by decide +kernel) (by decide +kernel) (by decide +kernel) (by decide +kernel)

end Service

end CitadelAgent.Transfers.Offered
