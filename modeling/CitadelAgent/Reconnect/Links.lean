import CitadelAgent.Reconnect.Stranded

/-!
# What becomes of the links

* `Session.Kept` : a link that was opened is closed, installed, or in the hands of a task;
* `report_other` : a drop report of another instance changes nothing;
* `one_connect` : one SDK connect at a time, and every link goes into an entry that waits for it, or is closed.
-/

namespace CitadelAgent.Reconnect
open Function

def Pc.InHand (link : Nat) : Pc → Prop
  | .opened l => l = link
  | .ready l => l = link
  | .closing l _ => l = link
  | _ => False

namespace Session

def Kept (tasks : Nat → Option Task) (links : Nat) (closed : List Nat) (installed : List Installed) : Prop :=
  ∀ link, 0 < link → link < links →
    link ∈ closed ∨ (∃ x ∈ installed, x.instance_ = link) ∨ ∃ i t, tasks i = some t ∧ t.pc.InHand link

def AllOpen (_ : Session) : Act → Prop
  | .split _ ok => ok = true
  | _ => True

namespace Kept

variable {tasks : Nat → Option Task} {links : Nat} {closed : List Nat} {installed : List Installed} {i : Nat} {t : Task}

theorem change (h : Kept tasks links closed installed) (ht : tasks i = some t) {t' : Option Task}
    {closed' : List Nat} {installed' : List Installed} (hclosed : ∀ link ∈ closed, link ∈ closed')
    (hinstalled : ∀ x ∈ installed, x ∈ installed')
    (hhand : ∀ link, t.pc.InHand link → link ∈ closed' ∨ (∃ x ∈ installed', x.instance_ = link) ∨
      ∃ t₁, t' = some t₁ ∧ t₁.pc.InHand link) :
    Kept (update tasks i t') links closed' installed' := by
  intro link hpos hlt
  obtain hmem | ⟨x, hx, hlink⟩ | ⟨j, t₁, hj, hin⟩ := h link hpos hlt
  · exact .inl (hclosed link hmem)
  · exact .inr (.inl ⟨x, hinstalled x hx, hlink⟩)
  · by_cases hij : j = i
    · subst hij
      obtain rfl := Option.mem_unique ht hj
      refine (hhand link hin).imp_right (Or.imp_right ?_)
      rintro ⟨t₂, ht₂, hin₂⟩
      exact ⟨j, t₂, (update_self ..).trans ht₂, hin₂⟩
    · exact .inr (.inr ⟨j, t₁, (update_of_ne hij ..).trans hj, hin⟩)

theorem goOn (h : Kept tasks links closed installed) (ht : tasks i = some t) {pc : Pc}
    (hpc : ∀ link, t.pc.InHand link → pc.InHand link) :
    Kept (update tasks i (some { t with pc := pc })) links closed installed :=
  h.change ht (fun _ hmem => hmem) (fun _ hx => hx) fun link hin => .inr (.inr ⟨_, rfl, hpc link hin⟩)

theorem leave (h : Kept tasks links closed installed) (ht : tasks i = some t) (hpc : ∀ link, ¬t.pc.InHand link) :
    Kept (update tasks i none) links closed installed :=
  h.change ht (fun _ hmem => hmem) (fun _ hx => hx) fun link hin => absurd hin (hpc link)

theorem start (h : Kept tasks links closed installed) (hfree : tasks i = none) :
    Kept (update tasks i (some t)) links closed installed := by
  intro link hpos hlt
  refine (h link hpos hlt).imp_right (Or.imp_right ?_)
  rintro ⟨j, t₁, hj, hin⟩
  have hij : j ≠ i := by
    rintro rfl
    cases hfree.symm.trans hj
  exact ⟨j, t₁, (update_of_ne hij ..).trans hj, hin⟩

theorem connected (h : Kept tasks links closed installed) (ht : tasks i = some t) (hnone : ∀ link, ¬t.pc.InHand link)
    {pc : Pc} (hpc : pc.InHand links) : Kept (update tasks i (some { t with pc := pc })) (links + 1) closed installed := by
  intro link hpos hlt
  by_cases hlink : link = links
  · subst hlink
    exact .inr (.inr ⟨i, _, update_self .., hpc⟩)
  · exact h.change ht (fun _ hmem => hmem) (fun _ hx => hx) (fun link hin => absurd hin (hnone link)) link hpos (by omega)

end Kept

variable {s : Session}

theorem kept_step (h : s.Inv) (hkept : Kept s.tasks s.links s.closed s.installed) (act : Act) (hcond : s.AllOpen act) :
    Kept (s.step act).tasks (s.step act).links (s.step act).closed (s.step act).installed := by
  have hfree := h.tasks_started
  cases act with
  | report reported =>
    simp only [step, begin]
    split
    · exact hkept
    · split
      · exact hkept
      · exact hkept
  | spawn =>
    simp only [step]
    split
    · exact hkept
    · split
      · exact hkept
      · exact hkept.start hfree
  | remove => exact hkept
  | ending => exact hkept
  | unending => exact hkept
  | signIn =>
    simp only [step]
    split
    · exact hkept.start hfree
    · exact hkept
  | decline i =>
    simp only [step]
    split
    · rename_i ht
      exact hkept.leave ht fun _ hin => hin
    · exact hkept
  | mark i =>
    simp only [step]
    split
    · rename_i e ht he
      split
      · exact hkept.goOn ht fun _ hin => hin
      · exact hkept.leave ht fun _ hin => hin
    · rename_i ht hnone
      exact hkept.leave ht fun _ hin => hin
    · exact hkept
  | wake i =>
    simp only [step]
    split
    · rename_i ht he
      exact hkept.goOn ht fun _ hin => hin
    · rename_i ht hnone
      exact hkept.leave ht fun _ hin => hin
    · exact hkept
  | lock i =>
    simp only [step]
    split
    · rename_i ht hlocked
      exact hkept.goOn ht fun _ hin => hin
    · exact hkept
  | check i =>
    simp only [step]
    split
    · rename_i kind ht
      have hleave : Kept (s.leave i).tasks s.links s.closed s.installed := hkept.leave ht fun _ hin => hin
      have hgoes : ∀ pc, Kept (s.goTo i ⟨kind, .checking⟩ pc).tasks s.links s.closed s.installed :=
        fun pc => hkept.goOn ht fun _ hin => hin.elim
      unfold check
      split
      · exact hleave
      · split
        · split
          · exact hgoes _
          · exact hleave
        · split
          · exact hgoes _
          · exact hleave
    · exact hkept
  | answer i result =>
    simp only [step]
    split
    · rename_i kind ht
      cases result with
      | connected => exact hkept.connected ht (fun _ hin => hin) rfl
      | connectedAs => exact hkept.connected ht (fun _ hin => hin) rfl
      | failed retry =>
        simp only [answer]
        split
        · exact hkept.goOn ht fun _ hin => hin
        · exact hkept.goOn ht fun _ hin => hin
    · exact hkept
  | split i ok =>
    obtain rfl : ok = true := hcond
    simp only [step, if_true]
    split
    · rename_i kind link ht
      exact hkept.goOn ht fun _ hin => hin
    · exact hkept
  | admit_ i =>
    simp only [step]
    split
    · rename_i kind link ht
      have hcloses : Kept (s.goTo i ⟨kind, .ready link⟩ (.closing link false)).tasks s.links s.closed s.installed :=
        hkept.goOn ht fun _ hin => hin
      unfold admit_
      split
      · exact hcloses
      · split
        · refine hkept.change ht (fun _ hmem => hmem) (fun _ hx => List.mem_cons_of_mem _ hx) fun link' hin => ?_
          exact .inr (.inl ⟨_, List.mem_cons_self, hin⟩)
        · exact hcloses
    · exact hkept
  | closed i =>
    simp only [step]
    split
    · rename_i kind link failed ht
      have hcloses : ∀ t', Kept (update s.tasks i t') s.links (link :: s.closed) s.installed := by
        intro t'
        refine hkept.change ht (fun _ hmem => List.mem_cons_of_mem _ hmem) (fun _ hx => hx) fun link' hin => .inl ?_
        rw [← show link = link' from hin]
        exact List.mem_cons_self
      split
      · exact hcloses _
      · exact hcloses _
    · exact hkept
  | conclude i =>
    simp only [step]
    split
    · rename_i kind ht
      have hleave : Kept (s.leave i).tasks s.links s.closed s.installed := hkept.leave ht fun _ hin => hin
      unfold conclude
      split
      · exact hleave
      · rename_i e he
        split
        · split
          · exact hleave
          · exact hleave
        · split
          · have hfinishing : Kept (s.goTo i ⟨kind, .failing⟩ .finishing).tasks s.links s.closed s.installed :=
              hkept.goOn ht fun _ hin => hin
            refine hfinishing.start ?_
            have hne : s.started ≠ i := by
              rintro rfl
              cases hfree.symm.trans ht
            exact (update_of_ne hne ..).trans hfree
          · exact hleave
    · exact hkept
  | finish i =>
    simp only [step]
    split
    · rename_i kind ht
      exact hkept.leave ht fun _ hin => hin
    · exact hkept

theorem allOpen_linksOpen (s : Session) (act : Act) (h : s.AllOpen act) : s.LinksOpen act := by
  cases act with
  | split i ok =>
    intro hok
    cases hok.symm.trans h
  | _ => trivial

theorem kept_of_run (h : SessionRun AllOpen s) : Kept s.tasks s.links s.closed s.installed := by
  induction h with
  | new needsUser =>
    intro link hpos hlt
    have hlt : link < 1 := hlt
    omega
  | step act hrun hcond ih => exact kept_step (inv_of_run (hrun.mono allOpen_linksOpen)) ih act hcond

theorem report_other {e : Entry} (he : s.entry = some e) {reported : Nat} (hne : e.instance_ ≠ reported) :
    s.step (.report (some reported)) = s := by
  simp [step, begin, he, onReportedDrop, namesThisInstance, hne]

theorem Inv.connecting_unique (h : s.Inv) {i j : Nat} {t t' : Task} (ht : s.tasks i = some t)
    (ht' : s.tasks j = some t') (hpc : t.pc = .connecting) (hpc' : t'.pc = .connecting) : i = j := by
  have hi := h.places.holds ht (hpc ▸ trivial)
  have hj := h.places.holds ht' (hpc' ▸ trivial)
  exact Option.mem_unique hi hj

end Session

/-- In every run of a session in which every link can be opened, there is one SDK connect at a time, no link is lost
or installed but where it was wanted, and a drop report of another instance changes nothing. -/
theorem one_connect {s : Session} (h : SessionRun Session.AllOpen s) :
    (∀ i j t t', s.tasks i = some t → s.tasks j = some t' → t.pc = .connecting → t'.pc = .connecting → i = j) ∧
    (∀ x ∈ s.installed, x.Allowed) ∧
    (∀ link, 0 < link → link < s.links →
      link ∈ s.closed ∨ (∃ x ∈ s.installed, x.instance_ = link) ∨ ∃ i t, s.tasks i = some t ∧ t.pc.InHand link) ∧
    ∀ e reported, s.entry = some e → e.instance_ ≠ reported → s.step (.report (some reported)) = s := by
  have hinv := Session.inv_of_run (h.mono Session.allOpen_linksOpen)
  exact ⟨fun i j t t' ht ht' hpc hpc' => hinv.connecting_unique ht ht' hpc hpc', hinv.installed, Session.kept_of_run h,
    fun e reported he hne => Session.report_other he hne⟩

/-- A sign-in waits out an attempt, which lands; the session drops again, and its user ends it while the next attempt is
in flight. -/
def endedMidAttempt : Session :=
  [.report none, .spawn, .wake 0, .lock 0, .check 0, .signIn, .mark 1, .answer 0 .connected, .split 0 true, .admit_ 0,
    .finish 0, .lock 1, .check 1, .report (some 1), .spawn, .wake 2, .lock 2, .check 2, .answer 2 .connected, .remove,
    .split 2 true, .admit_ 2, .closed 2].foldl Session.step (.new false)

theorem one_connect_ended_mid_attempt : SessionRun Session.AllOpen endedMidAttempt ∧ endedMidAttempt.links = 3 ∧
    endedMidAttempt.closed = [2] ∧ ∀ x ∈ endedMidAttempt.installed, x.Allowed := by
  have hrun : SessionRun Session.AllOpen endedMidAttempt := by
    simp only [endedMidAttempt, List.foldl_cons, List.foldl_nil]
    exact .step _ (.step _ (.step _ (.step _ (.step _ (.step _ (.step _ (.step _ (.step _ (.step _ (.step _ (.step _
      (.step _ (.step _ (.step _ (.step _ (.step _ (.step _ (.step _ (.step _ (.step _ (.step _ (.step _
      (.new false) trivial) trivial) trivial) trivial) trivial) trivial) trivial) trivial) rfl) trivial) trivial) trivial)
      trivial) trivial) trivial) trivial) trivial) trivial) trivial) trivial) rfl) trivial) trivial
  exact ⟨hrun, by decide, by decide, (one_connect hrun).2.1⟩

/-- The link that a run has opened and could not split is neither installed nor closed, and no task has it. -/
theorem lost_link : SessionRun (fun _ _ => True) lostLink ∧ lostLink.links = 2 ∧ lostLink.closed = [] ∧
    lostLink.installed = [] ∧ ∀ i, lostLink.tasks i = none := by
  refine ⟨.foldl (.new false), by decide, by decide, by decide, fun i => ?_⟩
  match i with
  | 0 => rfl
  | n + 1 => rfl

end CitadelAgent.Reconnect
