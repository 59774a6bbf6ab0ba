import CitadelAgent.Lib.Updates
import CitadelAgent.Reconnect.Session

/-!
# Who brings a dropped session back

* `Session.Places` : a task that has the attempt lock is the only one, and so is a sign-in;
* `Session.Served` : an entry that waits for a link has a task that works on it;
* `Session.Inv` : both, along every run of the session in which no wanted link is lost as it is opened;
* `never_stranded` : the session is never left reconnecting, or signing in, with nobody at work on it.
-/

namespace CitadelAgent.Reconnect
open Function

inductive SessionRun (condition : Session → Act → Prop) : Session → Prop
  | new (needsUser : Bool) : SessionRun condition (.new needsUser)
  | step {s : Session} (act : Act) : SessionRun condition s → condition s act → SessionRun condition (s.step act)

variable {s : Session}

theorem SessionRun.mono {condition condition' : Session → Act → Prop} (h : SessionRun condition s)
    (hsub : ∀ s act, condition s act → condition' s act) : SessionRun condition' s := by
  induction h with
  | new needsUser => exact .new needsUser
  | step act _ hcond ih => exact .step act ih (hsub _ act hcond)

theorem SessionRun.foldl {acts : List Act} (h : SessionRun (fun _ _ => True) s) :
    SessionRun (fun _ _ => True) (acts.foldl Session.step s) := by
  induction acts generalizing s with
  | nil => exact h
  | cons act rest ih => exact ih (.step act h trivial)

/-- The entry waits for what a task of this kind does. -/
def Entry.Wants (e : Entry) : Kind → Prop
  | .run generation => e.link = .reconnecting ∧ e.generation = generation
  | .takeOver => e.link = .signingIn

theorem attemptWanted_iff {e : Entry} {generation : Nat} :
    attemptWanted e.link e.generation generation = true ↔ e.Wants (.run generation) := by
  simp [attemptWanted, Entry.Wants]

/-- The task is not done with the session: it will install a link, or else remove the entry or hand it on. -/
def Pc.Carries : Pc → Prop
  | .asked => False
  | .closing _ failed => failed = true
  | .finishing => False
  | _ => True

/-- The link went into an entry that waited for it, by the run that was wanted or by the sign-in that had marked it. -/
def Installed.Allowed (x : Installed) : Prop :=
  match x.kind with
  | .run generation => (x.linkBefore = .reconnecting ∨ x.linkBefore = .signingIn) ∧ x.generation = generation
  | .takeOver => x.linkBefore = .signingIn ∧ x.markedBy = some x.task

variable {pc : Pc}

namespace Session

structure Places (tasks : Nat → Option Task) (started : Nat) (attempt connectingUsername : Option Nat) : Prop where
  fresh : ∀ {i t}, tasks i = some t → i < started
  holds : ∀ {i t}, tasks i = some t → t.pc.Holds → attempt = some i
  single : ∀ {i t}, tasks i = some t → t.kind = .takeOver → connectingUsername = some i

structure Served (entry : Option Entry) (markedBy : Option Nat) (tasks : Nat → Option Task) (begun : Nat) : Prop where
  signingIn : ∀ {e}, entry = some e → e.link = .signingIn →
    ∃ i t, markedBy = some i ∧ tasks i = some t ∧ t.kind = .takeOver ∧ t.pc.Carries
  reconnecting : ∀ {e}, entry = some e → e.link = .reconnecting →
    0 < begun ∨ ∃ i t, tasks i = some t ∧ t.kind = .run e.generation ∧ t.pc.Carries

structure Inv (s : Session) : Prop where
  places : Places s.tasks s.started s.attempt s.connectingUsername
  served : Served s.entry s.markedBy s.tasks s.begun
  installed : ∀ x ∈ s.installed, x.Allowed

def LinksOpen (s : Session) : Act → Prop
  | .split i ok => ok = false → ∀ t e, s.tasks i = some t → s.entry = some e → ¬e.Wants t.kind
  | _ => True

namespace Places

variable {tasks : Nat → Option Task} {started : Nat} {attempt connectingUsername : Option Nat} {i : Nat} {t : Task}

theorem goTo (h : Places tasks started attempt connectingUsername) (ht : tasks i = some t) {attempt' : Option Nat}
    (hpc : pc.Holds → attempt' = some i) (hothers : ∀ j t', j ≠ i → tasks j = some t' → t'.pc.Holds → attempt' = some j) :
    Places (update tasks i (some { t with pc := pc })) started attempt' connectingUsername := by
  refine ⟨fun {j t'} hj => ?_, fun {j t'} hj hholds => ?_, fun {j t'} hj hkind => ?_⟩
  · rcases of_update_some hj with ⟨rfl, -⟩ | ⟨-, hj⟩
    · exact h.fresh ht
    · exact h.fresh hj
  · rcases of_update_some hj with ⟨rfl, rfl⟩ | ⟨hij, hj⟩
    · exact hpc hholds
    · exact hothers j t' hij hj hholds
  · rcases of_update_some hj with ⟨rfl, rfl⟩ | ⟨-, hj⟩
    · exact h.single ht hkind
    · exact h.single hj hkind

theorem goOn (h : Places tasks started attempt connectingUsername) (ht : tasks i = some t) (hpc : pc.Holds → t.pc.Holds) :
    Places (update tasks i (some { t with pc := pc })) started attempt connectingUsername :=
  h.goTo ht (fun hp => h.holds ht (hpc hp)) fun _ _ _ hj hp => h.holds hj hp

theorem leave (h : Places tasks started attempt connectingUsername) :
    Places (update tasks i none) started (if attempt = some i then none else attempt)
      (if connectingUsername = some i then none else connectingUsername) := by
  refine ⟨fun hj => h.fresh (of_update_none hj).2, fun hj hholds => ?_, fun hj hkind => ?_⟩
  · obtain ⟨hij, hj⟩ := of_update_none hj
    rw [h.holds hj hholds, if_neg]
    exact fun heq => hij (Option.some.inj heq)
  · obtain ⟨hij, hj⟩ := of_update_none hj
    rw [h.single hj hkind, if_neg]
    exact fun heq => hij (Option.some.inj heq)

theorem start (h : Places tasks started attempt connectingUsername) {connectingUsername' : Option Nat}
    (hpc : ¬t.pc.Holds) (hkind : t.kind = .takeOver → connectingUsername' = some started)
    (hothers : ∀ j t', tasks j = some t' → t'.kind = .takeOver → connectingUsername' = some j) :
    Places (update tasks started (some t)) (started + 1) attempt connectingUsername' := by
  refine ⟨fun hj => ?_, fun hj hholds => ?_, fun hj hk => ?_⟩
  · obtain ⟨rfl, -⟩ | ⟨-, hj⟩ := of_update_some hj
    · exact Nat.lt_succ_self _
    · exact Nat.lt_succ_of_lt (h.fresh hj)
  · obtain ⟨-, rfl⟩ | ⟨-, hj⟩ := of_update_some hj
    · exact absurd hholds hpc
    · exact h.holds hj hholds
  · obtain ⟨rfl, rfl⟩ | ⟨-, hj⟩ := of_update_some hj
    · exact hkind hk
    · exact hothers _ _ hj hk

theorem startRun (h : Places tasks started attempt connectingUsername) (generation : Nat) :
    Places (update tasks started (some ⟨.run generation, .sleeping⟩)) (started + 1) attempt connectingUsername :=
  h.start (fun hp => hp) (nofun) fun _ _ hj hk => h.single hj hk

theorem startSignIn (h : Places tasks started attempt none) :
    Places (update tasks started (some ⟨.takeOver, .asked⟩)) (started + 1) attempt (some started) :=
  h.start (fun hp => hp) (fun _ => rfl) fun _ _ hj hk => (nomatch h.single hj hk)

theorem lock (h : Places tasks started none connectingUsername) (ht : tasks i = some t) :
    Places (update tasks i (some { t with pc := pc })) started (some i) connectingUsername :=
  h.goTo ht (fun _ => rfl) fun _ _ _ hj hp => (nomatch h.holds hj hp)

theorem unlock (h : Places tasks started attempt connectingUsername) (ht : tasks i = some t) (hholds : t.pc.Holds)
    (hpc : ¬pc.Holds) :
    Places (update tasks i (some { t with pc := pc })) started none connectingUsername := by
  refine h.goTo ht (fun hp => absurd hp hpc) fun j t' hij hj hp => ?_
  have hlocked := h.holds ht hholds
  rw [h.holds hj hp] at hlocked
  exact absurd (Option.some.inj hlocked) hij

end Places

theorem places_step (h : Places s.tasks s.started s.attempt s.connectingUsername) (act : Act) :
    Places (s.step act).tasks (s.step act).started (s.step act).attempt (s.step act).connectingUsername := by
  cases act with
  | report reported =>
    simp only [step, begin]
    split
    · exact h
    · split
      · exact h
      · exact h
  | spawn =>
    simp only [step]
    split
    · exact h
    · split
      · exact h
      · exact h.startRun _
  | remove => exact h
  | ending => exact h
  | unending => exact h
  | signIn =>
    simp only [step]
    split
    · rename_i hnone
      rw [hnone] at h
      exact h.startSignIn
    · exact h
  | decline i =>
    simp only [step]
    split
    · exact h.leave
    · exact h
  | mark i =>
    simp only [step]
    split
    · rename_i e ht he
      split
      · exact h.goOn ht fun hp => hp
      · exact h.leave
    · exact h.leave
    · exact h
  | wake i =>
    simp only [step]
    split
    · rename_i ht he
      exact h.goOn ht fun hp => hp
    · exact h.leave
    · exact h
  | lock i =>
    simp only [step]
    split
    · rename_i ht hfree
      rw [hfree] at h
      exact h.lock ht
    · exact h
  | check i =>
    simp only [step]
    split
    · rename_i kind ht
      unfold check
      split
      · exact h.leave
      · split
        · split
          · exact h.goOn ht fun _ => trivial
          · exact h.leave
        · split
          · exact h.goOn ht fun _ => trivial
          · exact h.leave
    · exact h
  | answer i result =>
    simp only [step]
    split
    · rename_i kind ht
      cases result with
      | connected => exact h.goOn ht fun _ => trivial
      | connectedAs => exact h.goOn ht fun _ => trivial
      | failed retry =>
        simp only [answer]
        split
        · exact h.unlock ht trivial fun hp => hp
        · exact h.goOn ht fun _ => trivial
    · exact h
  | split i ok =>
    simp only [step]
    split
    · rename_i kind link ht
      split
      · exact h.goOn ht fun _ => trivial
      · exact h.leave
    · exact h
  | admit_ i =>
    simp only [step]
    split
    · rename_i kind link ht
      unfold admit_
      split
      · exact h.goOn ht fun _ => trivial
      · split
        · exact h.goOn ht fun _ => trivial
        · exact h.goOn ht fun _ => trivial
    · exact h
  | closed i =>
    simp only [step]
    split
    · rename_i kind link failed ht
      split
      · exact h.goOn ht fun _ => trivial
      · exact h.leave
    · exact h
  | conclude i =>
    simp only [step]
    split
    · rename_i kind ht
      unfold conclude
      split
      · exact h.leave
      · split
        · split
          · exact h.leave
          · exact h.leave
        · split
          · exact (h.goOn ht fun _ => trivial).startRun _
          · exact h.leave
    · exact h
  | finish i =>
    simp only [step]
    split
    · exact h.leave
    · exact h

namespace Served

variable {entry : Option Entry} {markedBy : Option Nat} {tasks : Nat → Option Task} {begun i : Nat} {t : Task}

theorem idle (h : ∀ e, entry = some e → e.link ≠ .signingIn ∧ e.link ≠ .reconnecting) :
    Served entry markedBy tasks begun :=
  ⟨fun he hlink => absurd hlink (h _ he).1, fun he hlink => absurd hlink (h _ he).2⟩

theorem move {tasks' : Nat → Option Task} (h : Served entry markedBy tasks begun)
    (hmove : ∀ e j t, entry = some e → e.Wants t.kind → tasks j = some t → t.pc.Carries →
      ∃ t', tasks' j = some t' ∧ t'.kind = t.kind ∧ t'.pc.Carries) : Served entry markedBy tasks' begun := by
  refine ⟨fun {e} he hlink => ?_, fun {e} he hlink => (h.reconnecting he hlink).imp_right ?_⟩
  · obtain ⟨j, t, hmark, hj, hkind, hcarries⟩ := h.signingIn he hlink
    obtain ⟨t', hj', hkind', hcarries'⟩ := hmove e j t he (hkind ▸ hlink) hj hcarries
    exact ⟨j, t', hmark, hj', hkind'.trans hkind, hcarries'⟩
  · rintro ⟨j, t, hj, hkind, hcarries⟩
    obtain ⟨t', hj', hkind', hcarries'⟩ := hmove e j t he (hkind ▸ ⟨hlink, rfl⟩) hj hcarries
    exact ⟨j, t', hj', hkind'.trans hkind, hcarries'⟩

theorem goTo (h : Served entry markedBy tasks begun) (ht : tasks i = some t)
    (hpc : ∀ e, entry = some e → e.Wants t.kind → t.pc.Carries → pc.Carries) :
    Served entry markedBy (update tasks i (some { t with pc := pc })) begun := by
  refine h.move fun e j t' he hwants hj hcarries => ?_
  by_cases hij : j = i
  · subst hij
    obtain rfl := Option.mem_unique ht hj
    exact ⟨_, update_self .., rfl, hpc e he hwants hcarries⟩
  · exact ⟨t', (update_of_ne hij ..).trans hj, rfl, hcarries⟩

theorem leave (h : Served entry markedBy tasks begun) (ht : tasks i = some t)
    (hnot : ∀ e, entry = some e → e.Wants t.kind → ¬t.pc.Carries) :
    Served entry markedBy (update tasks i none) begun := by
  refine h.move fun e j t' he hwants hj hcarries => ⟨t', (update_of_ne ?_ ..).trans hj, rfl, hcarries⟩
  rintro rfl
  obtain rfl := Option.mem_unique ht hj
  exact hnot e he hwants hcarries

theorem start (h : Served entry markedBy tasks begun) (hfree : tasks i = none) :
    Served entry markedBy (update tasks i (some t)) begun := by
  refine h.move fun e j t' he hwants hj hcarries => ⟨t', (update_of_ne ?_ ..).trans hj, rfl, hcarries⟩
  rintro rfl
  cases hfree.symm.trans hj

theorem changeEntry (h : Served entry markedBy tasks begun) {entry' : Option Entry}
    (hentry : ∀ e, entry' = some e → e.link = .signingIn ∨ e.link = .reconnecting → entry = some e) :
    Served entry' markedBy tasks begun :=
  ⟨fun he hlink => h.signingIn (hentry _ he (.inl hlink)) hlink,
    fun he hlink => h.reconnecting (hentry _ he (.inr hlink)) hlink⟩

end Served

namespace Inv

variable {s : Session} {i : Nat} {t : Task}

theorem tasks_started (h : s.Inv) : s.tasks s.started = none := by
  cases ht : s.tasks s.started with
  | none => rfl
  | some t => exact absurd (h.places.fresh ht) (Nat.lt_irrefl _)

theorem removeEntry (h : s.Inv) : Inv { s with entry := none } :=
  { h with served := .idle nofun }

theorem goOn (h : s.Inv) (ht : s.tasks i = some t) (hholds : pc.Holds → t.pc.Holds)
    (hcarries : ∀ e, s.entry = some e → e.Wants t.kind → t.pc.Carries → pc.Carries) : (s.goTo i t pc).Inv :=
  { h with places := h.places.goOn ht hholds, served := h.served.goTo ht hcarries }

theorem leave (h : s.Inv) (ht : s.tasks i = some t) (hnot : ∀ e, s.entry = some e → e.Wants t.kind → ¬t.pc.Carries) :
    (s.leave i).Inv :=
  { h with places := h.places.leave, served := h.served.leave ht hnot }

theorem report (h : s.Inv) (reported : Option Nat) : (s.step (.report reported)).Inv := by
  simp only [Session.step, Session.begin]
  split
  · exact h
  · split
    · refine { h with served := ⟨fun he hlink => ?_, fun _ _ => .inl (Nat.succ_pos _)⟩ }
      obtain rfl := Option.some.inj he
      cases hlink
    · exact h

theorem startRun (h : s.Inv) (generation : Nat) : (s.start ⟨.run generation, .sleeping⟩).Inv :=
  { h with
    places := h.places.startRun generation
    served := h.served.start h.tasks_started }

theorem spawn (h : s.Inv) : (s.step .spawn).Inv := by
  simp only [Session.step]
  split
  · exact h
  · split
    · rename_i hnone
      exact { h with served := .idle fun e he => (nomatch hnone.symm.trans he) }
    · rename_i e he
      have hstart := h.startRun e.generation
      refine { hstart with served := ⟨hstart.served.signingIn, fun {e'} he' _ => .inr ?_⟩ }
      obtain rfl := Option.mem_unique he he'
      exact ⟨s.started, _, update_self .., rfl, trivial⟩

theorem ending (h : s.Inv) : (s.step .ending).Inv := by
  refine { h with served := h.served.changeEntry fun e he hlink => ?_ }
  obtain ⟨e', he', rfl⟩ := Option.map_eq_some_iff.mp he
  split at hlink
  · exact hlink.elim (nofun) (nofun)
  · rename_i hup
    rw [if_neg hup]
    exact he'

theorem unending (h : s.Inv) : (s.step .unending).Inv := by
  refine { h with served := h.served.changeEntry fun e he hlink => ?_ }
  obtain ⟨e', he', rfl⟩ := Option.map_eq_some_iff.mp he
  split at hlink
  · exact hlink.elim (nofun) (nofun)
  · rename_i hending
    rw [if_neg hending]
    exact he'

theorem signIn (h : s.Inv) : (s.step .signIn).Inv := by
  simp only [Session.step]
  split
  · rename_i hnone
    have hplaces := h.places
    rw [hnone] at hplaces
    exact { h with places := hplaces.startSignIn, served := h.served.start h.tasks_started }
  · exact h

theorem mark (h : s.Inv) : (s.step (.mark i)).Inv := by
  simp only [Session.step]
  split
  · rename_i e ht he
    split
    · refine { h with
        places := h.places.goOn ht fun hp => hp
        served := ⟨fun _ _ => ⟨i, _, rfl, update_self .., rfl, trivial⟩, fun he' hlink => ?_⟩ }
      obtain rfl := Option.some.inj he'
      cases hlink
    · exact h.leave ht fun _ _ _ hcarries => hcarries
  · rename_i ht hnone
    exact h.leave ht fun _ _ _ hcarries => hcarries
  · exact h

theorem wake (h : s.Inv) : (s.step (.wake i)).Inv := by
  simp only [Session.step]
  split
  · rename_i ht he
    exact h.goOn ht (fun hp => hp) fun _ _ _ _ => trivial
  · rename_i ht hnone
    exact h.leave ht fun e he => (nomatch hnone.symm.trans he)
  · exact h

theorem lock (h : s.Inv) : (s.step (.lock i)).Inv := by
  simp only [Session.step]
  split
  · rename_i kind ht hfree
    have hplaces := h.places
    rw [hfree] at hplaces
    exact { h with places := hplaces.lock ht, served := h.served.goTo ht fun _ _ _ _ => trivial }
  · exact h

theorem check (h : s.Inv) : (s.step (.check i)).Inv := by
  simp only [Session.step]
  split
  · rename_i kind ht
    unfold Session.check
    split
    · rename_i hnone
      exact h.leave ht fun e he => (nomatch hnone.symm.trans he)
    · rename_i e he
      cases kind with
      | run generation =>
        simp only
        split
        · refine h.goOn ht (fun _ => trivial) fun _ _ _ _ => ?_
          split
          · trivial
          · trivial
        · rename_i hunwanted
          refine h.leave ht fun e' he' hwants => ?_
          obtain rfl := Option.mem_unique he he'
          exact absurd (attemptWanted_iff.mpr hwants) hunwanted
      | takeOver =>
        simp only
        split
        · exact h.goOn ht (fun _ => trivial) fun _ _ _ _ => trivial
        · rename_i hlink
          refine h.leave ht fun e' he' hwants => ?_
          obtain rfl := Option.mem_unique he he'
          exact absurd hwants hlink
  · exact h

theorem answer (h : s.Inv) (result : SdkResult) : (s.step (.answer i result)).Inv := by
  simp only [Session.step]
  split
  · rename_i kind ht
    cases result with
    | connected =>
      exact { h with
        places := h.places.goOn ht fun _ => trivial
        served := h.served.goTo ht fun _ _ _ _ => trivial }
    | connectedAs =>
      exact { h with
        places := h.places.goOn ht fun _ => trivial
        served := h.served.goTo ht fun _ _ _ _ => rfl }
    | failed retry =>
      simp only [Session.answer]
      split
      · rename_i generation
        exact { h with
          places := h.places.unlock ht trivial fun hp => hp
          served := h.served.goTo ht fun _ _ _ _ => trivial }
      · exact h.goOn ht (fun _ => trivial) fun _ _ _ _ => trivial
  · exact h

theorem split (h : s.Inv) {ok : Bool} (hcond : s.LinksOpen (.split i ok)) : (s.step (.split i ok)).Inv := by
  simp only [Session.step]
  split
  · rename_i kind link ht
    split
    · exact h.goOn ht (fun _ => trivial) fun _ _ _ _ => trivial
    · rename_i hok
      exact h.leave ht fun e he hwants => absurd hwants (hcond (by simpa using hok) _ e ht he)
  · exact h

theorem markedBy_of_signingIn (h : s.Inv) {e : Entry} (he : s.entry = some e) (hlink : e.link = .signingIn)
    (ht : s.tasks i = some t) (hkind : t.kind = .takeOver) : s.markedBy = some i := by
  obtain ⟨j, t', hmark, hj, hkind', -⟩ := h.served.signingIn he hlink
  have husername := h.places.single ht hkind
  rw [h.places.single hj hkind'] at husername
  rw [hmark, husername]

theorem admit_ (h : s.Inv) : (s.step (.admit_ i)).Inv := by
  simp only [Session.step]
  split
  · rename_i kind link ht
    unfold Session.admit_
    split
    · rename_i hnone
      exact h.goOn ht (fun _ => trivial) fun e he => (nomatch hnone.symm.trans he)
    · rename_i e he
      split
      · rename_i hadmits
        refine ⟨h.places.goOn ht fun _ => trivial, .idle fun e' he' => ?_, fun x hx => ?_⟩
        · obtain rfl := Option.some.inj he'
          exact ⟨nofun, nofun⟩
        · obtain rfl | hx := List.mem_cons.mp hx
          · cases kind with
            | run generation => simpa [admits, attemptInstalls, Installed.Allowed] using hadmits
            | takeOver =>
              have hlink : e.link = .signingIn := by simpa [admits] using hadmits
              exact ⟨hlink, h.markedBy_of_signingIn he hlink ht rfl⟩
          · exact h.installed x hx
      · rename_i hadmits
        refine h.goOn ht (fun _ => trivial) fun e' he' hwants => ?_
        obtain rfl := Option.mem_unique he he'
        refine absurd ?_ hadmits
        cases kind with
        | run generation => simp [admits, attemptInstalls, hwants.1, hwants.2]
        | takeOver => simp [admits, show e.link = .signingIn from hwants]
  · exact h

theorem closed (h : s.Inv) : (s.step (.closed i)).Inv := by
  simp only [Session.step]
  split
  · rename_i kind link failed ht
    split
    · exact { h with
        places := h.places.goOn ht fun _ => trivial
        served := h.served.goTo ht fun _ _ _ _ => trivial }
    · rename_i hfailed
      exact { h with
        places := h.places.leave
        served := h.served.leave ht fun _ _ _ hcarries => hfailed hcarries }
  · exact h

theorem conclude (h : s.Inv) : (s.step (.conclude i)).Inv := by
  simp only [Session.step]
  split
  · rename_i kind ht
    unfold Session.conclude
    split
    · rename_i hnone
      exact h.leave ht fun e he => (nomatch hnone.symm.trans he)
    · rename_i e he
      cases kind with
      | run generation =>
        simp only
        split
        · exact h.removeEntry.leave ht fun e he => (nomatch he)
        · rename_i hunwanted
          refine h.leave ht fun e' he' hwants => ?_
          obtain rfl := Option.mem_unique he he'
          exact absurd hwants hunwanted
      | takeOver =>
        simp only
        split
        · have hgone : Inv ({ s with entry := none }.goTo i ⟨.takeOver, .failing⟩ .finishing) :=
            h.removeEntry.goOn ht (fun _ => trivial) fun e he => (nomatch he)
          have hstart := hgone.startRun (e.generation + 1)
          refine { hstart with served := ⟨fun he' hlink => ?_, fun he' _ => .inr ?_⟩ }
          · obtain rfl := Option.some.inj he'
            cases hlink
          · obtain rfl := Option.some.inj he'
            exact ⟨s.started, _, update_self .., rfl, trivial⟩
        · rename_i hlink
          refine h.leave ht fun e' he' hwants => ?_
          obtain rfl := Option.mem_unique he he'
          exact absurd hwants hlink
  · exact h

theorem step (h : s.Inv) (act : Act) (hcond : s.LinksOpen act) : (s.step act).Inv := by
  cases act with
  | report reported => exact h.report reported
  | spawn => exact h.spawn
  | remove => exact h.removeEntry
  | ending => exact h.ending
  | unending => exact h.unending
  | signIn => exact h.signIn
  | decline i =>
    simp only [Session.step]
    split
    · rename_i ht
      exact h.leave ht fun _ _ _ hcarries => hcarries
    · exact h
  | mark i => exact h.mark
  | wake i => exact h.wake
  | lock i => exact h.lock
  | check i => exact h.check
  | answer i result => exact h.answer result
  | split i ok => exact h.split hcond
  | admit_ i => exact h.admit_
  | closed i => exact h.closed
  | conclude i => exact h.conclude
  | finish i =>
    simp only [Session.step]
    split
    · rename_i kind ht
      exact h.leave ht fun _ _ _ hcarries => hcarries
    · exact h

end Inv

theorem inv_new (needsUser : Bool) : (new needsUser).Inv where
  places := ⟨nofun, nofun, nofun⟩
  served := .idle fun e he => by
    obtain rfl := Option.some.inj he
    exact ⟨nofun, nofun⟩
  installed _ hx := nomatch hx

theorem inv_of_run (h : SessionRun LinksOpen s) : s.Inv := by
  induction h with
  | new needsUser => exact inv_new needsUser
  | step act _ hcond ih => exact ih.step act hcond

end Session

/-- In every run of a session in which a link that is wanted can be opened, an entry that is reconnecting has a run of
its generation, and one that is being signed in to has the sign-in at work. -/
theorem never_stranded {s : Session} (h : SessionRun Session.LinksOpen s) {e : Entry} (he : s.entry = some e) :
    (e.link = .reconnecting → 0 < s.begun ∨ ∃ i t, s.tasks i = some t ∧ t.kind = .run e.generation ∧ t.pc.Carries) ∧
    (e.link = .signingIn → ∃ i t, s.tasks i = some t ∧ t.kind = .takeOver ∧ t.pc.Carries) := by
  have hserved := (Session.inv_of_run h).served
  refine ⟨hserved.reconnecting he, fun hlink => ?_⟩
  obtain ⟨i, t, -, ht, hkind, hcarries⟩ := hserved.signingIn he hlink
  exact ⟨i, t, ht, hkind, hcarries⟩

def handedBack : Session :=
  [.report none, .spawn, .wake 0, .lock 0, .check 0, .answer 0 (.failed true), .signIn, .mark 1, .lock 1, .check 1,
    .answer 1 (.failed false), .conclude 1].foldl Session.step (.new false)

theorem never_stranded_handed_back :
    handedBack.entry = some ⟨.reconnecting, 2, 0, false⟩ ∧
    (0 < handedBack.begun ∨ ∃ i t, handedBack.tasks i = some t ∧ t.kind = .run 2 ∧ t.pc.Carries) := by
  have hrun : SessionRun Session.LinksOpen handedBack := by
    simp only [handedBack, List.foldl_cons, List.foldl_nil]
    exact .step _ (.step _ (.step _ (.step _ (.step _ (.step _ (.step _ (.step _ (.step _ (.step _ (.step _ (.step _
      (.new false) trivial) trivial) trivial) trivial) trivial) trivial) trivial) trivial) trivial) trivial) trivial)
      trivial
  have he : handedBack.entry = some ⟨.reconnecting, 2, 0, false⟩ := by decide
  exact ⟨he, (never_stranded hrun he).1 rfl⟩

def lostLink : Session :=
  [.report none, .spawn, .wake 0, .lock 0, .check 0, .answer 0 .connected, .split 0 false].foldl Session.step (.new false)

def lostSignIn : Session :=
  [.report none, .spawn, .signIn, .mark 1, .lock 1, .check 1, .answer 1 .connected, .split 1 false, .wake 0, .lock 0,
    .check 0].foldl Session.step (.new false)

/-- The first session is left reconnecting, the second signing in, and no task is left in either. -/
theorem lost_link_strands :
    (SessionRun (fun _ _ => True) lostLink ∧ lostLink.entry = some ⟨.reconnecting, 1, 0, false⟩ ∧ lostLink.begun = 0 ∧
      ∀ i, lostLink.tasks i = none) ∧
    SessionRun (fun _ _ => True) lostSignIn ∧ lostSignIn.entry = some ⟨.signingIn, 1, 0, false⟩ ∧
      ∀ i, lostSignIn.tasks i = none := by
  refine ⟨⟨.foldl (.new false), by decide, by decide, fun i => ?_⟩, .foldl (.new false), by decide, fun i => ?_⟩
  · match i with
    | 0 => rfl
    | n + 1 => rfl
  · match i with
    | 0 => rfl
    | 1 => rfl
    | n + 2 => rfl

end CitadelAgent.Reconnect
