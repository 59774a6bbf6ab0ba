import CitadelAgent.Reconnect.Stranded

/-!
# A sign-in to an account that has a session

`reconnect/sign_in.rs`, `credential_fingerprint.rs` and the second guard of `requests/connect.rs`: a Connect reads the
entry's link, asks the SDK whether it holds the session, derives the password's fingerprint, and acts on what it knows,
while the entry goes on changing.

* `Handling.step` : the handler's critical sections among the steps of the session;
* `costs_no_session` : a Connect with a wrong password does nothing to an entry that waits for a link, or whose session
  the SDK holds, as long as the entry was not dropped between its being read and its being removed.
-/

namespace CitadelAgent.Reconnect
open Function

/-- What the agent knows about the session when the sign-in arrives. -/
inductive Tracked
  | live
  | reconnecting
  /-- The agent lists it, the SDK does not, and nothing is reconnecting it. -/
  | stale

def tracked (link : LinkState) (sdkHolds : Bool) : Tracked :=
  match link, sdkHolds with
  | .reconnecting, _ => .reconnecting
  | .signingIn, _ => .reconnecting
  | _, true => .live
  | _, false => .stale

inductive SignIn
  | refuse
  | alreadyActive
  | takeOverReconnect
  | replaceStale

def onSignIn : Tracked → Bool → SignIn
  | .stale, _ => .replaceStale
  | .live, false => .refuse
  | .reconnecting, false => .refuse
  | .live, true => .alreadyActive
  | .reconnecting, true => .takeOverReconnect

/-- `credential_fingerprint::matches` -/
def credentialMatches : Option (List UInt8) → Option (List UInt8) → Bool
  | some recorded, some presented =>
      recorded.length == presented.length &&
        (recorded.zip presented).foldl (fun (difference : UInt8) (a, b) => difference ||| (a ^^^ b)) 0 == 0
  | _, _ => false

inductive ConnectPc
  | idle
  | asking (link : LinkState) (generation : Nat)
  | proving (tracked : Tracked) (generation : Nat)
  | acting (action : SignIn) (generation : Nat)

inductive Touch
  | removed
  | rePointed
  | handedOver
  deriving DecidableEq

/-- What the handler did to the entry: its link at that moment, and whether the SDK held the session. -/
structure Effect where
  touch : Touch
  link : LinkState
  held : Bool
  deriving DecidableEq

structure Handling where
  session : Session
  held : List Nat
  fingerprint : Option (List UInt8)
  presented : Option (List UInt8)
  connect : ConnectPc
  effects : List Effect

inductive HandlingAct
  | session (act : Act)
  | sdkEnds (link : Nat)
  | read (presented : Option (List UInt8))
  /-- It is told what the SDK holds, or that this is not known. -/
  | ask (ok : Bool)
  /-- The fingerprint is derived and compared; the caller may be a page older than the agent's hosting. -/
  | prove (olderPage : Bool)
  | act

namespace Handling

def new (needsUser : Bool) (fingerprint : Option (List UInt8)) : Handling :=
  ⟨.new needsUser, [0], fingerprint, none, .idle, []⟩

/-- `sessions.iter().any(|sess| sess.cid == cid)` -/
def sdkHolds (s : Handling) : Bool := !s.held.isEmpty

/-- What the step of a task does in the SDK. -/
def heldAfter (s : Handling) : Act → List Nat
  | .answer i .connected =>
      match s.session.tasks i with
      | some ⟨_, .connecting⟩ => s.session.links :: s.held
      | _ => s.held
  | .closed i =>
      match s.session.tasks i with
      | some ⟨_, .closing link _⟩ => s.held.filter (· ≠ link)
      | _ => s.held
  | _ => s.held

def authorized (s : Handling) (t : Tracked) : Bool :=
  match t with
  | .stale => false
  | _ => s.session.entry.isSome && credentialMatches s.fingerprint s.presented

def touch (t : Touch) (s : Handling) : Handling :=
  match s.session.entry with
  | none => s
  | some e => { s with effects := ⟨t, e.link, s.sdkHolds⟩ :: s.effects }

def perform (s : Handling) : SignIn → Handling
  | .refuse => s
  | .alreadyActive => s.touch .rePointed
  | .takeOverReconnect => s.touch .handedOver
  | .replaceStale => { s.touch .removed with session := s.session.step .remove }

def step (s : Handling) : HandlingAct → Handling
  | .session act => { s with session := s.session.step act, held := s.heldAfter act }
  | .sdkEnds link => { s with held := s.held.filter (· ≠ link) }
  | .read presented =>
      match s.connect, s.session.entry with
      | .idle, some e => { s with presented := presented, connect := .asking e.link e.generation }
      | _, _ => s
  | .ask ok =>
      match s.connect with
      | .asking .reconnecting generation => { s with connect := .proving (tracked .reconnecting false) generation }
      | .asking .signingIn generation => { s with connect := .proving (tracked .signingIn false) generation }
      | .asking link generation =>
          { s with connect := if ok = true then .proving (tracked link s.sdkHolds) generation else .idle }
      | _ => s
  | .prove olderPage =>
      match s.connect with
      | .proving t generation =>
          { s with
            connect :=
              if s.authorized t = true ∧ olderPage = true then .idle
              else .acting (onSignIn t (s.authorized t)) generation }
      | _ => s
  | .act =>
      match s.connect with
      | .acting action _ => { s.perform action with connect := .idle }
      | _ => s

end Handling

/-! ## What a step may do to the entry -/

def Entry.Settled (e : Entry) : Prop := e.link = .up ∨ e.link = .ending

theorem Entry.Settled.not_waits {e : Entry} (h : e.Settled) : ¬e.Waits := by
  rintro (hw | hw)
  · exact h.elim (fun hl => nomatch hl.symm.trans hw) fun hl => nomatch hl.symm.trans hw
  · exact h.elim (fun hl => nomatch hl.symm.trans hw) fun hl => nomatch hl.symm.trans hw

structure Entry.Later (e e' : Entry) : Prop where
  generation : e.generation ≤ e'.generation
  settled : e'.generation = e.generation → e.Settled → e'.Settled

theorem Entry.Later.refl (e : Entry) : e.Later e := ⟨Nat.le_refl _, fun _ h => h⟩

namespace Session

variable {s : Session}

theorem entry_step (act : Act) {e' : Entry} (he' : (s.step act).entry = some e') :
    ∃ e, s.entry = some e ∧ e.Later e' := by
  have hsame : ∀ {e'}, s.entry = some e' → ∃ e, s.entry = some e ∧ e.Later e' := fun he => ⟨_, he, .refl _⟩
  cases act with
  | report reported =>
    simp only [step, begin] at he'
    split at he'
    · exact hsame he'
    · rename_i e he
      split at he'
      · obtain rfl := Option.some.inj he'
        exact ⟨e, he, Nat.le_succ _, fun hg => absurd hg (Nat.succ_ne_self _)⟩
      · exact hsame he'
  | spawn =>
    simp only [step] at he'
    split at he'
    · exact hsame he'
    · split at he'
      · exact hsame he'
      · exact hsame he'
  | remove => cases he'
  | ending =>
    obtain ⟨e, he, rfl⟩ := Option.map_eq_some_iff.mp he'
    refine ⟨e, he, ?_⟩
    split
    · exact ⟨Nat.le_refl _, fun _ _ => .inr rfl⟩
    · exact .refl e
  | unending =>
    obtain ⟨e, he, rfl⟩ := Option.map_eq_some_iff.mp he'
    refine ⟨e, he, ?_⟩
    split
    · exact ⟨Nat.le_refl _, fun _ _ => .inl rfl⟩
    · exact .refl e
  | signIn =>
    simp only [step] at he'
    split at he'
    · exact hsame he'
    · exact hsame he'
  | decline i =>
    simp only [step] at he'
    split at he'
    · exact hsame he'
    · exact hsame he'
  | mark i =>
    simp only [step] at he'
    split at he'
    · rename_i e ht he
      split at he'
      · rename_i hmay
        obtain rfl := Option.some.inj he'
        have hlink : e.link = .reconnecting := by simpa [mayTakeOver] using hmay
        exact ⟨e, he, Nat.le_refl _, fun _ hs => absurd (.inl hlink) hs.not_waits⟩
      · exact hsame he'
    · exact hsame he'
    · exact hsame he'
  | wake i =>
    simp only [step] at he'
    split at he'
    · exact hsame he'
    · exact hsame he'
    · exact hsame he'
  | lock i =>
    simp only [step] at he'
    split at he'
    · exact hsame he'
    · exact hsame he'
  | check i =>
    simp only [step] at he'
    split at he'
    · unfold check at he'
      split at he'
      · exact hsame he'
      · split at he'
        · split at he'
          · exact hsame he'
          · exact hsame he'
        · split at he'
          · exact hsame he'
          · exact hsame he'
    · exact hsame he'
  | answer i result =>
    simp only [step] at he'
    split at he'
    · cases result with
      | connected => exact hsame he'
      | connectedAs => exact hsame he'
      | failed retry =>
        simp only [answer] at he'
        split at he'
        · exact hsame he'
        · exact hsame he'
    · exact hsame he'
  | split i ok =>
    simp only [step] at he'
    split at he'
    · split at he'
      · exact hsame he'
      · exact hsame he'
    · exact hsame he'
  | admit_ i =>
    simp only [step] at he'
    split at he'
    · unfold admit_ at he'
      split at he'
      · exact hsame he'
      · rename_i e he
        split at he'
        · obtain rfl := Option.some.inj he'
          exact ⟨e, he, Nat.le_refl _, fun _ _ => .inl rfl⟩
        · exact hsame he'
    · exact hsame he'
  | closed i =>
    simp only [step] at he'
    split at he'
    · split at he'
      · exact hsame he'
      · exact hsame he'
    · exact hsame he'
  | conclude i =>
    simp only [step] at he'
    split at he'
    · unfold conclude at he'
      split at he'
      · exact hsame he'
      · rename_i e he
        split at he'
        · split at he'
          · cases he'
          · exact hsame he'
        · split at he'
          · obtain rfl := Option.some.inj he'
            exact ⟨e, he, Nat.le_succ _, fun hg => absurd hg (Nat.succ_ne_self _)⟩
          · exact hsame he'
    · exact hsame he'
  | finish i =>
    simp only [step] at he'
    split at he'
    · exact hsame he'
    · exact hsame he'

def Flight (entry : Option Entry) (tasks : Nat → Option Task) : Prop :=
  ∀ i t e, tasks i = some t → t.pc = .connecting → entry = some e → e.Waits

namespace Flight

variable {entry : Option Entry} {tasks : Nat → Option Task} {i : Nat} {t : Task}

theorem set (h : Flight entry tasks) {t' : Option Task} (hpc : ∀ t, t' = some t → t.pc ≠ .connecting) :
    Flight entry (update tasks i t') := by
  intro j t₁ e hj hconnecting he
  rcases of_update hj with ⟨rfl, hnew⟩ | ⟨-, hj⟩
  · exact absurd hconnecting (hpc _ hnew)
  · exact h j t₁ e hj hconnecting he

theorem goTo (h : Flight entry tasks) {pc : Pc} (hpc : pc ≠ .connecting) :
    Flight entry (update tasks i (some { t with pc := pc })) :=
  h.set fun t' ht' => by
    obtain rfl := Option.some.inj ht'
    exact hpc

theorem leave (h : Flight entry tasks) : Flight entry (update tasks i none) := h.set nofun

theorem none : Flight none tasks := fun _ _ _ _ _ he => nomatch he

theorem waits {e : Entry} (he : e.Waits) : Flight (some e) tasks := by
  intro _ _ e' _ _ he'
  obtain rfl := Option.some.inj he'
  exact he

theorem locked {n : Nat} {attempt connectingUsername : Option Nat} (hplaces : Places tasks n attempt connectingUsername)
    (ht : tasks i = some t) (hholds : t.pc.Holds) (hpc : t.pc ≠ .connecting) : Flight entry tasks := by
  intro j t' e hj hconnecting _
  have hi := hplaces.holds ht hholds
  rw [hplaces.holds hj (hconnecting ▸ trivial)] at hi
  obtain rfl := Option.some.inj hi
  obtain rfl := Option.mem_unique ht hj
  exact absurd hconnecting hpc

end Flight

theorem flight_step (hplaces : Places s.tasks s.started s.attempt s.connectingUsername) (h : Flight s.entry s.tasks)
    (act : Act) : Flight (s.step act).entry (s.step act).tasks := by
  cases act with
  | report reported =>
    simp only [step, begin]
    split
    · exact h
    · split
      · exact .waits (.inl rfl)
      · exact h
  | spawn =>
    simp only [step]
    split
    · exact h
    · split
      · exact h
      · exact h.set fun t ht => by
          obtain rfl := Option.some.inj ht
          rintro ⟨⟩
  | remove => exact .none
  | ending =>
    intro i t e' ht hpc he'
    obtain ⟨e, he, rfl⟩ := Option.map_eq_some_iff.mp he'
    have hwaits := h i t e ht hpc he
    rw [if_neg fun hup => Entry.Settled.not_waits (.inl hup) hwaits]
    exact hwaits
  | unending =>
    intro i t e' ht hpc he'
    obtain ⟨e, he, rfl⟩ := Option.map_eq_some_iff.mp he'
    have hwaits := h i t e ht hpc he
    rw [if_neg fun hending => Entry.Settled.not_waits (.inr hending) hwaits]
    exact hwaits
  | signIn =>
    simp only [step]
    split
    · exact h.set fun t ht => by
        obtain rfl := Option.some.inj ht
        rintro ⟨⟩
    · exact h
  | decline i =>
    simp only [step]
    split
    · exact h.leave
    · exact h
  | mark i =>
    simp only [step]
    split
    · split
      · exact .waits (.inr rfl)
      · exact h.leave
    · exact h.leave
    · exact h
  | wake i =>
    simp only [step]
    split
    · exact h.goTo (by rintro ⟨⟩)
    · exact h.leave
    · exact h
  | lock i =>
    simp only [step]
    split
    · exact h.goTo (by rintro ⟨⟩)
    · exact h
  | check i =>
    simp only [step]
    split
    · rename_i kind ht
      unfold check
      split
      · exact h.leave
      · rename_i e he
        split
        · split
          · rename_i hwanted
            have hwaits : e.Waits := .inl (attemptWanted_iff.mp hwanted).1
            show Flight s.entry _
            rw [he]
            exact .waits hwaits
          · exact h.leave
        · split
          · rename_i hlink
            show Flight s.entry _
            rw [he]
            exact .waits (.inr hlink)
          · exact h.leave
    · exact h
  | answer i result =>
    simp only [step]
    split
    · cases result with
      | connected => exact h.goTo (by rintro ⟨⟩)
      | connectedAs => exact h.goTo (by rintro ⟨⟩)
      | failed retry =>
        simp only [answer]
        split
        · exact h.goTo (by rintro ⟨⟩)
        · exact h.goTo (by rintro ⟨⟩)
    · exact h
  | split i ok =>
    simp only [step]
    split
    · split
      · exact h.goTo (by rintro ⟨⟩)
      · exact h.leave
    · exact h
  | admit_ i =>
    simp only [step]
    split
    · rename_i kind link ht
      unfold admit_
      split
      · exact h.goTo (by rintro ⟨⟩)
      · split
        · exact (Flight.locked hplaces ht trivial (by rintro ⟨⟩)).goTo (by rintro ⟨⟩)
        · exact h.goTo (by rintro ⟨⟩)
    · exact h
  | closed i =>
    simp only [step]
    split
    · split
      · exact h.goTo (by rintro ⟨⟩)
      · exact h.leave
    · exact h
  | conclude i =>
    simp only [step]
    split
    · unfold conclude
      split
      · exact h.leave
      · split
        · split
          · exact .none
          · exact h.leave
        · split
          · exact .waits (.inl rfl)
          · exact h.leave
    · exact h
  | finish i =>
    simp only [step]
    split
    · exact h.leave
    · exact h

end Session

/-! ## A Connect with a wrong password -/

/-- The entry did not wait for a link, and the SDK held none. -/
structure Effect.Harmless (x : Effect) : Prop where
  link : x.link = .up ∨ x.link = .ending
  held : x.held = false

variable {generation : Nat} {s' : Handling}

namespace Handling

/-- The entry that was read with this generation is settled as long as it still has it. -/
def Unmoved (s : Handling) (generation : Nat) : Prop :=
  ∀ e, s.session.entry = some e → generation ≤ e.generation ∧ (e.generation = generation → e.Settled)

/-- And the SDK holds none of its links. -/
def Gone (s : Handling) (generation : Nat) : Prop :=
  s.Unmoved generation ∧ ∀ e, s.session.entry = some e → e.generation = generation → s.held = []

/-- What the handler knows of an entry that it has not found to be live or reconnecting. -/
def Knows (s : Handling) : ConnectPc → Prop
  | .idle => True
  | .asking link generation => link = .up ∨ link = .ending → s.Unmoved generation
  | .proving t generation => t = .stale → s.Gone generation
  | .acting action generation => action = .refuse ∨ action = .replaceStale ∧ s.Gone generation

structure Inv (s : Handling) : Prop where
  places : Session.Places s.session.tasks s.session.started s.session.attempt s.session.connectingUsername
  flight : Session.Flight s.session.entry s.session.tasks
  wrong : s.connect ≠ .idle → credentialMatches s.fingerprint s.presented = false
  knows : s.Knows s.connect
  effects : ∀ x ∈ s.effects, x.Harmless

/-- The password is not the one that opened the session. -/
def WrongPassword (s : Handling) : HandlingAct → Prop
  | .read presented => credentialMatches s.fingerprint presented = false
  | _ => True

/-- An entry that is removed has the generation it had when it was read: no drop has marked it since. -/
def NotDropped (s : Handling) : HandlingAct → Prop
  | .act => ∀ generation e, s.connect = .acting .replaceStale generation → s.session.entry = some e →
      e.generation = generation
  | _ => True

variable {s : Handling}

theorem Unmoved.later (h : s.Unmoved generation)
    (hentry : ∀ e', s'.session.entry = some e' → ∃ e, s.session.entry = some e ∧ e.Later e') : s'.Unmoved generation := by
  intro e' he'
  obtain ⟨e, he, hlater⟩ := hentry e' he'
  obtain ⟨hle, hsettled⟩ := h e he
  refine ⟨Nat.le_trans hle hlater.generation, fun hg => ?_⟩
  have hsame : e.generation = generation := Nat.le_antisymm (hg ▸ hlater.generation) hle
  exact hlater.settled (hg.trans hsame.symm) (hsettled hsame)

theorem Gone.later (h : s.Gone generation)
    (hentry : ∀ e', s'.session.entry = some e' → ∃ e, s.session.entry = some e ∧ e.Later e')
    (hheld : ∀ e, s.session.entry = some e → e.Settled → s.held = [] → s'.held = []) :
    s'.Gone generation := by
  refine ⟨h.1.later hentry, fun e' he' hg => ?_⟩
  obtain ⟨e, he, hlater⟩ := hentry e' he'
  obtain ⟨hle, hsettled⟩ := h.1 e he
  have hsame : e.generation = generation := Nat.le_antisymm (hg ▸ hlater.generation) hle
  exact hheld e he (hsettled hsame) (h.2 e he hsame)

theorem Knows.later {pc : ConnectPc} (h : s.Knows pc)
    (hentry : ∀ e', s'.session.entry = some e' → ∃ e, s.session.entry = some e ∧ e.Later e')
    (hheld : ∀ e, s.session.entry = some e → e.Settled → s.held = [] → s'.held = []) :
    s'.Knows pc := by
  cases pc with
  | idle => trivial
  | asking link generation => exact fun hlink => (h hlink).later hentry
  | proving t generation => exact fun ht => (h ht).later hentry hheld
  | acting action generation => exact h.imp_right fun ⟨ha, hgone⟩ => ⟨ha, hgone.later hentry hheld⟩

namespace Inv

theorem heldAfter (h : s.Inv) (act : Act) {e : Entry} (he : s.session.entry = some e) (hsettled : e.Settled)
    (hheld : s.held = []) : s.heldAfter act = [] := by
  cases act with
  | answer i result =>
    cases result with
    | connected =>
      simp only [Handling.heldAfter]
      split
      · rename_i kind ht
        exact absurd (h.flight i _ e ht rfl he) hsettled.not_waits
      · exact hheld
    | connectedAs => exact hheld
    | failed retry => exact hheld
  | closed i =>
    simp only [Handling.heldAfter]
    split
    · rw [hheld]
      rfl
    · exact hheld
  | _ => exact hheld

theorem session (h : s.Inv) (act : Act) : (s.step (.session act)).Inv where
  places := Session.places_step h.places act
  flight := Session.flight_step h.places h.flight act
  wrong := h.wrong
  knows := h.knows.later (fun _ he' => Session.entry_step act he') fun _ he hs hheld => h.heldAfter act he hs hheld
  effects := h.effects

theorem sdkEnds (h : s.Inv) (link : Nat) : (s.step (.sdkEnds link)).Inv := by
  refine { h with knows := h.knows.later (fun e' he' => ⟨e', he', .refl e'⟩) fun _ _ _ hheld => ?_ }
  simp only [Handling.step, hheld, List.filter_nil]

theorem read (h : s.Inv) {presented : Option (List UInt8)} (hwrong : s.WrongPassword (.read presented)) :
    (s.step (.read presented)).Inv := by
  simp only [Handling.step]
  split
  · rename_i e hidle he
    refine { h with wrong := fun _ => hwrong, knows := fun hlink e' he' => ?_ }
    obtain rfl := Option.mem_unique he he'
    exact ⟨Nat.le_refl _, fun _ => hlink⟩
  · exact h

theorem gone_of_not_held (h : s.Unmoved generation) (hnot : s.sdkHolds = false) : s.Gone generation :=
  ⟨h, fun _ _ _ => List.isEmpty_iff.mp (by simpa [sdkHolds] using hnot)⟩

theorem ask (h : s.Inv) (ok : Bool) : (s.step (.ask ok)).Inv := by
  have hknows := h.knows
  simp only [Handling.step]
  split
  · rename_i hpc
    exact { h with wrong := fun _ => h.wrong (by simp [hpc]), knows := nofun }
  · rename_i hpc
    exact { h with wrong := fun _ => h.wrong (by simp [hpc]), knows := nofun }
  · rename_i link generation hnot hnot' hpc
    rw [hpc] at hknows
    refine { h with wrong := fun _ => h.wrong (by simp [hpc]), knows := ?_ }
    split
    · have hlink : link = .up ∨ link = .ending := by
        cases link with
        | up => exact .inl rfl
        | ending => exact .inr rfl
        | reconnecting => exact (hnot rfl).elim
        | signingIn => exact (hnot' rfl).elim
      cases hholds : s.sdkHolds with
      | false => exact fun _ => gone_of_not_held (hknows hlink) hholds
      | true =>
        obtain rfl | rfl := hlink
        · exact nofun
        · exact nofun
    · trivial
  · exact h

theorem prove (h : s.Inv) (olderPage : Bool) : (s.step (.prove olderPage)).Inv := by
  have hknows := h.knows
  simp only [Handling.step]
  split
  · rename_i t generation hpc
    rw [hpc] at hknows
    have hwrong := h.wrong (by simp [hpc])
    have hauthorized : s.authorized t = false := by
      cases t with
      | stale => rfl
      | live => simp [authorized, hwrong]
      | reconnecting => simp [authorized, hwrong]
    refine { h with wrong := fun _ => hwrong, knows := ?_ }
    simp only [hauthorized, Bool.false_eq_true, false_and, if_false]
    cases t with
    | stale => exact .inr ⟨rfl, hknows rfl⟩
    | live => exact .inl rfl
    | reconnecting => exact .inl rfl
  · exact h

theorem act (h : s.Inv) (hcond : s.NotDropped .act) : (s.step .act).Inv := by
  have hknows := h.knows
  simp only [Handling.step]
  split
  · rename_i action generation hpc
    rw [hpc] at hknows
    obtain rfl | ⟨rfl, hunmoved, hgone⟩ := hknows
    · exact { h with wrong := fun hidle => absurd rfl hidle, knows := trivial }
    · refine ⟨h.places, .none, fun hidle => absurd rfl hidle, trivial, fun x hx => ?_⟩
      simp only [perform, touch] at hx
      split at hx
      · exact h.effects x hx
      · rename_i e he
        obtain rfl | hx := List.mem_cons.mp hx
        · have hsame := hcond generation e hpc he
          exact ⟨(hunmoved e he).2 hsame, by simp [sdkHolds, hgone e he hsame]⟩
        · exact h.effects x hx
  · exact h

theorem step (h : s.Inv) (act : HandlingAct) (hwrong : s.WrongPassword act) (hcond : s.NotDropped act) :
    (s.step act).Inv := by
  cases act with
  | session act => exact h.session act
  | sdkEnds link => exact h.sdkEnds link
  | read presented => exact h.read hwrong
  | ask ok => exact h.ask ok
  | prove olderPage => exact h.prove olderPage
  | act => exact h.act hcond

end Inv

/-- The states of Connects and a session in runs whose steps all meet a condition. -/
inductive HandlingRun (condition : Handling → HandlingAct → Prop) : Handling → Prop
  | new (needsUser : Bool) (fingerprint : Option (List UInt8)) : HandlingRun condition (new needsUser fingerprint)
  | step {s : Handling} (act : HandlingAct) :
      HandlingRun condition s → condition s act → HandlingRun condition (s.step act)

theorem inv_of_run {s : Handling} (h : HandlingRun (fun s a => s.WrongPassword a ∧ s.NotDropped a) s) : s.Inv := by
  induction h with
  | new needsUser fingerprint =>
    have hsession := Session.inv_new needsUser
    exact ⟨hsession.places, fun _ _ _ ht => (nomatch ht), fun hidle => absurd rfl hidle, trivial, fun x hx => nomatch hx⟩
  | step act _ hcond ih => exact ih.step act hcond.1 hcond.2

end Handling

/-- In every run of Connects with a wrong password in which an entry that is removed has the generation it had when it
was read, nothing is done to an entry that is reconnecting or being signed in to, or whose session the SDK holds. -/
theorem costs_no_session {s : Handling} (h : Handling.HandlingRun (fun s a => s.WrongPassword a ∧ s.NotDropped a) s)
    {x : Effect} (hx : x ∈ s.effects) : (x.link ≠ .reconnecting ∧ x.link ≠ .signingIn) ∧ x.held = false := by
  obtain ⟨hlink, hheld⟩ := (Handling.inv_of_run h).effects x hx
  obtain hlink | hlink := hlink
  · exact ⟨by simp [hlink], hheld⟩
  · exact ⟨by simp [hlink], hheld⟩

/-- The SDK's session has ended, no report of it has come, and a Connect with a wrong password replaces the entry. -/
def replaced : Handling :=
  [.sdkEnds 0, .read (some [2]), .ask true, .prove false, .act].foldl Handling.step (.new false (some [1]))

theorem costs_no_session_replaced : ∃ x ∈ replaced.effects,
    x.touch = .removed ∧ (x.link ≠ .reconnecting ∧ x.link ≠ .signingIn) ∧ x.held = false := by
  have hwrong : credentialMatches (some [1]) (some [2]) = false := by decide
  have hrun : Handling.HandlingRun (fun s a => s.WrongPassword a ∧ s.NotDropped a) replaced := by
    simp only [replaced, List.foldl_cons, List.foldl_nil]
    refine .step _ (.step _ (.step _ (.step _ (.step _ (.new false (some [1])) ⟨trivial, trivial⟩) ⟨hwrong, trivial⟩)
      ⟨trivial, trivial⟩) ⟨trivial, trivial⟩) ⟨trivial, fun generation e hpc he => ?_⟩
    cases hpc
    cases he
    rfl
  have hmem : ⟨.removed, .up, false⟩ ∈ replaced.effects := by decide
  exact ⟨_, hmem, rfl, costs_no_session hrun hmem⟩

def lostToAWrongPassword : Handling :=
  [.sdkEnds 0, .read (some [2]), .ask true, .prove false, .session (.report none), .act].foldl Handling.step
    (.new false (some [1]))

/-- The entry that is removed is one that is reconnecting. -/
theorem wrong_password_removes : credentialMatches (some [1]) (some [2]) = false ∧
    Handling.HandlingRun Handling.WrongPassword lostToAWrongPassword ∧
    ⟨.removed, .reconnecting, false⟩ ∈ lostToAWrongPassword.effects ∧ lostToAWrongPassword.session.entry = none := by
  have hwrong : credentialMatches (some [1]) (some [2]) = false := by decide
  refine ⟨hwrong, ?_, by decide, by decide⟩
  simp only [lostToAWrongPassword, List.foldl_cons, List.foldl_nil]
  exact .step _ (.step _ (.step _ (.step _ (.step _ (.step _ (.new false (some [1])) trivial) hwrong) trivial) trivial)
    trivial) trivial

end CitadelAgent.Reconnect
