import CitadelAgent.Lib.Machine
import CitadelAgent.Lib.Updates

/-!
# Ends of a peer's connection

`citadel-internal-service/src/kernel/reconnect/instance.rs`, `responses/peer_event.rs` (`Disconnect`),
`requests/peer/disconnect.rs` (`cleanup_reported_peer`) and `responses/peer_channel_created.rs`, for one peer of one session:
reports of ended connections against the connection the peer's entry records.

* `Ends`, `Ends.step` : the SDK's connection, the channels still to be installed, the entry and the reports;
* `Ends.SparesLive`, `Ends.Lands` : the reports that take no live connection, and those that leave no dead one;
* `reports_take_dead_connections` : as long as every report is such.
-/

namespace CitadelAgent.Peers
open Function Machine

/-- A connection's name: its channel's id. -/
abbrev Instance := Nat

inductive PeerEnd
  | requested
  | reported (reported : Option Instance)
  | gone

def reportedEnd (reported : Option Instance) (sdkHoldsPeer : Bool) : PeerEnd :=
  if sdkHoldsPeer then .reported reported else .gone

def endsThisConnection : Option Instance → PeerEnd → Bool
  | _, .requested => true
  | _, .gone => true
  | none, .reported _ => true
  | some current, .reported (some reported) => reported = current
  | some _, .reported none => false

inductive PeerReport (P : Type)
  | removed (peer : P)
  | kept (current : Option Instance)
  | absent

def takeReportedPeer {P : Type} (peer : Option P) (end_ : PeerEnd) (instanceOf : P → Option Instance) :
    PeerReport P × Option P :=
  match peer with
  | none => (.absent, none)
  | some p => if endsThisConnection (instanceOf p) end_ then (.removed p, none) else (.kept (instanceOf p), some p)

/-- A report of the end of a connection, by its number; one that is not named carries no instance. -/
structure Report where
  about : Nat
  named : Bool
  deriving DecidableEq

def Report.instance_ (report : Report) : Option Instance := if report.named then some report.about else none

inductive Handling
  | waiting
  /-- The SDK said whether it holds the peer, when it had made so many connections. -/
  | asked (held : Bool) (made : Nat)
  | done
  deriving DecidableEq

/-- A removal of the entry by a report: the connection that was in it, and whether the SDK held that. -/
structure Removal where
  connection : Nat
  live : Bool
  deriving DecidableEq

structure Ends where
  made : Nat
  named : Nat → Bool
  held : Option Nat
  channels : List Nat
  entry : Option Nat
  reported : Nat
  reports : Nat → Option (Report × Handling)
  removals : List Removal

inductive Event
  | connect (named : Bool)
  | drop
  | report (connection : Nat) (named : Bool)
  | install (i : Nat)
  | discard (i : Nat)
  | ask (report : Nat)
  | askFails (report : Nat)
  | take (report : Nat)
  | request

variable {i : Nat} {report : Report}

namespace Ends

def new : Ends := ⟨0, fun _ => false, none, [], none, 0, fun _ => none, []⟩

def instanceOf (s : Ends) (connection : Nat) : Option Instance := if s.named connection then some connection else none

def settle (s : Ends) (i : Nat) (report : Report) (handling : Handling) : Ends :=
  { s with reports := update s.reports i (some (report, handling)) }

def step (s : Ends) : Event → Ends
  | .connect named =>
    { s with
      made := s.made + 1
      named := update s.named s.made named
      held := some s.made
      channels := s.channels ++ [s.made] }
  | .drop => { s with held := none }
  | .report connection named =>
    if connection < s.made ∧ s.held ≠ some connection ∧ (named → s.named connection) then
      { s with
        reports := update s.reports s.reported (some (⟨connection, named⟩, .waiting))
        reported := s.reported + 1 }
    else s
  | .install i =>
    match s.channels[i]? with
    | some connection => { s with channels := s.channels.eraseIdx i, entry := some connection }
    | none => s
  | .discard i => { s with channels := s.channels.eraseIdx i }
  | .ask i =>
    match s.reports i with
    | some (report, .waiting) => s.settle i report (.asked s.held.isSome s.made)
    | _ => s
  | .askFails i =>
    match s.reports i with
    | some (report, .waiting) => s.settle i report .done
    | _ => s
  | .take i =>
    match s.reports i with
    | some (report, .asked held _) =>
      match takeReportedPeer s.entry (reportedEnd report.instance_ held) s.instanceOf with
      | (.removed connection, entry) =>
        { s.settle i report .done with
          entry := entry
          removals := ⟨connection, s.held = some connection⟩ :: s.removals }
      | (_, entry) => { s.settle i report .done with entry := entry }
    | _ => s
  | .request => { s with entry := none }

/-! ## What a report finds -/

/-- When a report takes the entry, the connection in it is not one that the SDK holds without a name; and if the SDK said that it
holds none, not one that it has made since, and holds. -/
def SparesLive (s : Ends) : Event → Prop
  | .take i => ∀ report held made, s.reports i = some (report, .asked held made) → ∀ connection, s.entry = some connection →
      if held then s.named connection ∨ s.held ≠ some connection else connection < made ∨ s.held ≠ some connection
  | _ => True

/-- A report is handled when the channel of its connection is installed or discarded, and one that does not name the connection in
the entry when the SDK holds none; and the SDK can be asked. -/
def Lands (s : Ends) : Event → Prop
  | .take i => ∀ report held made, s.reports i = some (report, .asked held made) →
      report.about ∉ s.channels ∧ (s.entry = some report.about → s.named report.about → held → report.named)
  | .askFails i => ∀ report, s.reports i = some (report, .waiting) →
      report.about ∉ s.channels ∧ s.entry ≠ some report.about
  | _ => True

structure Sound (s : Ends) : Prop where
  entry : ∀ connection, s.entry = some connection → connection < s.made
  channels : ∀ connection ∈ s.channels, connection < s.made
  reports : ∀ i report handling, s.reports i = some (report, handling) →
    report.about < s.made ∧ s.held ≠ some report.about ∧ (report.named → s.named report.about)
  asked : ∀ i report made, s.reports i = some (report, .asked false made) →
    made ≤ s.made ∧ ∀ connection < made, s.held ≠ some connection
  below : ∀ i x, s.reports i = some x → i < s.reported

/-- The removals took connections that the SDK did not hold. -/
def Spared (s : Ends) : Prop := ∀ x ∈ s.removals, x.live = false

/-- A reported connection that is in the entry under its name, or still to be installed, has a report still to be handled. -/
def Followed (s : Ends) : Prop :=
  ∀ connection, s.entry = some connection ∧ s.named connection = true ∨ connection ∈ s.channels →
    (∃ i report handling, s.reports i = some (report, handling) ∧ report.about = connection) →
    ∃ i report handling, s.reports i = some (report, handling) ∧ report.about = connection ∧ handling ≠ .done

variable {s t : Ends}

theorem ends_iff {connection : Nat} {held : Bool} :
    endsThisConnection (s.instanceOf connection) (reportedEnd report.instance_ held) = true ↔
      held = false ∨ s.named connection = false ∨ report.named = true ∧ report.about = connection := by
  unfold instanceOf Report.instance_
  cases held <;> cases s.named connection <;> cases report.named <;> simp [reportedEnd, endsThisConnection]

theorem step_take {held : Bool} {made : Nat} (hi : s.reports i = some (report, .asked held made)) :
    s.entry = none ∧ s.step (.take i) = { s.settle i report .done with entry := none } ∨
    ∃ connection, s.entry = some connection ∧
      (endsThisConnection (s.instanceOf connection) (reportedEnd report.instance_ held) = true ∧
        s.step (.take i) = { s.settle i report .done with
          entry := none
          removals := ⟨connection, s.held = some connection⟩ :: s.removals } ∨
      endsThisConnection (s.instanceOf connection) (reportedEnd report.instance_ held) = false ∧
        s.step (.take i) = s.settle i report .done) := by
  cases he : s.entry with
  | none => exact .inl ⟨rfl, by simp only [step, hi, takeReportedPeer, he]⟩
  | some connection =>
    refine .inr ⟨connection, rfl, ?_⟩
    cases hends : endsThisConnection (s.instanceOf connection) (reportedEnd report.instance_ held) with
    | true => exact .inl ⟨rfl, by simp only [step, hi, takeReportedPeer, he, hends, if_true]⟩
    | false =>
      refine .inr ⟨rfl, ?_⟩
      simp only [step, hi, takeReportedPeer, he, hends, Bool.false_eq_true, if_false]
      rw [← he]
      rfl

theorem take_or_same (s : Ends) (i : Nat) :
    s.step (.take i) = s ∨ ∃ report held made, s.reports i = some (report, .asked held made) := by
  cases hi : s.reports i with
  | none => exact .inl (by simp only [step, hi])
  | some x =>
    obtain ⟨report, handling⟩ := x
    cases handling with
    | waiting => exact .inl (by simp only [step, hi])
    | done => exact .inl (by simp only [step, hi])
    | asked held made => exact .inr ⟨report, held, made, rfl⟩

theorem Sound.keep (h : s.Sound) (hmade : t.made = s.made) (hnamed : t.named = s.named)
    (hheld : t.held = s.held) (hentry : ∀ c, t.entry = some c → c < s.made) (hchannels : ∀ c ∈ t.channels, c ∈ s.channels)
    (hreported : t.reported = s.reported) (hreports : ∀ i report handling, t.reports i = some (report, handling) →
      (∃ handling', s.reports i = some (report, handling')) ∧
      ∀ made, handling = .asked false made → made ≤ s.made ∧ ∀ c < made, s.held ≠ some c) : t.Sound where
  entry c hc := hmade ▸ hentry c hc
  channels c hc := hmade ▸ h.channels c (hchannels c hc)
  reports i report handling hi := by
    obtain ⟨⟨handling', hi'⟩, -⟩ := hreports i report handling hi
    rw [hmade, hheld, hnamed]
    exact h.reports i report handling' hi'
  asked i report made hi := by
    rw [hmade, hheld]
    exact (hreports i report _ hi).2 made rfl
  below i x hi := by
    obtain ⟨⟨handling', hi'⟩, -⟩ := hreports i x.1 x.2 hi
    exact hreported ▸ h.below i _ hi'

theorem Sound.same (h : s.Sound) : ∀ i report handling, s.reports i = some (report, handling) →
    (∃ handling', s.reports i = some (report, handling')) ∧
      ∀ made, handling = .asked false made → made ≤ s.made ∧ ∀ c < made, s.held ≠ some c := by
  rintro i report handling hi
  refine ⟨⟨handling, hi⟩, ?_⟩
  rintro made rfl
  exact h.asked i report made hi

theorem Sound.settle (h : s.Sound) {handling handling' : Handling} (hi : s.reports i = some (report, handling))
    (hasked : ∀ made, handling' = .asked false made → made ≤ s.made ∧ ∀ c < made, s.held ≠ some c) :
    (s.settle i report handling').Sound := by
  refine h.keep rfl rfl rfl h.entry (fun _ hc => hc) rfl fun j report' handling'' hj => ?_
  replace hj : update s.reports i (some (report, handling')) j = some (report', handling'') := hj
  rcases of_update hj with ⟨hsame, hj⟩ | ⟨-, hj⟩
  · obtain ⟨rfl, rfl⟩ : report = report' ∧ handling' = handling'' := by simpa using hj
    exact ⟨⟨handling, hsame ▸ hi⟩, hasked⟩
  · exact h.same j report' handling'' hj

theorem Sound.empty (h : s.Sound) {removals : List Removal} : ({ s with entry := none, removals := removals } : Ends).Sound :=
  h.keep rfl rfl rfl nofun (fun _ hc => hc) rfl h.same

theorem sound_step (h : s.Sound) (act : Event) : (s.step act).Sound := by
  cases act with
  | connect named =>
    have hnew : ∀ i report handling, s.reports i = some (report, handling) → report.about ≠ s.made :=
      fun i report handling hi => (h.reports i report handling hi).1.ne
    constructor
    · exact fun c hc => Nat.lt_succ_of_lt (h.entry c hc)
    · intro c hc
      rcases List.mem_append.mp hc with hold | hmine
      · exact Nat.lt_succ_of_lt (h.channels c hold)
      · rw [List.mem_singleton.mp hmine]
        exact Nat.lt_succ_self _
    · intro i report handling hi
      obtain ⟨hlt, hdropped, hnamed⟩ := h.reports i report handling hi
      refine ⟨Nat.lt_succ_of_lt hlt, fun hsame => hnew i report handling hi (Option.some.inj hsame).symm, fun hr => ?_⟩
      show update s.named s.made named report.about = true
      rw [update_of_ne (hnew i report handling hi)]
      exact hnamed hr
    · intro i report made hi
      obtain ⟨hle, -⟩ := h.asked i report made hi
      refine ⟨Nat.le_succ_of_le hle, fun c hc hsame => ?_⟩
      have hmade : s.made = c := Option.some.inj hsame
      omega
    · exact h.below
  | drop =>
    refine ⟨h.entry, h.channels, fun i report handling hi => ?_, fun i report made hi => ⟨(h.asked i report made hi).1, nofun⟩,
      h.below⟩
    obtain ⟨hlt, -, hnamed⟩ := h.reports i report handling hi
    exact ⟨hlt, nofun, hnamed⟩
  | report connection named =>
    simp only [step]
    split
    · rename_i hreport
      refine ⟨h.entry, h.channels, fun i report handling hi => ?_, fun i report made hi => ?_, fun i x hi => ?_⟩
      · replace hi : update s.reports s.reported (some (⟨connection, named⟩, .waiting)) i = some (report, handling) := hi
        rcases of_update hi with ⟨-, hi⟩ | ⟨-, hi⟩
        · obtain ⟨rfl, rfl⟩ : (⟨connection, named⟩ : Report) = report ∧ Handling.waiting = handling := by simpa using hi
          exact hreport
        · exact h.reports i report handling hi
      · replace hi : update s.reports s.reported (some (⟨connection, named⟩, .waiting)) i = some (report, .asked false made) := hi
        rcases of_update hi with ⟨-, hi⟩ | ⟨-, hi⟩
        · simp at hi
        · exact h.asked i report made hi
      · show i < s.reported + 1
        by_cases hsame : i = s.reported
        · omega
        · have hold : s.reports i = some x := (update_of_ne hsame ..).symm.trans hi
          exact Nat.lt_succ_of_lt (h.below i x hold)
    · exact h
  | install i =>
    simp only [step]
    split
    · rename_i connection hi
      refine h.keep rfl rfl rfl (fun c hc => ?_) (fun c hc => List.mem_of_mem_eraseIdx hc) rfl h.same
      obtain rfl := Option.some.inj hc
      exact h.channels _ (List.mem_of_getElem? hi)
    · exact h
  | discard i => exact h.keep rfl rfl rfl h.entry (fun c hc => List.mem_of_mem_eraseIdx hc) rfl h.same
  | ask i =>
    simp only [step]
    split
    · rename_i report hi
      refine h.settle hi fun made hmade => ?_
      obtain ⟨hheld, rfl⟩ : s.held.isSome = false ∧ s.made = made := by simpa using hmade
      refine ⟨le_rfl, fun c _ hc => ?_⟩
      rw [hc] at hheld
      exact nomatch hheld
    · exact h
  | askFails i =>
    simp only [step]
    split
    · rename_i report hi
      exact h.settle hi nofun
    · exact h
  | take i =>
    rcases take_or_same s i with hstep | ⟨report, held, made, hi⟩
    · rwa [hstep]
    have hdone : (s.settle i report .done).Sound := h.settle hi nofun
    rcases step_take hi with ⟨-, hstep⟩ | ⟨connection, -, ⟨-, hstep⟩ | ⟨-, hstep⟩⟩
    · rw [hstep]
      exact hdone.empty
    · rw [hstep]
      exact hdone.empty
    · rw [hstep]
      exact hdone
  | request => exact h.empty

theorem spared_step (hs : s.Sound) (h : s.Spared) (act : Event) (hspares : s.SparesLive act) : (s.step act).Spared := by
  cases act with
  | connect named => exact h
  | drop => exact h
  | report connection named =>
    simp only [step]
    split
    · exact h
    · exact h
  | install i =>
    simp only [step]
    split
    · exact h
    · exact h
  | discard i => exact h
  | ask i =>
    simp only [step]
    split
    · exact h
    · exact h
  | askFails i =>
    simp only [step]
    split
    · exact h
    · exact h
  | take i =>
    rcases take_or_same s i with hstep | ⟨report, held, made, hi⟩
    · rwa [hstep]
    rcases step_take hi with ⟨-, hstep⟩ | ⟨connection, he, ⟨hends, hstep⟩ | ⟨-, hstep⟩⟩
    · rw [hstep]
      exact h
    · have hdead : s.held ≠ some connection := by
        have hmet := hspares report held made hi connection he
        rcases ends_iff.mp hends with rfl | hunnamed | ⟨-, rfl⟩
        · rcases hmet with hlt | hdropped
          · exact (hs.asked i report made hi).2 connection hlt
          · exact hdropped
        · cases held with
          | false =>
            rcases hmet with hlt | hdropped
            · exact (hs.asked i report made hi).2 connection hlt
            · exact hdropped
          | true =>
            rcases hmet with hnamed | hdropped
            · exact absurd (hunnamed.symm.trans hnamed) Bool.false_ne_true
            · exact hdropped
        · exact (hs.reports i report _ hi).2.1
      rw [hstep]
      intro x hx
      rcases List.mem_cons.mp hx with rfl | hold
      · exact decide_eq_false hdead
      · exact h x hold
    · rw [hstep]
      exact h
  | request => exact h

theorem Followed.keep (h : s.Followed) (hreports : t.reports = s.reports)
    (hmine : ∀ c, t.entry = some c ∧ t.named c = true ∨ c ∈ t.channels →
      (∃ i report handling, s.reports i = some (report, handling) ∧ report.about = c) →
      s.entry = some c ∧ s.named c = true ∨ c ∈ s.channels) : t.Followed := by
  intro c hc hreported
  rw [hreports] at hreported ⊢
  exact h c (hmine c hc hreported) hreported

theorem Followed.settle (h : s.Followed) {handling handling' : Handling} (hi : s.reports i = some (report, handling))
    (hreports : t.reports = (s.settle i report handling').reports)
    (hmine : ∀ c, t.entry = some c ∧ t.named c = true ∨ c ∈ t.channels → s.entry = some c ∧ s.named c = true ∨ c ∈ s.channels)
    (hdone : handling' = .done → ¬ (t.entry = some report.about ∧ t.named report.about = true ∨ report.about ∈ t.channels)) :
    t.Followed := by
  have hkept : ∀ j, j ≠ i → t.reports j = s.reports j := fun j hne => by rw [hreports]; exact update_of_ne hne ..
  have hmoved : t.reports i = some (report, handling') := by rw [hreports]; exact update_self ..
  rintro c hc ⟨j, report', handling'', hj, rfl⟩
  have hreported : ∃ j r x, s.reports j = some (r, x) ∧ r.about = report'.about := by
    by_cases hsame : j = i
    · rw [hsame, hmoved] at hj
      obtain ⟨rfl, -⟩ : report = report' ∧ handling' = handling'' := by simpa using hj
      exact ⟨i, report, handling, hi, rfl⟩
    · exact ⟨j, report', handling'', (hkept j hsame).symm.trans hj, rfl⟩
  obtain ⟨k, r, x, hk, habout, hundone⟩ := h _ (hmine _ hc) hreported
  by_cases hsame : k = i
  · rw [hsame, hi] at hk
    obtain ⟨rfl, -⟩ : report = r ∧ handling = x := by simpa using hk
    refine ⟨i, report, handling', hmoved, habout, fun hd => hdone hd ?_⟩
    rw [habout]
    exact hc
  · exact ⟨k, r, x, (hkept k hsame).trans hk, habout, hundone⟩

theorem followed_step (hs : s.Sound) (h : s.Followed) (act : Event) (hlands : s.Lands act) : (s.step act).Followed := by
  cases act with
  | connect named =>
    refine h.keep rfl fun c hc ⟨i, report, handling, hi, habout⟩ => ?_
    have hne : c ≠ s.made := habout ▸ (hs.reports i report handling hi).1.ne
    rcases hc with ⟨he, hnamed⟩ | hc
    · exact .inl ⟨he, (update_of_ne hne ..).symm.trans hnamed⟩
    · rcases List.mem_append.mp hc with hold | hmine
      · exact .inr hold
      · exact absurd (List.mem_singleton.mp hmine) hne
  | drop => exact h.keep rfl fun _ hc _ => hc
  | report connection named =>
    simp only [step]
    split
    · rintro c hc ⟨i, report, handling, hi, rfl⟩
      by_cases hsame : report.about = connection
      · exact ⟨s.reported, _, _, update_self .., hsame.symm, nofun⟩
      · have hold : s.reports i = some (report, handling) := by
          have hne : i ≠ s.reported := by
            rintro rfl
            replace hi : update s.reports s.reported (some (⟨connection, named⟩, .waiting)) s.reported = some (report, handling) := hi
            rw [update_self] at hi
            exact hsame (congrArg (fun x : Report × Handling => x.1.about) (Option.some.inj hi)).symm
          exact (update_of_ne hne ..).symm.trans hi
        obtain ⟨j, r, x, hj, habout, hundone⟩ := h _ hc ⟨i, report, handling, hold, rfl⟩
        exact ⟨j, r, x, (update_of_ne (hs.below j _ hj).ne ..).trans hj, habout, hundone⟩
    · exact h
  | install i =>
    simp only [step]
    split
    · rename_i connection hi
      refine h.keep rfl fun c hc _ => ?_
      rcases hc with ⟨he, -⟩ | hc
      · obtain rfl := Option.some.inj he
        exact .inr (List.mem_of_getElem? hi)
      · exact .inr (List.mem_of_mem_eraseIdx hc)
    · exact h
  | discard i =>
    refine h.keep rfl fun c hc _ => ?_
    rcases hc with he | hc
    · exact .inl he
    · exact .inr (List.mem_of_mem_eraseIdx hc)
  | ask i =>
    simp only [step]
    split
    · rename_i report hi
      exact h.settle hi rfl (fun _ hc => hc) nofun
    · exact h
  | askFails i =>
    simp only [step]
    split
    · rename_i report hi
      refine h.settle hi rfl (fun _ hc => hc) fun _ hc => ?_
      obtain ⟨hchannels, hentry⟩ := hlands report hi
      rcases hc with ⟨he, -⟩ | hc
      · exact hentry he
      · exact hchannels hc
    · exact h
  | take i =>
    rcases take_or_same s i with hstep | ⟨report, held, made, hi⟩
    · rwa [hstep]
    obtain ⟨hchannels, hentry⟩ := hlands report held made hi
    have hempty : ∀ c, (none : Option Nat) = some c ∧ s.named c = true ∨ c ∈ s.channels →
        s.entry = some c ∧ s.named c = true ∨ c ∈ s.channels := fun c hc => .inr (hc.resolve_left nofun)
    rcases step_take hi with ⟨-, hstep⟩ | ⟨connection, he, ⟨-, hstep⟩ | ⟨hkept, hstep⟩⟩
    · rw [hstep]
      exact h.settle hi rfl hempty fun _ hc => hchannels (hc.resolve_left nofun)
    · rw [hstep]
      exact h.settle hi rfl hempty fun _ hc => hchannels (hc.resolve_left nofun)
    · rw [hstep]
      refine h.settle hi rfl (fun _ hc => hc) fun _ hc => ?_
      rcases hc with ⟨hmine, hnamed⟩ | hc
      · obtain rfl : connection = report.about := Option.mem_unique he hmine
        rw [← Bool.not_eq_true, ends_iff, not_or, not_or] at hkept
        obtain ⟨hheld, -, hunnamed⟩ := hkept
        exact hunnamed ⟨hentry hmine hnamed (by simpa using hheld), rfl⟩
      · exact hchannels hc
  | request => exact h.keep rfl fun c hc _ => .inr (hc.resolve_left nofun)

theorem sound_new : new.Sound where
  entry _ hc := nomatch hc
  channels _ hc := absurd hc List.not_mem_nil
  reports _ _ _ hi := nomatch hi
  asked _ _ _ hi := nomatch hi
  below _ _ hi := nomatch hi

end Ends

open Ends in
/-- No report takes a live connection as long as none takes one made since the SDK was asked, and none that has ended
stays as long as each report is handled when its channel is installed; a report that takes one of the first kind takes
a live one. -/
theorem reports_take_dead_connections (s : Ends) :
    (Reaches step SparesLive (· = new) s → ∀ x ∈ s.removals, x.live = false) ∧
    (Reaches step Lands (· = new) s → (∀ i x, s.reports i = some x → x.2 = .done) →
      ∀ connection, s.entry = some connection → s.named connection = true →
        ¬ ∃ i x, s.reports i = some x ∧ x.1.about = connection) ∧
    ∀ i, ¬ SparesLive s (.take i) → ∃ x ∈ (s.step (.take i)).removals, x.live = true := by
  refine ⟨fun run => ?_, fun run hdone connection he hnamed => ?_, fun i hlive => ?_⟩
  · have hs : s.Sound ∧ s.Spared := run.invariant (I := fun s => s.Sound ∧ s.Spared)
      (fun s hs => by rw [hs]; exact ⟨sound_new, nofun⟩)
      fun s act h hmet => ⟨sound_step h.1 act, spared_step h.1 h.2 act hmet⟩
    exact hs.2
  · have hs : s.Sound ∧ s.Followed := run.invariant (I := fun s => s.Sound ∧ s.Followed)
      (fun s hs => by rw [hs]; exact ⟨sound_new, fun c _ h => nomatch h.choose_spec.choose_spec.choose_spec.1⟩)
      fun s act h hmet => ⟨sound_step h.1 act, followed_step h.1 h.2 act hmet⟩
    rintro ⟨i, ⟨report, handling⟩, hi, habout⟩
    obtain ⟨j, r, x, hj, -, hundone⟩ := hs.2 connection (.inl ⟨he, hnamed⟩) ⟨i, report, handling, hi, habout⟩
    exact hundone (hdone j _ hj)
  · simp only [SparesLive, not_forall] at hlive
    obtain ⟨report, held, made, hi, connection, he, hlive⟩ := hlive
    have hheld : s.held = some connection := by
      by_contra hdropped
      refine hlive ?_
      split
      · exact .inr hdropped
      · exact .inr hdropped
    have hends : endsThisConnection (s.instanceOf connection) (reportedEnd report.instance_ held) = true := by
      rw [ends_iff]
      cases held with
      | false => exact .inl rfl
      | true =>
        refine .inr (.inl ?_)
        by_contra hnamed
        exact hlive (.inl (by simpa using hnamed))
    rcases step_take hi with ⟨hnone, -⟩ | ⟨connection', he', ⟨-, hstep⟩ | ⟨hkept, -⟩⟩
    · exact nomatch hnone.symm.trans he
    · obtain rfl := Option.mem_unique he' he
      rw [hstep]
      exact ⟨_, List.mem_cons_self, decide_eq_true hheld⟩
    · obtain rfl := Option.mem_unique he' he
      exact absurd (hkept.symm.trans hends) Bool.false_ne_true

namespace Ends

def oneEnd : List Event := [.connect true, .install 0, .drop, .report 0 true, .ask 0, .take 0]

end Ends

open Ends in
theorem reports_take_dead_connections_oneEnd :
    (oneEnd.foldl step new).removals = [⟨0, false⟩] ∧ (∀ x ∈ (oneEnd.foldl step new).removals, x.live = false) ∧
      ∀ connection, (oneEnd.foldl step new).entry = some connection → (oneEnd.foldl step new).named connection = true →
        ¬ ∃ i x, (oneEnd.foldl step new).reports i = some x ∧ x.1.about = connection := by
  have hspares : AllMeet step SparesLive new oneEnd := by
    refine ⟨trivial, trivial, trivial, trivial, trivial, ?_, trivial⟩
    intro report held made hi connection he
    obtain rfl : 0 = connection := Option.some.inj he
    obtain ⟨rfl, rfl⟩ : false = held ∧ 1 = made := by
      have hasked : some ((⟨0, true⟩ : Report), Handling.asked false 1) = some (report, .asked held made) := hi
      simpa using congrArg Prod.snd (Option.some.inj hasked)
    exact .inl Nat.zero_lt_one
  have hlands : AllMeet step Lands new oneEnd := by
    refine ⟨trivial, trivial, trivial, trivial, trivial, ?_, trivial⟩
    intro report held made hi
    have hasked : some ((⟨0, true⟩ : Report), Handling.asked false 1) = some (report, .asked held made) := hi
    obtain rfl : (⟨0, true⟩ : Report) = report := congrArg Prod.fst (Option.some.inj hasked)
    exact ⟨List.not_mem_nil, fun _ _ _ => rfl⟩
  have hdone : ∀ i x, (oneEnd.foldl step new).reports i = some x → x.2 = .done := by
    intro i x hi
    by_cases hi0 : i = 0
    · subst hi0
      have hx : some ((⟨0, true⟩ : Report), Handling.done) = some x := hi
      rw [← Option.some.inj hx]
    · have hnone : (oneEnd.foldl step new).reports i = none := by
        simp [oneEnd, step, new, settle, takeReportedPeer, endsThisConnection, reportedEnd, hi0]
      exact nomatch hnone.symm.trans hi
  exact ⟨by decide +kernel, (reports_take_dead_connections _).1 (reaches_foldl hspares),
    (reports_take_dead_connections _).2.1 (reaches_foldl hlands) hdone⟩

open Ends in
/-- The peer is dialled again between the SDK's answer and the removal, and the report of the first connection takes
the second. A channel installed after its end was handled stays. -/
theorem late_report_takes_a_live_connection :
    (∃ s, Reaches step (fun _ _ => True) (· = new) s ∧ s.held = some 1 ∧ s.removals = [⟨1, true⟩]) ∧
    ∃ s, Reaches step (fun _ _ => True) (· = new) s ∧ s.entry = some 0 ∧ s.named 0 = true ∧ s.held = none ∧
      s.reported = 1 ∧ s.reports 0 = some (⟨0, true⟩, .done) :=
  ⟨⟨[Event.connect true, .install 0, .drop, .report 0 true, .ask 0, .connect true, .install 0, .take 0].foldl step new,
      reaches_foldl (allMeet_of_forall (fun _ _ => trivial) _ _), by decide +kernel, by decide +kernel⟩,
    [Event.connect true, .drop, .report 0 true, .ask 0, .take 0, .install 0].foldl step new,
    reaches_foldl (allMeet_of_forall (fun _ _ => trivial) _ _), by decide +kernel, by decide +kernel, by decide +kernel,
    by decide +kernel, by decide +kernel⟩

end CitadelAgent.Peers
