import CitadelAgent.Reconnect.Policy
import CitadelAgent.Reconnect.Session

/-!
# The entries an account has had

A CID is permanent, its entry in the map of sessions is not: a Disconnect takes it out and a sign-in makes another, with a
`Handoff` of its own, while a reconnect run of the first may still be asleep.

* `Numbered`, `Run` : an entry and a run, each with the place of an entry among those the account has had;
* `Account.step` : drops, sign-ins and the runs, one critical section or one answer of the SDK at a time;
* `Fits` : what a run that is at work may be to the entry in the map;
* `acts_on_its_own_entry` : a run acts on the entry it was started for, as long as no entry is given the generation of a
  run left over from an earlier one.
-/

namespace CitadelAgent.Reconnect
open Function

structure Numbered extends Entry where
  number : Nat
  keepAlive : Option Duration
  droppedAt : Nat

inductive AttemptResult
  | connected
  /-- The server answered as another account. -/
  | connectedAs
  | failed (kind : FailureKind)

/-- Why a run gives up. -/
inductive Why
  | needsUser
  | otherAccount
  | refused
  | outOfTime (kind : FailureKind) (delay : Duration)
  deriving DecidableEq

structure Run where
  startedFor : Nat
  generation : Nat
  startedAt : Nat
  attempt : UInt32
  wakesAt : Nat
  gate : Nat
  /-- From the credentials of its last attempt. -/
  keepAlive : Option Duration
  why : Why
  pc : Pc

inductive Deed
  | attempt
  | install
  | giveUp (why : Why)
  deriving DecidableEq

structure Performed where
  deed : Deed
  startedFor : Nat
  entry : Nat
  keepAlive : Option Duration
  droppedAt : Nat
  at_ : Nat
  deriving DecidableEq

structure Account where
  entry : Option Numbered
  entries : Nat
  now : Nat
  /-- Drops that marked an entry and have not got as far as `spawn`. -/
  begun : Nat
  runs : Nat → Option Run
  started : Nat
  /-- Who has the attempt lock of an entry. -/
  attempts : Nat → Option Nat
  links : Nat
  performed : List Performed

/-- The takeovers are here by what they do to the entry: `mark`, then `takeOver` or `handBack`. -/
inductive AccountAct
  | pass (nanos : Nat)
  | connect (needsUser : Bool) (keepAlive : Option Duration)
  | report (reported : Option Nat)
  | spawn
  | remove
  | ending
  | unending
  | mark
  | takeOver (keepAlive : Option Duration)
  | handBack
  | wake (run : Nat)
  | lock (run : Nat)
  | check (run : Nat)
  | answer (run : Nat) (result : AttemptResult)
  | split (run : Nat) (ok : Bool)
  | admit_ (run : Nat)
  | closed (run : Nat)
  | conclude (run : Nat)
  | finish (run : Nat)

/-- Only these give the entry a new generation. -/
def AccountAct.marks : AccountAct → Bool
  | .report _ => true
  | .handBack => true
  | _ => false

namespace Account

variable (policy : ReconnectPolicy) (keepAliveCheck : Duration)

def new : Account := ⟨none, 0, 0, 0, fun _ => none, 0, fun _ => none, 0, []⟩

def goTo (i : Nat) (r : Run) (s : Account) : Account := { s with runs := update s.runs i (some r) }

def unlock (i : Nat) (s : Account) : Account :=
  { s with attempts := fun gate => if s.attempts gate = some i then none else s.attempts gate }

def leave (i : Nat) (s : Account) : Account := { s.unlock i with runs := update s.runs i none }

def record (deed : Deed) (r : Run) (e : Numbered) (s : Account) : Account :=
  { s with performed := ⟨deed, r.startedFor, e.number, e.keepAlive, e.droppedAt, s.now⟩ :: s.performed }

/-- `resume`: a run of the entry's generation. -/
def resume (e : Numbered) (s : Account) : Account :=
  { s with
    runs := update s.runs s.started (some ⟨e.number, e.generation, s.now, 0, s.now + (policy.delayBefore 0).nanos, 0, none,
      .needsUser, .sleeping⟩)
    started := s.started + 1 }

def connect (needsUser : Bool) (keepAlive : Option Duration) (s : Account) : Account :=
  { s with
    entry := some ⟨⟨.up, 0, s.links, needsUser⟩, s.entries, keepAlive, s.now⟩
    entries := s.entries + 1
    links := s.links + 1 }

def begin (reported : Option Nat) (s : Account) : Account :=
  match s.entry with
  | none => s
  | some e =>
      match onReportedDrop e.link e.instance_ reported with
      | some .reconnect =>
          { s with
            entry := some { e with link := .reconnecting, generation := e.generation + 1, droppedAt := s.now }
            begun := s.begun + 1 }
      | _ => s

def spawn (s : Account) : Account :=
  if s.begun = 0 then s
  else
    match s.entry with
    | none => { s with begun := s.begun - 1 }
    | some e => { s with begun := s.begun - 1 }.resume policy e

/-- `still_reconnecting`, and what follows from its credentials. -/
def check (i : Nat) (r : Run) (s : Account) : Account :=
  match s.entry with
  | none => s.leave i
  | some e =>
      if attemptWanted e.link e.generation r.generation = true then
        if e.needsUser = true then s.goTo i { r with keepAlive := e.keepAlive, why := .needsUser, pc := .failing }
        else (s.record .attempt r e).goTo i { r with keepAlive := e.keepAlive, pc := .connecting }
      else s.leave i

def answer (i : Nat) (r : Run) (s : Account) : AttemptResult → Account
  | .connected => { s with links := s.links + 1 }.goTo i { r with pc := .opened s.links }
  | .connectedAs => { s with links := s.links + 1 }.goTo i { r with why := .otherAccount, pc := .closing s.links true }
  | .failed kind =>
      let policy := policy.forKeepAlive keepAliveCheck r.keepAlive
      match policy.afterFailure r.attempt (.clamp (s.now - r.startedAt)) kind with
      | .retryAfter delay =>
          (s.unlock i).goTo i
            { r with attempt := ReconnectPolicy.nextAttempt r.attempt, wakesAt := s.now + delay.nanos, pc := .sleeping }
      | .giveUp .refused => s.goTo i { r with why := .refused, pc := .failing }
      | .giveUp .outOfTime =>
          s.goTo i
            { r with why := .outOfTime kind (policy.delayBefore (ReconnectPolicy.nextAttempt r.attempt)), pc := .failing }

def admit_ (i : Nat) (r : Run) (link : Nat) (s : Account) : Account :=
  match s.entry with
  | none => s.goTo i { r with pc := .closing link false }
  | some e =>
      if attemptInstalls e.link e.generation r.generation = true then
        { s.record .install r e with entry := some { e with link := .up, instance_ := link } }.goTo i
          { r with pc := .finishing }
      else s.goTo i { r with pc := .closing link false }

/-- `fail` -/
def conclude (i : Nat) (r : Run) (s : Account) : Account :=
  match s.entry with
  | none => s.leave i
  | some e =>
      if e.link = .reconnecting ∧ e.generation = r.generation then
        { s.record (.giveUp r.why) r e with entry := none }.leave i
      else s.leave i

def step (s : Account) : AccountAct → Account
  | .pass nanos => { s with now := s.now + nanos }
  | .connect needsUser keepAlive => s.connect needsUser keepAlive
  | .report reported => s.begin reported
  | .spawn => s.spawn policy
  | .remove => { s with entry := none }
  | .ending => { s with entry := s.entry.map fun e => if e.link = .up then { e with link := .ending } else e }
  | .unending => { s with entry := s.entry.map fun e => if e.link = .ending then { e with link := .up } else e }
  | .mark =>
      { s with entry := s.entry.map fun e => if mayTakeOver e.link = true then { e with link := .signingIn } else e }
  | .takeOver keepAlive =>
      { s with
        entry := s.entry.map fun e =>
          if e.link = .signingIn then { e with link := .up, instance_ := s.links, needsUser := false, keepAlive := keepAlive }
          else e
        links := s.links + 1 }
  | .handBack =>
      match s.entry with
      | none => s
      | some e =>
          if e.link = .signingIn then
            let e := { e with link := .reconnecting, generation := e.generation + 1 }
            { s with entry := some e }.resume policy e
          else s
  | .wake i =>
      match s.runs i with
      | some r =>
          if r.pc = .sleeping ∧ r.wakesAt ≤ s.now then
            match s.entry with
            | none => s.leave i
            | some e => s.goTo i { r with gate := e.number, pc := .waiting }
          else s
      | none => s
  | .lock i =>
      match s.runs i with
      | some r =>
          if r.pc = .waiting ∧ s.attempts r.gate = none then
            { s with attempts := update s.attempts r.gate (some i) }.goTo i { r with pc := .checking }
          else s
      | none => s
  | .check i =>
      match s.runs i with
      | some r => if r.pc = .checking then s.check i r else s
      | none => s
  | .answer i result =>
      match s.runs i with
      | some r => if r.pc = .connecting then s.answer policy keepAliveCheck i r result else s
      | none => s
  | .split i ok =>
      match s.runs i with
      | some r =>
          match r.pc with
          | .opened link => if ok = true then s.goTo i { r with pc := .ready link } else s.leave i
          | _ => s
      | none => s
  | .admit_ i =>
      match s.runs i with
      | some r =>
          match r.pc with
          | .ready link => s.admit_ i r link
          | _ => s
      | none => s
  | .closed i =>
      match s.runs i with
      | some r =>
          match r.pc with
          | .closing _ failed => if failed = true then s.goTo i { r with pc := .failing } else s.leave i
          | _ => s
      | none => s
  | .conclude i =>
      match s.runs i with
      | some r => if r.pc = .failing then s.conclude i r else s
      | none => s
  | .finish i =>
      match s.runs i with
      | some r => if r.pc = .finishing then s.leave i else s
      | none => s

end Account

/-! ## What a run may be to the entry -/

/-- The run has been told to attempt, and with which credentials. -/
def Pc.Past : Pc → Prop
  | .sleeping => False
  | .asked => False
  | .waiting => False
  | .checking => False
  | _ => True

structure Fits (e : Numbered) (r : Run) : Prop where
  own : e.Waits → r.generation = e.generation → r.startedFor = e.number
  bounded : r.startedFor = e.number → r.generation ≤ e.generation
  since : r.startedFor = e.number → r.generation = e.generation → e.droppedAt ≤ r.startedAt
  keepAlive : e.Waits → r.generation = e.generation → r.pc.Past → r.keepAlive = e.keepAlive

structure Run.Same (r r' : Run) : Prop where
  startedFor : r'.startedFor = r.startedFor
  generation : r'.generation = r.generation
  startedAt : r'.startedAt = r.startedAt

namespace Fits

variable {e e' : Numbered} {r r' : Run}

theorem goOn (h : Fits e r) (hsame : r.Same r')
    (hpast : r'.pc.Past → r.pc.Past ∧ r'.keepAlive = r.keepAlive ∨ r'.keepAlive = e.keepAlive) : Fits e r' := by
  obtain ⟨hfor, hgen, hat⟩ := hsame
  refine ⟨?_, ?_, ?_, fun hwaits hg hpc => ?_⟩
  · rw [hfor, hgen]
    exact h.own
  · rw [hfor, hgen]
    exact h.bounded
  · rw [hfor, hgen, hat]
    exact h.since
  · obtain ⟨hpc', hkeep⟩ | hkeep := hpast hpc
    · exact hkeep.trans (h.keepAlive hwaits (hgen ▸ hg) hpc')
    · exact hkeep

theorem relink (h : Fits e r) (hnumber : e'.number = e.number) (hgeneration : e'.generation = e.generation)
    (hdropped : e'.droppedAt = e.droppedAt) (hwaits : e'.Waits → e.Waits ∧ e'.keepAlive = e.keepAlive) : Fits e' r := by
  refine ⟨fun hw => ?_, ?_, ?_, fun hw hg hpc => ?_⟩
  · rw [hnumber, hgeneration]
    exact h.own (hwaits hw).1
  · rw [hnumber, hgeneration]
    exact h.bounded
  · rw [hnumber, hgeneration, hdropped]
    exact h.since
  · rw [(hwaits hw).2]
    exact h.keepAlive (hwaits hw).1 (hgeneration ▸ hg) hpc

theorem next (h : Fits e r) (hnumber : e'.number = e.number) (hgeneration : e'.generation = e.generation + 1)
    (hfresh : r.startedFor ≠ e.number → r.generation ≠ e.generation + 1) : Fits e' r := by
  have hnone : r.generation = e'.generation → r.startedFor = e.number := by
    intro hg
    by_contra hfor
    exact hfresh hfor (hg.trans hgeneration)
  have hnot : r.generation ≠ e'.generation := by
    intro hg
    have hle := h.bounded (hnone hg)
    omega
  refine ⟨fun _ hg => absurd hg hnot, fun hfor => ?_, fun _ hg => absurd hg hnot, fun _ hg => absurd hg hnot⟩
  have hle := h.bounded (hfor.trans hnumber)
  omega

end Fits

variable (policy : ReconnectPolicy) (keepAliveCheck : Duration)

/-- By `at_`, this failure had used up the session's time since `since`, but for the next delay. -/
def UsedUp (kind : FailureKind) (delay : Duration) (keepAlive : Option Duration) (since at_ : Nat) : Prop :=
  ((policy.forKeepAlive keepAliveCheck keepAlive).limit kind).nanos < at_ - since + delay.nanos

theorem UsedUp.mono {policy : ReconnectPolicy} {keepAliveCheck : Duration} {kind : FailureKind} {delay : Duration}
    {keepAlive : Option Duration} {since since' at_ at' : Nat} (h : UsedUp policy keepAliveCheck kind delay keepAlive since at_)
    (hsince : since' ≤ since) (hat : at_ ≤ at') : UsedUp policy keepAliveCheck kind delay keepAlive since' at' := by
  unfold UsedUp at *
  omega

structure Run.Ok (now entries : Nat) (r : Run) : Prop where
  startedFor : r.startedFor < entries
  startedAt : r.startedAt ≤ now
  late : ∀ kind delay, r.why = .outOfTime kind delay →
    r.pc = .failing ∧ UsedUp policy keepAliveCheck kind delay r.keepAlive r.startedAt now

/-- The run acted on the entry it was started for, and if it gave up for want of time, the time was up. -/
structure Performed.Proper (x : Performed) : Prop where
  own : x.startedFor = x.entry
  outOfTime : ∀ kind delay, x.deed = .giveUp (.outOfTime kind delay) →
    UsedUp policy keepAliveCheck kind delay x.keepAlive x.droppedAt x.at_

namespace Account

structure Inv (s : Account) : Prop where
  entry : ∀ {e}, s.entry = some e → e.number < s.entries ∧ e.droppedAt ≤ s.now
  runs : ∀ {i r}, s.runs i = some r → r.Ok policy keepAliveCheck s.now s.entries
  fits : ∀ {e i r}, s.entry = some e → s.runs i = some r → Fits e r
  performed : ∀ x ∈ s.performed, x.Proper policy keepAliveCheck

/-- An entry is not given the generation of a run that is left over from an earlier entry. -/
def FreshGenerations (s : Account) : AccountAct → Prop
  | .report reported => ∀ e, s.entry = some e → onReportedDrop e.link e.instance_ reported = some .reconnect →
      ∀ i r, s.runs i = some r → r.startedFor ≠ e.number → r.generation ≠ e.generation + 1
  | .handBack => ∀ e, s.entry = some e → e.link = .signingIn →
      ∀ i r, s.runs i = some r → r.startedFor ≠ e.number → r.generation ≠ e.generation + 1
  | _ => True

theorem freshGenerations_of_not_marks {act : AccountAct} (h : act.marks = false) (s : Account) : s.FreshGenerations act := by
  cases act with
  | report reported => cases h
  | handBack => cases h
  | _ => trivial

namespace Inv

variable {policy keepAliveCheck} {s : Account} {i : Nat} {r : Run}

theorem changeRuns (h : s.Inv policy keepAliveCheck) {runs : Nat → Option Run} {started : Nat}
    (hruns : ∀ i r, runs i = some r →
      s.runs i = some r ∨ r.Ok policy keepAliveCheck s.now s.entries ∧ ∀ e, s.entry = some e → Fits e r) :
    Inv policy keepAliveCheck { s with runs := runs, started := started } := by
  refine ⟨h.entry, fun hr => ?_, fun he hr => ?_, h.performed⟩
  · obtain hr | ⟨hok, -⟩ := hruns _ _ hr
    · exact h.runs hr
    · exact hok
  · obtain hr | ⟨-, hfits⟩ := hruns _ _ hr
    · exact h.fits he hr
    · exact hfits _ he

theorem goTo (h : s.Inv policy keepAliveCheck) (hok : r.Ok policy keepAliveCheck s.now s.entries)
    (hfits : ∀ e, s.entry = some e → Fits e r) : (s.goTo i r).Inv policy keepAliveCheck := by
  refine h.changeRuns fun j r' hj => ?_
  by_cases hij : j = i
  · subst hij
    rw [update_self] at hj
    obtain rfl := Option.some.inj hj
    exact .inr ⟨hok, hfits⟩
  · exact .inl ((update_of_ne hij ..).symm.trans hj)

theorem goOn (h : s.Inv policy keepAliveCheck) (hr : s.runs i = some r) {r' : Run} (hsame : r.Same r')
    (hlate : ∀ kind delay, r'.why = .outOfTime kind delay →
      r'.pc = .failing ∧ UsedUp policy keepAliveCheck kind delay r'.keepAlive r'.startedAt s.now)
    (hpast : r'.pc.Past → r.pc.Past ∧ r'.keepAlive = r.keepAlive ∨ ∃ e, s.entry = some e ∧ r'.keepAlive = e.keepAlive) :
    (s.goTo i r').Inv policy keepAliveCheck := by
  have hok := h.runs hr
  refine h.goTo ⟨?_, ?_, hlate⟩ fun e he => (h.fits he hr).goOn hsame fun hpc => (hpast hpc).imp_right ?_
  · rw [hsame.startedFor]
    exact hok.startedFor
  · rw [hsame.startedAt]
    exact hok.startedAt
  · rintro ⟨e', he', hkeep⟩
    obtain rfl := Option.mem_unique he he'
    exact hkeep

theorem not_late (h : s.Inv policy keepAliveCheck) (hr : s.runs i = some r) (hpc : r.pc ≠ .failing) {why : Why}
    (hwhy : why = r.why) {now : Nat} {r' : Run} (kind : FailureKind) (delay : Duration) (hlate : why = .outOfTime kind delay) :
    r'.pc = .failing ∧ UsedUp policy keepAliveCheck kind delay r'.keepAlive r'.startedAt now :=
  absurd ((h.runs hr).late kind delay (hwhy.symm.trans hlate)).1 hpc

theorem unlock (h : s.Inv policy keepAliveCheck) : (s.unlock i).Inv policy keepAliveCheck :=
  ⟨h.entry, h.runs, h.fits, h.performed⟩

theorem leave (h : s.Inv policy keepAliveCheck) : (s.leave i).Inv policy keepAliveCheck := by
  refine h.unlock.changeRuns fun j r' hj => .inl ?_
  by_cases hij : j = i
  · subst hij
    rw [update_self] at hj
    cases hj
  · exact (update_of_ne hij ..).symm.trans hj

theorem resume (h : s.Inv policy keepAliveCheck) {e : Numbered} (he : s.entry = some e) :
    (s.resume policy e).Inv policy keepAliveCheck := by
  refine h.changeRuns fun j r' hj => ?_
  by_cases hij : j = s.started
  · subst hij
    rw [update_self] at hj
    obtain rfl := Option.some.inj hj
    refine .inr ⟨⟨(h.entry he).1, Nat.le_refl _, fun kind delay hwhy => nomatch hwhy⟩, fun e' he' => ?_⟩
    obtain rfl := Option.mem_unique he he'
    exact ⟨fun _ _ => rfl, fun _ => Nat.le_refl _, fun _ _ => (h.entry he).2, fun _ _ hpc => hpc.elim⟩
  · exact .inl ((update_of_ne hij ..).symm.trans hj)

theorem removeEntry (h : s.Inv policy keepAliveCheck) : Inv policy keepAliveCheck { s with entry := none } :=
  ⟨nofun, h.runs, nofun, h.performed⟩

theorem changeEntry (h : s.Inv policy keepAliveCheck) {e e' : Numbered} (he : s.entry = some e)
    (hnumber : e'.number = e.number) (hdropped : e'.droppedAt = e.droppedAt ∨ e'.droppedAt = s.now)
    (hfits : ∀ i r, s.runs i = some r → Fits e' r) : Inv policy keepAliveCheck { s with entry := some e' } := by
  refine ⟨fun he' => ?_, h.runs, fun he' hr => ?_, h.performed⟩
  · obtain rfl := Option.some.inj he'
    obtain ⟨hlt, hle⟩ := h.entry he
    refine ⟨hnumber ▸ hlt, ?_⟩
    obtain hd | hd := hdropped
    · exact hd ▸ hle
    · exact hd ▸ Nat.le_refl _
  · obtain rfl := Option.some.inj he'
    exact hfits _ _ hr

theorem mapEntry (h : s.Inv policy keepAliveCheck) {f : Numbered → Numbered}
    (hf : ∀ e, (f e).number = e.number ∧ (f e).generation = e.generation ∧ (f e).droppedAt = e.droppedAt ∧
      ((f e).Waits → e.Waits ∧ (f e).keepAlive = e.keepAlive)) :
    Inv policy keepAliveCheck { s with entry := s.entry.map f } := by
  cases he : s.entry with
  | none => exact h.removeEntry
  | some e =>
    obtain ⟨hnumber, hgeneration, hdropped, hwaits⟩ := hf e
    exact h.changeEntry he hnumber (.inl hdropped) fun i r hr => (h.fits he hr).relink hnumber hgeneration hdropped hwaits

theorem record (h : s.Inv policy keepAliveCheck) {deed : Deed} {e : Numbered} (hown : r.startedFor = e.number)
    (htime : ∀ kind delay, deed = .giveUp (.outOfTime kind delay) →
      UsedUp policy keepAliveCheck kind delay e.keepAlive e.droppedAt s.now) :
    (s.record deed r e).Inv policy keepAliveCheck := by
  refine ⟨h.entry, h.runs, h.fits, fun x hx => ?_⟩
  obtain rfl | hx := List.mem_cons.mp hx
  · exact ⟨hown, htime⟩
  · exact h.performed x hx

theorem pass (h : s.Inv policy keepAliveCheck) (nanos : Nat) : Inv policy keepAliveCheck { s with now := s.now + nanos } := by
  refine ⟨fun he => ?_, fun hr => ?_, h.fits, h.performed⟩
  · obtain ⟨hlt, hle⟩ := h.entry he
    exact ⟨hlt, Nat.le_trans hle (Nat.le_add_right ..)⟩
  · obtain ⟨hfor, hat, hlate⟩ := h.runs hr
    refine ⟨hfor, Nat.le_trans hat (Nat.le_add_right ..), fun kind delay hwhy => ?_⟩
    obtain ⟨hpc, hused⟩ := hlate kind delay hwhy
    exact ⟨hpc, hused.mono (Nat.le_refl _) (Nat.le_add_right ..)⟩

theorem connect (h : s.Inv policy keepAliveCheck) (needsUser : Bool) (keepAlive : Option Duration) :
    (s.connect needsUser keepAlive).Inv policy keepAliveCheck := by
  refine ⟨fun he => ?_, fun hr => ?_, fun he hr => ?_, h.performed⟩
  · obtain rfl := Option.some.inj he
    exact ⟨Nat.lt_succ_self _, Nat.le_refl _⟩
  · obtain ⟨hfor, hat, hlate⟩ := h.runs hr
    exact ⟨Nat.lt_succ_of_lt hfor, hat, hlate⟩
  · obtain rfl := Option.some.inj he
    have hne := Nat.ne_of_lt (h.runs hr).startedFor
    refine ⟨fun hw => ?_, fun hfor => absurd hfor hne, fun hfor => absurd hfor hne, fun hw => ?_⟩
    · exact hw.elim nofun nofun
    · exact hw.elim nofun nofun

theorem begin (h : s.Inv policy keepAliveCheck) {reported : Option Nat} (hfresh : s.FreshGenerations (.report reported)) :
    (s.begin reported).Inv policy keepAliveCheck := by
  unfold Account.begin
  split
  · exact h
  · rename_i e he
    split
    · rename_i hdrop
      have hbegun : Inv policy keepAliveCheck { s with begun := s.begun + 1 } := ⟨h.entry, h.runs, h.fits, h.performed⟩
      exact hbegun.changeEntry he rfl (.inr rfl) fun i r hr => (h.fits he hr).next rfl rfl (hfresh e he hdrop i r hr)
    · exact h

theorem spawn (h : s.Inv policy keepAliveCheck) : (s.spawn policy).Inv policy keepAliveCheck := by
  unfold Account.spawn
  split
  · exact h
  · split
    · exact ⟨h.entry, h.runs, h.fits, h.performed⟩
    · rename_i e he
      have hbegun : Inv policy keepAliveCheck { s with begun := s.begun - 1 } := ⟨h.entry, h.runs, h.fits, h.performed⟩
      exact hbegun.resume he

theorem handBack (h : s.Inv policy keepAliveCheck) (hfresh : s.FreshGenerations .handBack) :
    (s.step policy keepAliveCheck .handBack).Inv policy keepAliveCheck := by
  simp only [Account.step]
  split
  · exact h
  · rename_i e he
    split
    · rename_i hlink
      have hchanged : Inv policy keepAliveCheck
          { s with entry := some { e with link := .reconnecting, generation := e.generation + 1 } } :=
        h.changeEntry he rfl (.inl rfl) fun i r hr => (h.fits he hr).next rfl rfl (hfresh e he hlink i r hr)
      exact hchanged.resume rfl
    · exact h

theorem check (h : s.Inv policy keepAliveCheck) (hr : s.runs i = some r) (hpc : r.pc = .checking) :
    (s.check i r).Inv policy keepAliveCheck := by
  unfold Account.check
  split
  · exact h.leave
  · rename_i e he
    split
    · rename_i hwanted
      obtain ⟨hlink, hgen⟩ : e.link = .reconnecting ∧ e.generation = r.generation := by simpa [attemptWanted] using hwanted
      have hown := (h.fits he hr).own (.inl hlink) hgen.symm
      split
      · exact h.goOn hr ⟨rfl, rfl, rfl⟩ (fun kind delay hwhy => nomatch hwhy) fun _ => .inr ⟨e, he, rfl⟩
      · have hrecord : (s.record .attempt r e).Inv policy keepAliveCheck :=
          h.record hown fun kind delay hdeed => nomatch hdeed
        exact hrecord.goOn hr ⟨rfl, rfl, rfl⟩ (h.not_late hr (by simp [hpc]) rfl) fun _ => .inr ⟨e, he, rfl⟩
    · exact h.leave

theorem answer (h : s.Inv policy keepAliveCheck) (hr : s.runs i = some r) (hpc : r.pc = .connecting)
    (result : AttemptResult) : (s.answer policy keepAliveCheck i r result).Inv policy keepAliveCheck := by
  have hlinks : Inv policy keepAliveCheck { s with links := s.links + 1 } := ⟨h.entry, h.runs, h.fits, h.performed⟩
  have hpast : r.pc.Past := hpc ▸ trivial
  cases result with
  | connected =>
    exact hlinks.goOn hr ⟨rfl, rfl, rfl⟩ (h.not_late hr (by simp [hpc]) rfl) fun _ => .inl ⟨hpast, rfl⟩
  | connectedAs =>
    exact hlinks.goOn hr ⟨rfl, rfl, rfl⟩ (fun kind delay hwhy => nomatch hwhy) fun _ => .inl ⟨hpast, rfl⟩
  | failed kind =>
    simp only [Account.answer]
    split
    · exact h.unlock.goOn hr ⟨rfl, rfl, rfl⟩ (h.not_late hr (by simp [hpc]) rfl) fun hp => hp.elim
    · exact h.goOn hr ⟨rfl, rfl, rfl⟩ (fun kind delay hwhy => nomatch hwhy) fun _ => .inl ⟨hpast, rfl⟩
    · rename_i hnext
      refine h.goOn hr ⟨rfl, rfl, rfl⟩ (fun kind' delay hwhy => ⟨rfl, ?_⟩) fun _ => .inl ⟨hpast, rfl⟩
      obtain ⟨rfl, rfl⟩ := Why.outOfTime.inj hwhy
      have hlimit := (ReconnectPolicy.outOfTime_iff.mp hnext).2
      have hsum := Duration.nanos_clamp_le ((Duration.clamp (s.now - r.startedAt)).nanos +
        ((policy.forKeepAlive keepAliveCheck r.keepAlive).delayBefore (ReconnectPolicy.nextAttempt r.attempt)).nanos)
      have helapsed := Duration.nanos_clamp_le (s.now - r.startedAt)
      simp only [Duration.saturatingAdd] at hlimit
      show ((policy.forKeepAlive keepAliveCheck r.keepAlive).limit kind).nanos < s.now - r.startedAt + _
      omega

theorem admit_ (h : s.Inv policy keepAliveCheck) (hr : s.runs i = some r) {link : Nat} (hpc : r.pc = .ready link) :
    (s.admit_ i r link).Inv policy keepAliveCheck := by
  have hpast : r.pc.Past := hpc ▸ trivial
  unfold Account.admit_
  split
  · exact h.goOn hr ⟨rfl, rfl, rfl⟩ (h.not_late hr (by simp [hpc]) rfl) fun _ => .inl ⟨hpast, rfl⟩
  · rename_i e he
    split
    · rename_i hinstalls
      obtain ⟨hlink, hgen⟩ : (e.link = .reconnecting ∨ e.link = .signingIn) ∧ e.generation = r.generation := by
        simpa [attemptInstalls] using hinstalls
      have hrecord : (s.record .install r e).Inv policy keepAliveCheck :=
        h.record ((h.fits he hr).own hlink hgen.symm) fun kind delay hdeed => nomatch hdeed
      have hentry : Inv policy keepAliveCheck
          { s.record .install r e with entry := some { e with link := .up, instance_ := link } } := by
        refine hrecord.changeEntry he rfl (.inl rfl) fun j r' hr' => (h.fits he hr').relink rfl rfl rfl fun hw => ?_
        exact hw.elim nofun nofun
      exact hentry.goOn hr ⟨rfl, rfl, rfl⟩ (h.not_late hr (by simp [hpc]) rfl) fun _ => .inl ⟨hpast, rfl⟩
    · exact h.goOn hr ⟨rfl, rfl, rfl⟩ (h.not_late hr (by simp [hpc]) rfl) fun _ => .inl ⟨hpast, rfl⟩

theorem conclude (h : s.Inv policy keepAliveCheck) (hr : s.runs i = some r) (hpc : r.pc = .failing) :
    (s.conclude i r).Inv policy keepAliveCheck := by
  unfold Account.conclude
  split
  · exact h.leave
  · rename_i e he
    split
    · rename_i hwanted
      obtain ⟨hlink, hgen⟩ := hwanted
      have hfits := h.fits he hr
      have hown := hfits.own (.inl hlink) hgen.symm
      refine ((h.record hown fun kind delay hdeed => ?_).removeEntry).leave
      obtain hwhy := Deed.giveUp.inj hdeed
      have hused := ((h.runs hr).late kind delay hwhy).2
      rw [hfits.keepAlive (.inl hlink) hgen.symm (hpc ▸ trivial)] at hused
      exact hused.mono (hfits.since hown hgen.symm) (Nat.le_refl _)
    · exact h.leave

theorem step (h : s.Inv policy keepAliveCheck) (act : AccountAct) (hfresh : s.FreshGenerations act) :
    (s.step policy keepAliveCheck act).Inv policy keepAliveCheck := by
  cases act with
  | pass nanos => exact h.pass nanos
  | connect needsUser keepAlive => exact h.connect needsUser keepAlive
  | report reported => exact h.begin hfresh
  | spawn => exact h.spawn
  | remove => exact h.removeEntry
  | ending =>
    refine h.mapEntry fun e => ?_
    split
    · exact ⟨rfl, rfl, rfl, fun hw => hw.elim nofun nofun⟩
    · exact ⟨rfl, rfl, rfl, fun hw => ⟨hw, rfl⟩⟩
  | unending =>
    refine h.mapEntry fun e => ?_
    split
    · exact ⟨rfl, rfl, rfl, fun hw => hw.elim nofun nofun⟩
    · exact ⟨rfl, rfl, rfl, fun hw => ⟨hw, rfl⟩⟩
  | mark =>
    refine h.mapEntry fun e => ?_
    split
    · rename_i hmay
      exact ⟨rfl, rfl, rfl, fun _ => ⟨.inl (by simpa [mayTakeOver] using hmay), rfl⟩⟩
    · exact ⟨rfl, rfl, rfl, fun hw => ⟨hw, rfl⟩⟩
  | takeOver keepAlive =>
    have hlinks : Inv policy keepAliveCheck { s with links := s.links + 1 } := ⟨h.entry, h.runs, h.fits, h.performed⟩
    refine hlinks.mapEntry fun e => ?_
    split
    · exact ⟨rfl, rfl, rfl, fun hw => hw.elim nofun nofun⟩
    · exact ⟨rfl, rfl, rfl, fun hw => ⟨hw, rfl⟩⟩
  | handBack => exact h.handBack hfresh
  | wake i =>
    simp only [Account.step]
    split
    · rename_i r hr
      split
      · rename_i hpc
        split
        · exact h.leave
        · exact h.goOn hr ⟨rfl, rfl, rfl⟩ (h.not_late hr (by simp [hpc.1]) rfl) fun hp => hp.elim
      · exact h
    · exact h
  | lock i =>
    simp only [Account.step]
    split
    · rename_i r hr
      split
      · rename_i hpc
        have hlocked : Inv policy keepAliveCheck { s with attempts := update s.attempts r.gate (some i) } :=
          ⟨h.entry, h.runs, h.fits, h.performed⟩
        exact hlocked.goOn hr ⟨rfl, rfl, rfl⟩ (h.not_late hr (by simp [hpc.1]) rfl) fun hp => hp.elim
      · exact h
    · exact h
  | check i =>
    simp only [Account.step]
    split
    · rename_i r hr
      split
      · rename_i hpc
        exact h.check hr hpc
      · exact h
    · exact h
  | answer i result =>
    simp only [Account.step]
    split
    · rename_i r hr
      split
      · rename_i hpc
        exact h.answer hr hpc result
      · exact h
    · exact h
  | split i ok =>
    simp only [Account.step]
    split
    · rename_i r hr
      split
      · rename_i link hpc
        split
        · exact h.goOn hr ⟨rfl, rfl, rfl⟩ (h.not_late hr (by simp [hpc]) rfl) fun _ => .inl ⟨hpc ▸ trivial, rfl⟩
        · exact h.leave
      · exact h
    · exact h
  | admit_ i =>
    simp only [Account.step]
    split
    · rename_i r hr
      split
      · rename_i link hpc
        exact h.admit_ hr hpc
      · exact h
    · exact h
  | closed i =>
    simp only [Account.step]
    split
    · rename_i r hr
      split
      · rename_i link failed hpc
        split
        · exact h.goOn hr ⟨rfl, rfl, rfl⟩ (h.not_late hr (by simp [hpc]) rfl) fun _ => .inl ⟨hpc ▸ trivial, rfl⟩
        · exact h.leave
      · exact h
    · exact h
  | conclude i =>
    simp only [Account.step]
    split
    · rename_i r hr
      split
      · rename_i hpc
        exact h.conclude hr hpc
      · exact h
    · exact h
  | finish i =>
    simp only [Account.step]
    split
    · split
      · exact h.leave
      · exact h
    · exact h

end Inv

/-- The states of an account in runs whose steps all meet a condition. -/
inductive AccountRun (condition : Account → AccountAct → Prop) : Account → Prop
  | new : AccountRun condition new
  | step {s : Account} (act : AccountAct) :
      AccountRun condition s → condition s act → AccountRun condition (s.step policy keepAliveCheck act)

variable {policy keepAliveCheck}

theorem AccountRun.foldl {condition : Account → AccountAct → Prop} {acts : List AccountAct} {s : Account}
    (h : AccountRun policy keepAliveCheck condition s) (hacts : ∀ act ∈ acts, ∀ s, condition s act) :
    AccountRun policy keepAliveCheck condition (acts.foldl (Account.step policy keepAliveCheck) s) := by
  induction acts generalizing s with
  | nil => exact h
  | cons act rest ih =>
    exact ih (.step act h (hacts act List.mem_cons_self s)) fun act' hact' => hacts act' (List.mem_cons_of_mem _ hact')

theorem inv_of_run {s : Account} (h : AccountRun policy keepAliveCheck FreshGenerations s) :
    s.Inv policy keepAliveCheck := by
  induction h with
  | new => exact ⟨nofun, nofun, nofun, fun x hx => nomatch hx⟩
  | step act _ hfresh ih => exact ih.step act hfresh

end Account

/-- In every run of an account in which no entry is given the generation of a run left over from an earlier one, a run
acts only on the entry it was started for, and gives up for want of time only by that entry's own policy. -/
theorem acts_on_its_own_entry (policy : ReconnectPolicy) (keepAliveCheck : Duration) {s : Account}
    (h : Account.AccountRun policy keepAliveCheck Account.FreshGenerations s) {x : Performed} (hx : x ∈ s.performed) :
    x.startedFor = x.entry ∧ ∀ kind delay, x.deed = .giveUp (.outOfTime kind delay) →
      ((policy.forKeepAlive keepAliveCheck x.keepAlive).limit kind).nanos < x.at_ - x.droppedAt + delay.nanos :=
  have hproper := (Account.inv_of_run h).performed x hx
  ⟨hproper.own, hproper.outOfTime⟩

def fiveSeconds : Duration := .ofSecs 5

def attemptsFail (run times : Nat) : List AccountAct :=
  (List.replicate times [.pass (30 * 10 ^ 9), .wake run, .lock run, .check run, .pass (14 * 10 ^ 9),
    .answer run (.failed .transient)]).flatten

def dropped : Account := [.connect false none, .report none, .spawn].foldl (Account.step tenMinutes fiveSeconds) .new

def awayTooLongActs : List AccountAct := attemptsFail 0 13 ++ [.conclude 0]

def awayTooLong : Account := awayTooLongActs.foldl (Account.step tenMinutes fiveSeconds) dropped

theorem acts_on_its_own_entry_away : ∃ x ∈ awayTooLong.performed,
    x.deed = .giveUp (.outOfTime .transient (.ofSecs 30)) ∧ x.startedFor = x.entry ∧
      600 * 10 ^ 9 < x.at_ - x.droppedAt + 30 * 10 ^ 9 := by
  have hdropped : Account.AccountRun tenMinutes fiveSeconds Account.FreshGenerations dropped := by
    simp only [dropped, List.foldl_cons, List.foldl_nil]
    exact .step _ (.step _ (.step _ .new trivial) fun _ _ _ _ _ hr => nomatch hr) trivial
  have hquiet : ∀ act ∈ awayTooLongActs, act.marks = false := by decide
  have hrun : Account.AccountRun tenMinutes fiveSeconds Account.FreshGenerations awayTooLong :=
    hdropped.foldl fun act hact => Account.freshGenerations_of_not_marks (hquiet act hact)
  have hmem : ⟨.giveUp (.outOfTime .transient (.ofSecs 30)), 0, 0, none, 0, 572 * 10 ^ 9⟩ ∈ awayTooLong.performed := by
    decide +kernel
  obtain ⟨hown, htime⟩ := acts_on_its_own_entry tenMinutes fiveSeconds hrun hmem
  exact ⟨_, hmem, rfl, hown, htime _ _ rfl⟩

def leftOverActs : List AccountAct :=
  attemptsFail 0 12 ++ [.pass (29900 * 10 ^ 6), .remove, .connect false none, .report none, .spawn, .pass (100 * 10 ^ 6),
    .wake 0, .lock 0, .check 0, .pass (14 * 10 ^ 9), .answer 0 (.failed .transient), .conclude 0]

def leftOver : Account := leftOverActs.foldl (Account.step tenMinutes fiveSeconds) dropped

/-- The first session's run attempts for the second and gives it up, fifteen seconds after its drop. -/
theorem left_over_gives_up : Account.AccountRun tenMinutes fiveSeconds (fun _ _ => True) leftOver ∧ leftOver.entry = none ∧
    ⟨.attempt, 0, 1, none, 557900 * 10 ^ 6, 558 * 10 ^ 9⟩ ∈ leftOver.performed ∧
    ⟨.giveUp (.outOfTime .transient (.ofSecs 30)), 0, 1, none, 557900 * 10 ^ 6, 572 * 10 ^ 9⟩ ∈ leftOver.performed := by
  have hdropped : Account.AccountRun tenMinutes fiveSeconds (fun _ _ => True) dropped := by
    simp only [dropped, List.foldl_cons, List.foldl_nil]
    exact .step _ (.step _ (.step _ .new trivial) trivial) trivial
  exact ⟨hdropped.foldl fun _ _ _ => trivial, by decide +kernel, by decide +kernel, by decide +kernel⟩

end CitadelAgent.Reconnect
