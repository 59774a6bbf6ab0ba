import CitadelAgent.Groups.Channels
import CitadelAgent.Lib.Updates

/-!
# Group membership follows what was said last

* `sayings` : what the events that wait say of a group;
* `Follows` : the steps that follow;
* `Channels`, `Told` : the invariant, of the channels and of what was said;
* `membership_follows` : over whole runs.
-/

namespace CitadelAgent.Groups
open Function Machine

variable {κ : Type} [DecidableEq κ]

def sayings (events : List (Event κ)) (key : κ) : List Bool :=
  events.filterMap fun event => if event.key = key then event.membership else none

namespace State

/-- No message of the group is with the SDK, and one that has yet to be checked has this channel or a departed one. -/
def Yields (s : State κ) (key : κ) (flag : Flag) : Prop :=
  ∀ i message, s.messages i = some message → message.key = key →
    message.accepted = false ∧ (message.flag = flag ∨ s.departed message.flag = true)

/-- A departure that a channel of the group records is of the entry, if the group is found, and no event waits that says otherwise. -/
def Departs (s : State κ) (key : κ) (flag : Flag) : Prop :=
  (s.finds key = true → s.entry key = some flag ∧ s.Yields key flag) ∧ ∀ said ∈ sayings s.waiting key, said = false

/-- The answer to a `LeaveRoom` comes when the group is not found any more. -/
def Takes (s : State κ) : Event κ → Prop
  | .disconnected key | .endResponse key true => ∀ flag, s.get key = some flag → s.Yields key flag
  | .leaveRoomResponse key true => s.finds key = false
  | _ => True

def InOrder (event : Event κ) (earlier : List (Event κ)) : Prop :=
  ∀ said, event.membership = some said → ∀ said' ∈ sayings earlier event.key, said' = said

def Follows (s : State κ) : Act κ → Prop
  | .arrive event => s.groups ≠ none → InOrder event s.waiting ∧ s.Takes event
  | .poll i => ∀ event, s.groups ≠ none → s.waiting[i]? = some event → InOrder event (s.waiting.take i) ∧ s.Takes event
  | .elapse i => ∀ event, s.groups = none → s.waiting[i]? = some event → event.membership = none
  | .broadcast flag payload => ∀ key, s.receivers flag = some key → payload.out = true → s.Departs key flag
  | .left i ok => ∀ departure, s.departures i = some departure → ok = true → s.Departs departure.key departure.flag
  | _ => True

end State

/-- Each channel's flag is its group's. A message's channel departed, or its group is found, which it is for one that is with the SDK. -/
structure Channels (s : State κ) : Prop where
  owner : ∀ key flag, s.entry key = some flag → s.receivers flag = some key
  fresh : ∀ flag, s.made ≤ flag → s.receivers flag = none ∧ s.departed flag = false
  sender : ∀ i message, s.messages i = some message → s.receivers message.flag = some message.key
  live : ∀ i message, s.messages i = some message → s.departed message.flag = true ∨ s.finds message.key = true
  sending : ∀ i message, s.messages i = some message → message.accepted = true → s.finds message.key = true
  leaver : ∀ i departure, s.departures i = some departure → s.receivers departure.flag = some departure.key
  answers : ∀ found ∈ s.answers, found = true

/-- The last of the events that wait for it said what was said last; with none, the group is found when that was "in". -/
structure Told (s : State κ) : Prop where
  waits : ∀ key said, (sayings s.waiting key).getLast? = some said → s.told key = some said
  found : ∀ key, sayings s.waiting key = [] → (s.finds key = true ↔ s.told key = some true)

variable {s : State κ} {key key' : κ} {flag : Flag}

/-! ## What is found -/

theorem finds_iff : s.finds key = true ↔ ∃ flag, s.entry key = some flag ∧ s.departed flag = false := by
  rw [State.finds, State.get, State.entry]
  cases s.groups with
  | none => exact ⟨nofun, fun ⟨_, h, _⟩ => nomatch h⟩
  | some groups =>
    rw [Option.bind_some, Option.bind_some, GroupChannels.get]
    cases groups.inner key with
    | none => exact ⟨nofun, fun ⟨_, h, _⟩ => nomatch h⟩
    | some flag =>
      rw [Option.filter_some]
      cases hdeparted : s.departed flag with
      | false => exact ⟨fun _ => ⟨flag, rfl, hdeparted⟩, fun _ => rfl⟩
      | true =>
        refine ⟨nofun, fun ⟨flag', h, hlive⟩ => ?_⟩
        rw [← Option.some.inj h, hdeparted] at hlive
        exact nomatch hlive

theorem get_eq_some : s.get key = some flag ↔ s.entry key = some flag ∧ s.departed flag = false := by
  rw [State.get, State.entry]
  cases s.groups with
  | none => exact ⟨nofun, fun ⟨h, _⟩ => nomatch h⟩
  | some groups =>
    rw [Option.bind_some, Option.bind_some, GroupChannels.get, Option.filter_eq_some_iff, Bool.not_eq_true']

theorem get_eq_none : s.get key = none ↔ s.finds key = false := by
  rw [State.finds, Option.isSome_eq_false_iff, Option.isNone_iff_eq_none]

theorem finds_congr {t : State κ} (hentry : t.entry key = s.entry key) (hdeparted : t.departed = s.departed) :
    t.finds key = s.finds key := by
  rw [Bool.eq_iff_iff, finds_iff, finds_iff, hentry, hdeparted]

theorem depart_finds (h : Channels s) (hreceiver : s.receivers flag = some key) (hother : key' ≠ key) :
    (s.depart flag).finds key' = s.finds key' := by
  rw [Bool.eq_iff_iff, finds_iff, finds_iff]
  have hne {flag' : Flag} (hentry : s.entry key' = some flag') : flag' ≠ flag := by
    rintro rfl
    exact hother (Option.mem_unique (h.owner key' flag' hentry) hreceiver)
  constructor
  · rintro ⟨flag', hentry, hlive⟩
    exact ⟨flag', hentry, (update_of_ne (hne hentry) ..).symm.trans hlive⟩
  · rintro ⟨flag', hentry, hlive⟩
    exact ⟨flag', hentry, (update_of_ne (hne hentry) ..).trans hlive⟩

theorem depart_lost (hentry : s.finds key = true → s.entry key = some flag) : (s.depart flag).finds key = false := by
  rw [← Bool.not_eq_true]
  intro hfinds
  obtain ⟨flag', hentry', hlive⟩ := finds_iff.mp hfinds
  replace hentry' : s.entry key = some flag' := hentry'
  replace hlive : update s.departed flag true flag' = false := hlive
  by_cases hsame : flag' = flag
  · rw [hsame, update_self] at hlive
    exact nomatch hlive
  rw [update_of_ne hsame] at hlive
  exact hsame (Option.mem_unique hentry' (hentry (finds_iff.mpr ⟨flag', hentry', hlive⟩)))

/-! ## Departures -/

theorem Channels.depart (h : Channels s) (hreceiver : s.receivers flag = some key)
    (hdeparts : s.finds key = true → s.entry key = some flag ∧ s.Yields key flag) : Channels (s.depart flag) := by
  have hother {key' : κ} (hne : key' ≠ key) := depart_finds h hreceiver hne
  constructor
  · exact h.owner
  · intro flag' hmade
    have hne : flag' ≠ flag := by
      rintro rfl
      exact nomatch (h.fresh flag' hmade).1.symm.trans hreceiver
    exact ⟨(h.fresh flag' hmade).1, (update_of_ne hne ..).trans (h.fresh flag' hmade).2⟩
  · exact h.sender
  · intro i message hmessage
    have hstays (hdeparted : s.departed message.flag = true) : (s.depart flag).departed message.flag = true := by
      by_cases hsame : message.flag = flag
      · rw [hsame]
        exact update_self ..
      · exact (update_of_ne hsame ..).trans hdeparted
    by_cases hkey : message.key = key
    · rcases h.live i message hmessage with hdeparted | hfinds
      · exact .inl (hstays hdeparted)
      · rw [hkey] at hfinds
        rcases ((hdeparts hfinds).2 i message hmessage hkey).2 with hsame | hdeparted
        · rw [hsame]
          exact .inl (update_self ..)
        · exact .inl (hstays hdeparted)
    · rw [hother hkey]
      exact (h.live i message hmessage).imp_left hstays
  · intro i message hmessage haccepted
    have hfinds := h.sending i message hmessage haccepted
    by_cases hkey : message.key = key
    · rw [hkey] at hfinds
      have hnot := ((hdeparts hfinds).2 i message hmessage hkey).1
      exact nomatch hnot.symm.trans haccepted
    · rwa [hother hkey]
  · exact h.leaver
  · exact h.answers

theorem Channels.tell (h : Channels s) (key : κ) (said : Option Bool) : Channels (s.tell key said) := by
  cases said with
  | none => exact h
  | some said => exact ⟨h.owner, h.fresh, h.sender, h.live, h.sending, h.leaver, h.answers⟩

/-! ## Events that are handled -/

variable {groups : GroupChannels κ}

theorem markDeparted_depart (hgroups : s.groups = some groups) (hget : s.get key = some flag) :
    (groups.markDeparted s.departed key).2 = (s.depart flag).departed := by
  obtain ⟨hentry, hlive⟩ := get_eq_some.mp hget
  have hinner : groups.inner key = some flag := by
    rw [State.entry, hgroups] at hentry
    exact hentry
  simp only [GroupChannels.markDeparted, hinner, hlive, Bool.false_eq_true, if_false, State.depart]

theorem markDeparted_same (hgroups : s.groups = some groups) (hget : s.get key = none) :
    (groups.markDeparted s.departed key).2 = s.departed := by
  have hnot := get_eq_none.mp hget
  rw [GroupChannels.markDeparted]
  cases hinner : groups.inner key with
  | none => rfl
  | some flag =>
    have hentry : s.entry key = some flag := by
      rw [State.entry, hgroups]
      exact hinner
    have hdeparted : s.departed flag = true := by
      by_contra hlive
      exact nomatch hnot.symm.trans (finds_iff.mpr ⟨flag, hentry, eq_false_of_ne_true hlive⟩)
    simp only [hdeparted, if_true]

theorem handle_out (hgroups : s.groups = some groups) {event : Event κ} (hevent : event = .disconnected key ∨ event = .endResponse key true) :
    (∃ flag, s.get key = some flag ∧ s.handle event = s.depart flag) ∨ s.finds key = false ∧ s.handle event = s := by
  have hhandle : s.handle event = { s with departed := (groups.markDeparted s.departed key).2 } := by
    rcases hevent with rfl | rfl
    · simp only [State.handle, hgroups]
    · simp only [State.handle, hgroups]
  rw [hhandle]
  rcases Option.eq_none_or_eq_some (s.get key) with hget | ⟨flag, hget⟩
  · rw [markDeparted_same hgroups hget]
    exact .inr ⟨get_eq_none.mp hget, rfl⟩
  · rw [markDeparted_depart hgroups hget]
    exact .inl ⟨flag, hget, rfl⟩

/-- A group's channel is added, and departed entries swept. -/
structure Adds (s t : State κ) (key : κ) : Prop where
  added : t.entry key = some s.made
  swept : ∀ key', key' ≠ key → t.entry key' = s.get key'
  departed : t.departed = s.departed
  receivers : t.receivers = update s.receivers s.made (some key)
  made : t.made = s.made + 1
  rest : t.messages = s.messages ∧ t.departures = s.departures ∧ t.answers = s.answers

theorem handle_created (hgroups : s.groups = some groups) (key : κ) : Adds s (s.handle (.created key)) key := by
  have hhandle : s.handle (.created key) =
      { s with
        groups := some (groups.insert s.departed key s.made)
        receivers := update s.receivers s.made (some key)
        made := s.made + 1 } := by
    simp only [State.handle, hgroups]
  rw [hhandle]
  refine ⟨update_self .., fun key' hne => ?_, rfl, rfl, rfl, rfl, rfl, rfl⟩
  rw [State.get, hgroups]
  exact update_of_ne hne ..

theorem Adds.finds {t : State κ} (h : Adds s t key) (hchannels : Channels s) : t.finds key = true := by
  refine finds_iff.mpr ⟨s.made, h.added, ?_⟩
  rw [h.departed]
  exact (hchannels.fresh s.made le_rfl).2

theorem Adds.finds_other {t : State κ} (h : Adds s t key) (hne : key' ≠ key) : t.finds key' = s.finds key' := by
  rw [Bool.eq_iff_iff, finds_iff, finds_iff, h.swept key' hne, h.departed]
  constructor
  · rintro ⟨flag, hget, hlive⟩
    exact ⟨flag, (get_eq_some.mp hget).1, hlive⟩
  · rintro ⟨flag, hentry, hlive⟩
    exact ⟨flag, get_eq_some.mpr ⟨hentry, hlive⟩, hlive⟩

theorem Channels.add {t : State κ} (h : Channels s) (hadds : Adds s t key) : Channels t := by
  obtain ⟨hmessages, hdepartures, hanswers⟩ := hadds.rest
  have hreceivers {flag : Flag} {key' : κ} (hflag : s.receivers flag = some key') : t.receivers flag = some key' := by
    rw [hadds.receivers, update_of_ne, hflag]
    rintro rfl
    exact nomatch (h.fresh s.made le_rfl).1.symm.trans hflag
  -- what was found still is
  have hfinds (key' : κ) (hfound : s.finds key' = true) : t.finds key' = true := by
    by_cases hkey : key' = key
    · rw [hkey]
      exact hadds.finds h
    · rwa [hadds.finds_other hkey]
  constructor
  · intro key' flag hentry
    by_cases hkey : key' = key
    · rw [hkey, hadds.added] at hentry
      rw [← Option.some.inj hentry, hadds.receivers, update_self, hkey]
    · rw [hadds.swept key' hkey] at hentry
      exact hreceivers (h.owner key' flag (get_eq_some.mp hentry).1)
  · intro flag hmade
    rw [hadds.made] at hmade
    have hne : flag ≠ s.made := by omega
    rw [hadds.receivers, hadds.departed, update_of_ne hne]
    exact h.fresh flag (by omega)
  · rw [hmessages]
    exact fun i message hmessage => hreceivers (h.sender i message hmessage)
  · rw [hmessages, hadds.departed]
    exact fun i message hmessage => (h.live i message hmessage).imp_right (hfinds _)
  · rw [hmessages]
    exact fun i message hmessage haccepted => hfinds _ (h.sending i message hmessage haccepted)
  · rw [hdepartures]
    exact fun i departure hdeparture => hreceivers (h.leaver i departure hdeparture)
  · rw [hanswers]
    exact h.answers

theorem handle_touched (hgroups : s.groups = some groups) (key : κ) :
    (∀ key', (s.handle (.touched key)).finds key' = s.finds key') ∧ (Channels s → Channels (s.handle (.touched key))) := by
  have hhandle : s.handle (.touched key) = { s with groups := some (groups.getMut s.departed key).2 } := by
    simp only [State.handle, hgroups]
  rw [hhandle]
  -- an entry that stays is the same, and one that goes was departed
  have hentry (key' : κ) : ((groups.getMut s.departed key).2.inner key' = groups.inner key') ∨
      (groups.getMut s.departed key).2.inner key' = none ∧ ∃ flag, groups.inner key' = some flag ∧ s.departed flag = true := by
    rw [GroupChannels.getMut]
    cases hinner : groups.inner key with
    | none => exact .inl rfl
    | some flag =>
      by_cases hdeparted : s.departed flag = true
      · simp only [if_pos hdeparted]
        by_cases hkey : key' = key
        · rw [hkey, update_self]
          exact .inr ⟨rfl, flag, hinner, hdeparted⟩
        · rw [update_of_ne hkey]
          exact .inl rfl
      · simp only [if_neg hdeparted, true_or]
  have hbefore (key' : κ) : s.entry key' = groups.inner key' := by
    rw [State.entry, hgroups]
    rfl
  have hfinds (key' : κ) : ({ s with groups := some (groups.getMut s.departed key).2 } : State κ).finds key' = s.finds key' := by
    rcases hentry key' with hsame | ⟨hgone, flag, hinner, hdeparted⟩
    · exact finds_congr (hsame.trans (hbefore key').symm) rfl
    · rw [Bool.eq_iff_iff, finds_iff, finds_iff]
      constructor
      · rintro ⟨flag', hflag', -⟩
        exact nomatch hgone.symm.trans hflag'
      · rintro ⟨flag', hflag', hlive⟩
        rw [hbefore, hinner] at hflag'
        rw [← Option.some.inj hflag', hdeparted] at hlive
        exact nomatch hlive
  refine ⟨hfinds, fun h => ?_⟩
  constructor
  · intro key' flag hflag
    rcases hentry key' with hsame | ⟨hgone, -⟩
    · exact h.owner key' flag ((hbefore key').trans (hsame.symm.trans hflag))
    · exact nomatch hgone.symm.trans hflag
  · exact h.fresh
  · exact h.sender
  · intro i message hmessage
    rw [hfinds]
    exact h.live i message hmessage
  · intro i message hmessage haccepted
    rw [hfinds]
    exact h.sending i message hmessage haccepted
  · exact h.leaver
  · exact h.answers

theorem Channels.handle (h : Channels s) (hgroups : s.groups = some groups) {event : Event κ} (htakes : s.Takes event) :
    Channels (s.handle event) ∧ (∀ said, event.membership = some said → (s.handle event).finds event.key = said) ∧
      (∀ key', key' ≠ event.key ∨ event.membership = none → (s.handle event).finds key' = s.finds key') := by
  have hout {event : Event κ} {key : κ} (hkind : event = .disconnected key ∨ event = .endResponse key true) (hkey : event.key = key)
      (htells : event.membership = some false) (htakes : ∀ flag, s.get key = some flag → s.Yields key flag) :
      Channels (s.handle event) ∧ (∀ said, event.membership = some said → (s.handle event).finds event.key = said) ∧
        (∀ key', key' ≠ event.key ∨ event.membership = none → (s.handle event).finds key' = s.finds key') := by
    rw [hkey, htells]
    rcases handle_out hgroups hkind with ⟨flag, hget, hhandle⟩ | ⟨hnot, hhandle⟩
    · obtain ⟨hentry, -⟩ := get_eq_some.mp hget
      have hreceiver := h.owner key flag hentry
      rw [hhandle]
      refine ⟨h.depart hreceiver fun _ => ⟨hentry, htakes flag hget⟩, fun said hsaid => ?_, fun key' hne => ?_⟩
      · rw [← Option.some.inj hsaid]
        exact depart_lost fun _ => hentry
      · exact depart_finds h hreceiver (hne.resolve_right nofun)
    · rw [hhandle]
      refine ⟨h, fun said hsaid => ?_, fun _ _ => rfl⟩
      rw [← Option.some.inj hsaid]
      exact hnot
  cases event with
  | created key =>
    have hadds := handle_created hgroups key
    refine ⟨h.add hadds, fun said hsaid => ?_, fun key' hne => ?_⟩
    · rw [← Option.some.inj hsaid]
      exact hadds.finds h
    · exact hadds.finds_other (hne.resolve_right nofun)
  | disconnected key => exact hout (.inl rfl) rfl rfl htakes
  | endResponse key success =>
    cases success with
    | true => exact hout (.inr rfl) rfl rfl htakes
    | false =>
      have hhandle : s.handle (.endResponse key false) = s := by simp only [State.handle, hgroups]
      rw [hhandle]
      exact ⟨h, fun said hsaid => (nomatch hsaid), fun _ _ => rfl⟩
  | leaveRoomResponse key success =>
    have hhandle : s.handle (.leaveRoomResponse key success) = s := by simp only [State.handle, hgroups]
    rw [hhandle]
    refine ⟨h, fun said hsaid => ?_, fun _ _ => rfl⟩
    cases success with
    | true =>
      rw [← Option.some.inj hsaid]
      exact htakes
    | false => exact nomatch hsaid
  | touched key =>
    obtain ⟨hfinds, hchannels⟩ := handle_touched hgroups key
    exact ⟨hchannels h, fun said hsaid => (nomatch hsaid), fun key' _ => hfinds key'⟩

/-! ## What waits -/

theorem sayings_append (before after : List (Event κ)) (key : κ) : sayings (before ++ after) key = sayings before key ++ sayings after key :=
  List.filterMap_append

theorem sayings_cons_said {event : Event κ} {said : Bool} (hsaid : event.membership = some said) (events : List (Event κ)) :
    sayings (event :: events) event.key = said :: sayings events event.key :=
  List.filterMap_cons_some (by rw [if_pos rfl, hsaid])

theorem sayings_cons_other {event : Event κ} (hother : key ≠ event.key ∨ event.membership = none) (events : List (Event κ)) :
    sayings (event :: events) key = sayings events key := by
  refine List.filterMap_cons_none ?_
  rcases hother with hne | hnone
  · rw [if_neg (Ne.symm hne)]
  · rw [hnone, ite_self]

theorem tell_told (s : State κ) (event : Event κ) :
    (∀ said, event.membership = some said → (s.tell event.key event.membership).told event.key = some said) ∧
      ∀ key, key ≠ event.key ∨ event.membership = none → (s.tell event.key event.membership).told key = s.told key := by
  cases htells : event.membership with
  | none => exact ⟨fun said h => (nomatch h), fun _ _ => rfl⟩
  | some said =>
    refine ⟨fun said' h => ?_, fun key hkey => update_of_ne (hkey.resolve_right nofun) ..⟩
    rw [← h]
    exact update_self ..

theorem finds_unmapped (h : s.groups = none) (key : κ) : s.finds key = false := by
  rw [State.finds, State.get, h]
  rfl

theorem quiet_or_said (event : Event κ) (key : κ) :
    (∃ said, event.membership = some said ∧ key = event.key) ∨ (key ≠ event.key ∨ event.membership = none) := by
  by_cases hkey : key = event.key
  · rcases Option.eq_none_or_eq_some event.membership with hnone | ⟨said, hsaid⟩
    · exact .inr (.inr hnone)
    · exact .inl ⟨said, hsaid, hkey⟩
  · exact .inr (.inl hkey)

theorem Told.handled (h : Told s) {t : State κ} {event : Event κ} (hwaiting : t.waiting = s.waiting)
    (hfinds : ∀ said, event.membership = some said → t.finds event.key = said)
    (hsame : ∀ key, key ≠ event.key ∨ event.membership = none → t.finds key = s.finds key)
    (htold : t.told = (s.tell event.key event.membership).told) (horder : State.InOrder event s.waiting) : Told t := by
  obtain ⟨hsaid, hquiet⟩ := tell_told s event
  constructor
  · intro key said hlast
    rw [hwaiting] at hlast
    rw [htold]
    rcases quiet_or_said event key with ⟨said', htells, rfl⟩ | hkey
    · rw [hsaid said' htells, horder said' htells said (List.mem_of_getLast? hlast)]
    · rw [hquiet key hkey]
      exact h.waits key said hlast
  · intro key hnone
    rw [hwaiting] at hnone
    rw [htold]
    rcases quiet_or_said event key with ⟨said', htells, rfl⟩ | hkey
    · rw [hsaid said' htells, hfinds said' htells, Option.some_inj]
    · rw [hquiet key hkey, hsame key hkey]
      exact h.found key hnone

theorem Told.polled (h : Told s) {t : State κ} {event : Event κ} {before after : List (Event κ)}
    (hwaiting : s.waiting = before ++ event :: after) (hwaiting' : t.waiting = before ++ after)
    (hfinds : ∀ said, event.membership = some said → t.finds event.key = said)
    (hsame : ∀ key, key ≠ event.key ∨ event.membership = none → t.finds key = s.finds key) (htold : t.told = s.told)
    (horder : State.InOrder event before) : Told t := by
  constructor
  · intro key said hlast
    rw [hwaiting', sayings_append] at hlast
    rw [htold]
    apply h.waits
    rw [hwaiting, sayings_append]
    rcases quiet_or_said event key with ⟨said', htells, rfl⟩ | hkey
    · rw [sayings_cons_said htells]
      cases hafter : sayings after event.key with
      | nil =>
        -- it was the last, and those before it said the same
        rw [hafter, List.append_nil] at hlast
        rw [List.getLast?_concat, horder said' htells said (List.mem_of_getLast? hlast)]
      | cons first rest =>
        rw [hafter, List.getLast?_append_of_ne_nil _ (List.cons_ne_nil _ _)] at hlast
        rw [List.getLast?_append_of_ne_nil _ (List.cons_ne_nil _ _), List.getLast?_cons_cons, hlast]
    · rwa [sayings_cons_other hkey]
  · intro key hnone
    rw [hwaiting', sayings_append] at hnone
    obtain ⟨hbefore, hafter⟩ := List.append_eq_nil_iff.mp hnone
    rw [htold]
    rcases quiet_or_said event key with ⟨said', htells, rfl⟩ | hkey
    · have hlast : (sayings s.waiting event.key).getLast? = some said' := by
        rw [hwaiting, sayings_append, sayings_cons_said htells, hbefore, hafter]
        rfl
      rw [hfinds said' htells, h.waits _ _ hlast, Option.some_inj]
    · rw [hsame key hkey]
      apply h.found
      rw [hwaiting, sayings_append, sayings_cons_other hkey, hbefore, hafter]
      rfl

theorem waiting_split {α : Type} {events : List α} {i : Nat} {event : α} (h : events[i]? = some event) :
    events = events.take i ++ event :: events.drop (i + 1) := by
  obtain ⟨hlt, hget⟩ := List.getElem?_eq_some_iff.mp h
  rw [← hget, ← List.drop_eq_getElem_cons hlt, List.take_append_drop]

theorem Told.departed (h : Told s) (hchannels : Channels s) (hreceiver : s.receivers flag = some key) (hdeparts : s.Departs key flag) :
    Told ((s.tell key (some false)).depart flag) := by
  have hlost : ((s.tell key (some false)).depart flag).finds key = false := depart_lost fun hfinds => (hdeparts.1 hfinds).1
  constructor
  · intro key' said hlast
    show update s.told key (some false) key' = _
    by_cases hkey : key' = key
    · subst hkey
      rw [update_self, hdeparts.2 said (List.mem_of_getLast? hlast)]
    · rw [update_of_ne hkey]
      exact h.waits key' said hlast
  · intro key' hnone
    show _ ↔ update s.told key (some false) key' = _
    by_cases hkey : key' = key
    · subst hkey
      rw [update_self, hlost, Option.some_inj]
    · rw [update_of_ne hkey]
      have hsame : ((s.tell key (some false)).depart flag).finds key' = s.finds key' :=
        depart_finds (hchannels.tell key (some false)) hreceiver hkey
      rw [hsame]
      exact h.found key' hnone

theorem Told.same (h : Told s) {t : State κ} (hwaiting : t.waiting = s.waiting) (htold : t.told = s.told)
    (hfinds : ∀ key, t.finds key = s.finds key) : Told t := by
  constructor
  · rw [hwaiting, htold]
    exact h.waits
  · intro key hnone
    rw [hwaiting] at hnone
    rw [htold, hfinds]
    exact h.found key hnone

/-! ## Messages and departures in progress -/

omit [DecidableEq κ] in
theorem Channels.messages (h : Channels s) (messages' : Nat → Option (Message κ)) (spawned' : Nat) (answers' : List Bool)
    (hmessages : ∀ i message, messages' i = some message → s.messages i = some message ∨
      s.receivers message.flag = some message.key ∧ s.finds message.key = true)
    (hanswers : ∀ found ∈ answers', found = true ∨ found ∈ s.answers) :
    Channels { s with messages := messages', spawned := spawned', answers := answers' } := by
  constructor
  · exact h.owner
  · exact h.fresh
  · intro i message hmessage
    rcases hmessages i message hmessage with hold | ⟨hreceiver, -⟩
    · exact h.sender i message hold
    · exact hreceiver
  · intro i message hmessage
    rcases hmessages i message hmessage with hold | ⟨-, hfinds⟩
    · exact h.live i message hold
    · exact .inr hfinds
  · intro i message hmessage haccepted
    rcases hmessages i message hmessage with hold | ⟨-, hfinds⟩
    · exact h.sending i message hold haccepted
    · exact hfinds
  · exact h.leaver
  · exact fun found hfound => (hanswers found hfound).elim id (h.answers found)

omit [DecidableEq κ] in
theorem Channels.departures (h : Channels s) (departures' : Nat → Option (Departure κ)) (spawned' : Nat)
    (hdepartures : ∀ i departure, departures' i = some departure → s.departures i = some departure ∨
      s.receivers departure.flag = some departure.key) :
    Channels { s with departures := departures', spawned := spawned' } := by
  refine ⟨h.owner, h.fresh, h.sender, h.live, h.sending, fun i departure hdeparture => ?_, h.answers⟩
  exact (hdepartures i departure hdeparture).elim (h.leaver i departure) id

/-! ## One step -/

theorem tell_groups (s : State κ) (key : κ) (said : Option Bool) : (s.tell key said).groups = s.groups := by
  cases said with
  | none => rfl
  | some said => rfl

theorem tell_waiting (s : State κ) (key : κ) (said : Option Bool) : (s.tell key said).waiting = s.waiting := by
  cases said with
  | none => rfl
  | some said => rfl

theorem tell_finds (s : State κ) (key : κ) (said : Option Bool) : (s.tell key said).finds = s.finds := by
  cases said with
  | none => rfl
  | some said => rfl

theorem tell_takes (s : State κ) (key : κ) (said : Option Bool) (event : Event κ) :
    (s.tell key said).Takes event ↔ s.Takes event := by
  cases said with
  | none => exact Iff.rfl
  | some said => exact Iff.rfl

theorem handle_waiting (s : State κ) (event : Event κ) : (s.handle event).waiting = s.waiting ∧ (s.handle event).told = s.told := by
  cases hgroups : s.groups with
  | none => simp only [State.handle, hgroups, and_self]
  | some groups =>
    cases event with
    | endResponse key success =>
      cases success with
      | true => simp only [State.handle, hgroups, and_self]
      | false => simp only [State.handle, hgroups, and_self]
    | _ => simp only [State.handle, hgroups, and_self]

theorem arrive_step (hchannels : Channels s) (htold : Told s) {event : Event κ} (hmet : s.Follows (.arrive event)) :
    Channels (s.step (.arrive event)) ∧ Told (s.step (.arrive event)) := by
  have htell := hchannels.tell event.key event.membership
  show Channels ((s.tell event.key event.membership).onceSessionMapped event) ∧ _
  rcases Option.eq_none_or_eq_some s.groups with hnone | ⟨groups, hgroups⟩
  · have hstep : s.step (.arrive event) = { s.tell event.key event.membership with waiting := s.waiting ++ [event] } := by
      simp only [State.step, State.onceSessionMapped, tell_groups, hnone, tell_waiting]
    obtain ⟨hsaid, hquiet⟩ := tell_told s event
    replace hstep : (s.tell event.key event.membership).onceSessionMapped event = _ := hstep
    have hafter : (s.step (.arrive event)) = (s.tell event.key event.membership).onceSessionMapped event := rfl
    rw [hafter, hstep]
    refine ⟨⟨htell.owner, htell.fresh, htell.sender, htell.live, htell.sending, htell.leaver, htell.answers⟩, ?_, ?_⟩
    · intro key said hlast
      replace hlast : (sayings (s.waiting ++ [event]) key).getLast? = some said := hlast
      show (s.tell event.key event.membership).told key = _
      rw [sayings_append] at hlast
      rcases quiet_or_said event key with ⟨said', htells, rfl⟩ | hkey
      · rw [sayings_cons_said htells, List.getLast?_append_of_ne_nil _ (List.cons_ne_nil _ _)] at hlast
        replace hlast : some said' = some said := hlast
        rw [hsaid said' htells, hlast]
      · rw [sayings_cons_other hkey] at hlast
        replace hlast : (sayings s.waiting key ++ []).getLast? = some said := hlast
        rw [List.append_nil] at hlast
        rw [hquiet key hkey]
        exact htold.waits key said hlast
    · intro key hempty
      replace hempty : sayings (s.waiting ++ [event]) key = [] := hempty
      show (s.tell event.key event.membership).finds key = true ↔ (s.tell event.key event.membership).told key = _
      rw [sayings_append] at hempty
      obtain ⟨hbefore, hafter⟩ := List.append_eq_nil_iff.mp hempty
      rcases quiet_or_said event key with ⟨said', htells, rfl⟩ | hkey
      · rw [sayings_cons_said htells] at hafter
        exact nomatch hafter
      · rw [hquiet key hkey, tell_finds]
        exact htold.found key hbefore
  · have hmapped : s.groups ≠ none := by
      rw [hgroups]
      exact nofun
    obtain ⟨horder, htakes⟩ := hmet hmapped
    have hafter : s.step (.arrive event) = (s.tell event.key event.membership).handle event := by
      simp only [State.step, State.onceSessionMapped, tell_groups, hgroups]
    have hhandle := htell.handle ((tell_groups ..).trans hgroups) ((tell_takes ..).mpr htakes)
    obtain ⟨hwaiting, hsame⟩ := handle_waiting (s.tell event.key event.membership) event
    rw [tell_finds] at hhandle
    refine ⟨?_, ?_⟩
    · exact (congrArg Channels hafter).mpr hhandle.1
    · rw [hafter]
      exact htold.handled (hwaiting.trans (tell_waiting ..)) hhandle.2.1 hhandle.2.2 hsame horder

theorem poll_step (hchannels : Channels s) (htold : Told s) {i : Nat} (hmet : s.Follows (.poll i)) :
    Channels (s.step (.poll i)) ∧ Told (s.step (.poll i)) := by
  rcases Option.eq_none_or_eq_some s.groups with hnone | ⟨groups, hgroups⟩
  · have hstep : s.step (.poll i) = s := by simp only [State.step, hnone]
    rw [hstep]
    exact ⟨hchannels, htold⟩
  rcases Option.eq_none_or_eq_some s.waiting[i]? with hwait | ⟨event, hwait⟩
  · have hstep : s.step (.poll i) = s := by simp only [State.step, hgroups, hwait]
    rw [hstep]
    exact ⟨hchannels, htold⟩
  have hstep : s.step (.poll i) = ({ s with waiting := s.waiting.eraseIdx i } : State κ).handle event := by
    simp only [State.step, hgroups, hwait]
  have hmapped : s.groups ≠ none := by
    rw [hgroups]
    exact nofun
  obtain ⟨horder, htakes⟩ := hmet event hmapped hwait
  have herased : Channels { s with waiting := s.waiting.eraseIdx i } :=
    ⟨hchannels.owner, hchannels.fresh, hchannels.sender, hchannels.live, hchannels.sending, hchannels.leaver, hchannels.answers⟩
  obtain ⟨hhandled, hfinds, hsame⟩ := herased.handle hgroups htakes
  obtain ⟨hwaiting, htold'⟩ := handle_waiting ({ s with waiting := s.waiting.eraseIdx i } : State κ) event
  rw [hstep]
  exact ⟨hhandled, htold.polled (waiting_split hwait) (hwaiting.trans (List.eraseIdx_eq_take_drop_succ ..)) hfinds hsame htold' horder⟩

theorem elapse_step (hchannels : Channels s) (htold : Told s) {i : Nat} (hmet : s.Follows (.elapse i)) :
    Channels (s.step (.elapse i)) ∧ Told (s.step (.elapse i)) := by
  rcases Option.eq_none_or_eq_some s.groups with hnone | ⟨groups, hgroups⟩
  · have hstep : s.step (.elapse i) = { s with waiting := s.waiting.eraseIdx i } := by simp only [State.step, hnone]
    rw [hstep]
    refine ⟨⟨hchannels.owner, hchannels.fresh, hchannels.sender, hchannels.live, hchannels.sending, hchannels.leaver,
      hchannels.answers⟩, ?_⟩
    rcases Option.eq_none_or_eq_some s.waiting[i]? with hwait | ⟨event, hwait⟩
    · exact htold.same (List.eraseIdx_of_length_le (List.getElem?_eq_none_iff.mp hwait)) rfl fun _ => rfl
    · have hquiet := hmet event hnone hwait
      have hsilent (said : Bool) (hsaid : event.membership = some said) : False := nomatch hquiet.symm.trans hsaid
      exact htold.polled (waiting_split hwait) (List.eraseIdx_eq_take_drop_succ ..) (fun said hsaid => (hsilent said hsaid).elim)
        (fun _ _ => rfl) rfl fun said hsaid => (hsilent said hsaid).elim
  · have hstep : s.step (.elapse i) = s := by simp only [State.step, hgroups]
    rw [hstep]
    exact ⟨hchannels, htold⟩

theorem map_step (hchannels : Channels s) (htold : Told s) : Channels (s.step .map) ∧ Told (s.step .map) := by
  rcases Option.eq_none_or_eq_some s.groups with hnone | ⟨groups, hgroups⟩
  · have hstep : s.step .map = { s with groups := some .new } := by simp only [State.step, hnone]
    rw [hstep]
    have hfinds (key : κ) : ({ s with groups := some .new } : State κ).finds key = s.finds key := by
      rw [finds_unmapped hnone]
      rfl
    refine ⟨⟨fun key flag hentry => (nomatch hentry), hchannels.fresh, hchannels.sender, fun i message hmessage => ?_,
      fun i message hmessage haccepted => ?_, hchannels.leaver, hchannels.answers⟩, htold.same rfl rfl hfinds⟩
    · rw [hfinds]
      exact hchannels.live i message hmessage
    · rw [hfinds]
      exact hchannels.sending i message hmessage haccepted
  · have hstep : s.step .map = s := by simp only [State.step, hgroups]
    rw [hstep]
    exact ⟨hchannels, htold⟩

theorem departs_step (hchannels : Channels s) (htold : Told s) (hreceiver : s.receivers flag = some key) (hdeparts : s.Departs key flag) :
    Channels ((s.tell key (some false)).depart flag) ∧ Told ((s.tell key (some false)).depart flag) :=
  ⟨(hchannels.tell key (some false)).depart hreceiver hdeparts.1, htold.departed hchannels hreceiver hdeparts⟩

theorem sound_step (hchannels : Channels s) (htold : Told s) {act : Act κ} (hmet : s.Follows act) :
    Channels (s.step act) ∧ Told (s.step act) := by
  cases act with
  | arrive event => exact arrive_step hchannels htold hmet
  | map => exact map_step hchannels htold
  | poll i => exact poll_step hchannels htold hmet
  | elapse i => exact elapse_step hchannels htold hmet
  | broadcast flag payload =>
    simp only [State.step]
    split
    case h_1 key hreceiver =>
      split
      case isTrue hout => exact departs_step hchannels htold hreceiver (hmet key hreceiver hout)
      case isFalse => exact ⟨hchannels, htold⟩
    case h_2 => exact ⟨hchannels, htold⟩
  | leave key =>
    simp only [State.step]
    split
    case h_1 flag hget =>
      refine ⟨hchannels.departures _ _ fun j departure hdeparture => ?_, htold.same rfl rfl fun _ => rfl⟩
      rcases of_update_some hdeparture with ⟨-, rfl⟩ | ⟨-, hold⟩
      · exact .inr (hchannels.owner key flag (get_eq_some.mp hget).1)
      · exact .inl hold
    case h_2 => exact ⟨hchannels, htold⟩
  | left i ok =>
    simp only [State.step]
    split
    case h_1 departure hdeparture =>
      have hended : Channels { s with departures := update s.departures i none } :=
        hchannels.departures _ _ fun j departure' hdeparture' =>
          .inl (of_update_none hdeparture').2
      have htold' : Told { s with departures := update s.departures i none } := htold.same rfl rfl fun _ => rfl
      cases ok with
      | true => exact departs_step hended htold' (hchannels.leaver i departure hdeparture) (hmet departure hdeparture rfl)
      | false => exact ⟨hended, htold'⟩
    case h_2 => exact ⟨hchannels, htold⟩
  | message key =>
    simp only [State.step]
    split
    case h_1 flag hget =>
      refine ⟨hchannels.messages _ _ _ (fun j message hmessage => ?_) fun found hfound => .inr hfound, htold.same rfl rfl fun _ => rfl⟩
      rcases of_update_some hmessage with ⟨-, rfl⟩ | ⟨-, hold⟩
      · obtain ⟨hentry, hlive⟩ := get_eq_some.mp hget
        exact .inr ⟨hchannels.owner key flag hentry, finds_iff.mpr ⟨flag, hentry, hlive⟩⟩
      · exact .inl hold
    case h_2 => exact ⟨hchannels, htold⟩
  | send i =>
    simp only [State.step]
    split
    case h_1 key flag hmessage =>
      refine ⟨hchannels.messages _ _ _ (fun j message hmessage' => ?_) fun found hfound => .inr hfound, htold.same rfl rfl fun _ => rfl⟩
      rcases of_update hmessage' with ⟨-, hnew⟩ | ⟨-, hold⟩
      · split at hnew
        · exact nomatch hnew
        case isFalse hlive =>
          have hreceiver := hchannels.sender i _ hmessage
          have hfinds := (hchannels.live i _ hmessage).resolve_left hlive
          rw [← Option.some.inj hnew]
          exact .inr ⟨hreceiver, hfinds⟩
      · exact .inl hold
    case h_2 => exact ⟨hchannels, htold⟩
  | sent i ok =>
    simp only [State.step]
    split
    case h_1 key flag hmessage =>
      refine ⟨hchannels.messages _ _ _ (fun j message hmessage' => ?_) (fun found hfound => ?_), htold.same rfl rfl fun _ => rfl⟩
      · exact .inl (of_update_none hmessage').2
      · split at hfound
        · rcases List.mem_cons.mp hfound with rfl | hfound
          · exact .inl (hchannels.sending i _ hmessage rfl)
          · exact .inr hfound
        · exact .inr hfound
    case h_2 => exact ⟨hchannels, htold⟩

/-! ## Whole runs -/

theorem sound_new : Channels (State.new : State κ) ∧ Told (State.new : State κ) := by
  refine ⟨⟨fun _ _ h => (nomatch h), fun _ _ => ⟨rfl, rfl⟩, fun _ _ h => (nomatch h), fun _ _ h => (nomatch h), fun _ _ h => (nomatch h),
    fun _ _ h => (nomatch h), fun _ h => absurd h List.not_mem_nil⟩, fun _ _ h => (nomatch h), fun key _ => ?_⟩
  exact ⟨nofun, nofun⟩

/-- In every run whose steps follow, a group of which nothing waits is found when the last that was said of it is that
the session is in, and a `GroupMessage` succeeds only while it is. -/
theorem membership_follows (h : Reaches State.step State.Follows (· = State.new) s) :
    (∀ key, sayings s.waiting key = [] → (s.finds key = true ↔ s.told key = some true)) ∧ ∀ found ∈ s.answers, found = true := by
  have hsound : Channels s ∧ Told s := by
    refine h.invariant (I := fun s => Channels s ∧ Told s) ?_ ?_
    · rintro s rfl
      exact sound_new
    · exact fun s act ⟨hchannels, htold⟩ hmet => sound_step hchannels htold hmet
  exact ⟨hsound.2.found, hsound.1.answers⟩

def after (acts : List (Act κ)) : State κ := acts.foldl State.step .new

def rejoined : List (Act Nat) := [.arrive (.created 5), .map, .poll 0, .message 5, .send 0, .sent 0 true, .broadcast 0 .disconnected,
  .arrive (.created 5), .leave 5, .left 1 true]

theorem rejoined_follows : AllMeet State.step State.Follows .new rejoined := by
  refine ⟨fun h => absurd rfl h, trivial, ?_, trivial, trivial, trivial, ?_, fun _ => ⟨fun _ _ _ h => absurd h List.not_mem_nil, trivial⟩,
    trivial, ?_, trivial⟩
  · rintro event - hwait
    obtain rfl := Option.some.inj hwait
    exact ⟨fun _ _ _ h => absurd h List.not_mem_nil, trivial⟩
  · rintro key hreceiver -
    obtain rfl := Option.some.inj hreceiver
    refine ⟨fun _ => ⟨rfl, fun i message hmessage => ?_⟩, fun _ h => absurd h List.not_mem_nil⟩
    match i with
    | 0 => exact nomatch hmessage
    | i + 1 => exact nomatch hmessage
  · rintro departure hdeparture -
    obtain rfl := Option.some.inj hdeparture
    refine ⟨fun _ => ⟨rfl, fun i message hmessage => ?_⟩, fun _ h => absurd h List.not_mem_nil⟩
    match i with
    | 0 => exact nomatch hmessage
    | i + 1 => exact nomatch hmessage

theorem membership_follows_rejoined :
    ((∀ key, sayings (after rejoined).waiting key = [] → ((after rejoined).finds key = true ↔ (after rejoined).told key = some true)) ∧
      ∀ found ∈ (after rejoined).answers, found = true) ∧
    (after rejoined).told 5 = some false ∧ (after rejoined).answers = [true] :=
  ⟨membership_follows (reaches_foldl rejoined_follows), rfl, rfl⟩

def arrivals (acts : List (Act κ)) (key : κ) : List Bool :=
  sayings (acts.filterMap fun act => match act with
    | .arrive event => some event
    | _ => none) key

/-- The session's own leave counts before the server has answered, and that answer is not recorded; an event that
waited is handled late; a message succeeds after its group is gone. -/
theorem membership_otherwise :
    ((arrivals [.map, .arrive (.created 5), .leave 5, .left 0 true] 5).getLast? = some true ∧
      (after [.map, .arrive (.created 5), .leave 5, .left 0 true]).finds 5 = false) ∧
    ((arrivals [.map, .arrive (.created 5), .arrive (.leaveRoomResponse 5 true)] 5).getLast? = some false ∧
      (after [.map, .arrive (.created 5), .arrive (.leaveRoomResponse 5 true)]).finds 5 = true) ∧
    ((arrivals [.arrive (.created 5), .map, .arrive (.disconnected 5), .poll 0] 5).getLast? = some false ∧
      (after [.arrive (.created 5), .map, .arrive (.disconnected 5), .poll 0]).finds 5 = true) ∧
    (after [.map, .arrive (.created 5), .message 5, .send 0, .arrive (.disconnected 5), .sent 0 true]).answers = [false] :=
  ⟨⟨rfl, rfl⟩, ⟨rfl, rfl⟩, ⟨rfl, rfl⟩, rfl⟩

end CitadelAgent.Groups
