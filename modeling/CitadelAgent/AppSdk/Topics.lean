import CitadelAgent.Ihttp.Frames
import CitadelAgent.Lib.Machine

/-!
# Topics and their handlers

`citadel-app-sdk/src/{topic,route}.rs`: the table of open topics. A handler is put there before the host has answered, and is
taken out while it runs, during which it may open and close topics.

* `World.act` : a call, or an event with the calls of the handler that takes it;
* `Tracks` : what the table has for a name, also while a handler runs;
* `topics_follow` : where no refused open is in the table, and no reply is taken late, events go to the opens that were granted.
-/

namespace CitadelAgent.AppSdk.Topics
open Function Machine

inductive TopicEvent
  | message (caller : Ihttp.Caller) (body : List UInt8)
  | members (members : List String)
  | dropped (caller : String)
  deriving DecidableEq

/-- `sink` is the open whose handler it is, `none` while that runs. -/
structure Open where
  sink : Option Nat
  members : List String

/-- What the host answers an open. -/
inductive Answer
  | granted (members : List String)
  | refused
  deriving DecidableEq

structure World where
  topics : String → Option Open
  names : List String
  answers : Nat → Option Answer
  taken : Nat → Bool
  /-- The opens of a name since it was last closed, the latest first. -/
  opens : String → List Nat
  /-- What the host last said of the members, in the reply to an open or an event since. -/
  said : Nat → List String
  /-- Where the events went, the latest first: to the handler of an open, or to the app. -/
  delivered : List (String × TopicEvent × Option Nat)

def World.new : World := ⟨fun _ => none, [], fun _ => none, fun _ => false, fun _ => [], fun _ => [], []⟩

inductive Call
  | open_ (name : String) (answer : Option Answer)
  | close (name : String)
  | answer (i : Nat) (answer : Answer)
  | take (i : Nat)

def World.hears (w : World) (i : Nat) : Option Answer → World
  | some (.granted members) => { w with said := update w.said i members }
  | _ => w

/-- What is written through `get_mut`. -/
def World.edit (w : World) (name : String) (f : Open → Open) : World :=
  { w with topics := update w.topics name ((w.topics name).map f) }

def World.call (w : World) : Call → World
  | .open_ name answer =>
    let i := w.names.length
    World.hears { w with
      topics := update w.topics name (some ⟨some i, []⟩)
      names := w.names ++ [name]
      answers := update w.answers i answer
      taken := update w.taken i false
      opens := update w.opens name (i :: w.opens name) } i answer
  | .close name => { w with topics := update w.topics name none, opens := update w.opens name [] }
  | .answer i answer =>
    if w.answers i = none then World.hears { w with answers := update w.answers i (some answer) } i (some answer) else w
  | .take i =>
    match w.answers i, w.names[i]? with
    | some (.granted members), some name =>
      if w.taken i then w
      else { w.edit name fun topic => { topic with members } with taken := update w.taken i true }
    | _, _ => w

/-- The latest open of the name since it was closed that was not refused. -/
def World.owner (w : World) (name : String) : Option Nat := (w.opens name).find? fun i => w.answers i ≠ some .refused

/-- The members an event names, or those of before. -/
def TopicEvent.membersOr (before : List String) : TopicEvent → List String
  | .members now => now
  | _ => before

/-- The first half of `route`: the members are noted, the handler is taken out, and it or the app has the event. -/
def World.deliver (w : World) (name : String) (event : TopicEvent) : World :=
  { w.edit name fun topic => ⟨none, event.membersOr topic.members⟩ with
    said := match w.owner name with
      | some i => update w.said i (event.membersOr (w.said i))
      | none => w.said
    delivered := (name, event, (w.topics name).bind (·.sink)) :: w.delivered }

/-- An event, and the calls of the handler that has it, which is then put back, unless the topic was closed or has another. -/
def World.route (w : World) (name : String) (event : TopicEvent) (calls : List Call) : World :=
  match (w.topics name).bind (·.sink) with
  | none => w.deliver name event
  | some sink => (calls.foldl World.call (w.deliver name event)).edit name fun topic => { topic with sink := topic.sink <|> some sink }

inductive Act
  | call (c : Call)
  | event (name : String) (event : TopicEvent) (calls : List Call)

def World.act (w : World) : Act → World
  | .call c => w.call c
  | .event name event calls => w.route name event calls

/-- An open is not refused while it is the latest of its name, and a reply is taken by the latest open, before an event says
otherwise, or when the topic is closed. -/
def Call.InTime (w : World) : Call → Prop
  | .open_ _ reply => reply ≠ some .refused
  | .answer i reply => reply = .refused → ∀ name, (w.opens name).head? ≠ some i
  | .take i => ∀ name ∈ w.names[i]?, ∀ members, w.answers i = some (.granted members) →
      w.opens name = [] ∨ (w.opens name).head? = some i ∧ w.said i = members
  | .close _ => True

def Act.InTime (w : World) : Act → Prop
  | .call c => c.InTime w
  | .event name ev calls => AllMeet World.call Call.InTime (w.deliver name ev) calls

/-- The members of a topic whose reply was taken are those last said. -/
def World.MembersSaid (w : World) : Prop :=
  ∀ name i topic, w.owner name = some i → w.taken i = true → w.topics name = some topic → topic.members = w.said i

/-- Events go where they should, and the members are those said, also while a handler runs. -/
structure Follows (w : World) : Prop where
  delivered : ∀ name event calls, (w.act (.event name event calls)).delivered = (name, event, w.owner name) :: w.delivered
  members : w.MembersSaid
  within : ∀ name event calls, AllMeet World.call Call.InTime (w.deliver name event) calls →
    (calls.foldl World.call (w.deliver name event)).MembersSaid

/-! ## The table -/

/-- The table has the latest open of the name, without its handler while that runs. -/
def Tracks (running : Option (String × Nat)) (w : World) (name : String) : Prop :=
  (w.opens name = [] ∧ w.topics name = none) ∨
  ∃ i earlier topic, w.opens name = i :: earlier ∧ w.topics name = some topic ∧
    (topic.sink = some i ∨ topic.sink = none ∧ running = some (name, i)) ∧ w.names[i]? = some name ∧
    w.answers i ≠ some .refused ∧ (w.taken i = true → w.answers i ≠ none ∧ topic.members = w.said i)

variable {w : World} {running : Option (String × Nat)} {name : String}

theorem hears_eq (w : World) (i : Nat) (reply : Option Answer) : ∃ said, w.hears i reply = { w with said } ∧
    ∀ j, j ≠ i → said j = w.said j := by
  unfold World.hears
  split
  · exact ⟨_, rfl, fun j hj => update_of_ne hj _ _⟩
  · exact ⟨_, rfl, fun j _ => rfl⟩

theorem call_tracks {c : Call} (h : ∀ name, Tracks running w name) (hc : c.InTime w) : ∀ name, Tracks running (w.call c) name := by
  intro name
  cases c with
  | open_ opened reply =>
    obtain ⟨said, hsaid, hother⟩ := hears_eq { w with
      topics := update w.topics opened (some ⟨some w.names.length, []⟩)
      names := w.names ++ [opened]
      answers := update w.answers w.names.length reply
      taken := update w.taken w.names.length false
      opens := update w.opens opened (w.names.length :: w.opens opened) } w.names.length reply
    rw [show w.call (.open_ opened reply) = _ from hsaid]
    by_cases hname : name = opened
    · subst hname
      exact .inr ⟨w.names.length, w.opens name, _, update_self .., update_self .., .inl rfl, by simp,
        (update_self ..).trans_ne hc, by simp⟩
    · refine (h name).imp (fun hclosed => ?_) ?_
      · simpa [update_of_ne hname] using hclosed
      · rintro ⟨i, earlier, topic, hopens, htopic, hsink, hi, hrest⟩
        have hne : i ≠ w.names.length := Nat.ne_of_lt (List.getElem?_eq_some_iff.mp hi).1
        refine ⟨i, earlier, topic, ?_⟩
        simpa [update_of_ne hname, update_of_ne hne, hother i hne, hopens, htopic, hsink,
          List.getElem?_append_left (List.getElem?_eq_some_iff.mp hi).1, hi] using hrest
  | close closed =>
    by_cases hname : name = closed
    · subst hname
      exact .inl ⟨update_self .., update_self ..⟩
    · simpa [Tracks, World.call, update_of_ne hname] using h name
  | answer i reply =>
    by_cases hnone : w.answers i = none
    · obtain ⟨said, hsaid, hother⟩ := hears_eq { w with answers := update w.answers i (some reply) } i (some reply)
      rw [World.call, if_pos hnone, hsaid]
      refine (h name).imp_right ?_
      rintro ⟨j, earlier, topic, hopens, htopic, hsink, hj, hrefused, htaken⟩
      refine ⟨j, earlier, topic, hopens, htopic, hsink, hj, ?_⟩
      by_cases hji : j = i
      · subst hji
        refine ⟨?_, fun ht => absurd hnone (htaken ht).1⟩
        rintro hreply
        exact hc (by simpa using hreply) name (by rw [hopens]; rfl)
      · simpa [update_of_ne hji, hother j hji] using ⟨hrefused, htaken⟩
    · rw [World.call, if_neg hnone]
      exact h name
  | take i =>
    rw [World.call]
    split
    · rename_i members asked hanswer hasked
      split_ifs with htaken
      · exact h name
      by_cases hname : name = asked
      · subst hname
        rcases h name with ⟨hopens, htopic⟩ | ⟨j, earlier, topic, hopens, htopic, hsink, hj, hrefused, -⟩
        · exact .inl ⟨hopens, by simp [World.edit, htopic]⟩
        · obtain ⟨hhead, hsaid⟩ := (hc name hasked members hanswer).resolve_left (by rw [hopens]; exact List.cons_ne_nil _ _)
          obtain rfl : j = i := by simpa [hopens] using hhead
          exact .inr ⟨j, earlier, { topic with members }, hopens, by simp [World.edit, htopic], hsink, hj, hrefused,
            fun _ => ⟨(fun hnone => nomatch hanswer.symm.trans hnone), hsaid.symm⟩⟩
      · refine (h name).imp (fun hclosed => by simpa [World.edit, update_of_ne hname] using hclosed) ?_
        rintro ⟨j, earlier, topic, hopens, htopic, hsink, hj, hrest⟩
        have hne : j ≠ i := fun hji => hname (Option.mem_unique hj (hji ▸ hasked))
        exact ⟨j, earlier, topic, hopens, by simpa [World.edit, update_of_ne hname] using htopic, hsink, hj,
          by simpa [World.edit, update_of_ne hne] using hrest⟩
    · exact h name

theorem calls_track {calls : List Call} (h : ∀ name, Tracks running w name) (hc : AllMeet World.call Call.InTime w calls) :
    ∀ name, Tracks running (calls.foldl World.call w) name := by
  induction calls generalizing w with
  | nil => exact h
  | cons c calls ih => exact ih (call_tracks h hc.1) hc.2

variable {i : Nat}

theorem owner_of_head {earlier : List Nat} (hopens : w.opens name = i :: earlier) (hrefused : w.answers i ≠ some .refused) :
    w.owner name = some i := by
  rw [World.owner, hopens, List.find?_cons_of_pos (by simpa using hrefused)]

theorem Tracks.owner (h : Tracks none w name) : (w.topics name).bind (·.sink) = w.owner name := by
  rcases h with ⟨hopens, htopic⟩ | ⟨i, earlier, topic, hopens, htopic, hsink, -, hrefused, -⟩
  · rw [htopic, World.owner, hopens]
    rfl
  · rw [owner_of_head hopens hrefused, htopic]
    exact hsink.resolve_right fun hrun => nomatch hrun.2

theorem members_said (h : ∀ name, Tracks running w name) : w.MembersSaid := by
  intro name i topic howner ht htopic
  rcases h name with ⟨-, hclosed⟩ | ⟨j, earlier, topic', hopens, htopic', -, -, hrefused, htaken⟩
  · exact nomatch htopic.symm.trans hclosed
  · obtain rfl : j = i := Option.mem_unique (owner_of_head hopens hrefused) howner
    obtain rfl : topic' = topic := Option.mem_unique htopic' htopic
    exact (htaken ht).2

theorem deliver_tracks (h : ∀ name, Tracks none w name) (ev : TopicEvent) (hsink : (w.topics name).bind (·.sink) = some i) :
    ∀ other, Tracks (some (name, i)) (w.deliver name ev) other := by
  rcases h name with ⟨-, htopic⟩ | ⟨j, earlier, topic, hopens, htopic, hown, hj, hrefused, htaken⟩
  · rw [htopic] at hsink
    exact nomatch hsink
  have hsome : topic.sink = some j := hown.resolve_right fun hrun => nomatch hrun.2
  obtain rfl : j = i := by simpa [htopic, hsome] using hsink
  intro other
  by_cases hname : other = name
  · subst hname
    refine .inr ⟨j, earlier, ⟨none, ev.membersOr topic.members⟩, hopens, by simp [World.deliver, World.edit, htopic], .inr ⟨rfl, rfl⟩,
      hj, hrefused, fun ht => ⟨(htaken ht).1, ?_⟩⟩
    simp [World.deliver, owner_of_head hopens hrefused, (htaken ht).2]
  · refine (h other).imp (fun hclosed => by simpa [World.deliver, World.edit, update_of_ne hname] using hclosed) ?_
    rintro ⟨k, earlier', topic', hopens', htopic', hown', hk, hrest⟩
    have hne : k ≠ j := fun hkj => hname (Option.mem_unique hk (hkj ▸ hj))
    exact ⟨k, earlier', topic', hopens', by simpa [World.deliver, World.edit, update_of_ne hname] using htopic',
      .inl (hown'.resolve_right fun hrun => nomatch hrun.2), hk, by simpa [World.deliver, World.edit, owner_of_head hopens hrefused, update_of_ne hne] using hrest⟩

theorem putBack_tracks (h : ∀ other, Tracks (some (name, i)) w other) :
    ∀ other, Tracks none (w.edit name fun topic => { topic with sink := topic.sink <|> some i }) other := by
  intro other
  by_cases hname : other = name
  · subst hname
    refine (h other).imp (fun hclosed => ⟨hclosed.1, by simp [World.edit, hclosed.2]⟩) ?_
    rintro ⟨j, earlier, topic, hopens, htopic, hown, hrest⟩
    refine ⟨j, earlier, { topic with sink := topic.sink <|> some i }, hopens, by simp [World.edit, htopic], .inl ?_, hrest⟩
    rcases hown with hsome | ⟨hnone, hrun⟩
    · rw [hsome]
      rfl
    · rw [hnone, (Prod.mk.inj (Option.some.inj hrun)).2]
      rfl
  · refine (h other).imp (fun hclosed => by simpa [World.edit, update_of_ne hname] using hclosed) ?_
    rintro ⟨j, earlier, topic, hopens, htopic, hown, hrest⟩
    have hsome : topic.sink = some j := hown.resolve_right fun hrun => hname (Prod.mk.inj (Option.some.inj hrun.2)).1.symm
    exact ⟨j, earlier, topic, hopens, by simpa [World.edit, update_of_ne hname] using htopic, .inl hsome, hrest⟩

theorem unhandled_tracks (h : ∀ name, Tracks none w name) (ev : TopicEvent) (hnone : (w.topics name).bind (·.sink) = none) :
    ∀ other, Tracks none (w.deliver name ev) other := by
  rcases h name with ⟨hopens, htopic⟩ | ⟨i, earlier, topic, -, htopic, hown, -⟩
  · have htopics : (w.deliver name ev).topics = w.topics := by
      simp [World.deliver, World.edit, update_eq_self_iff, htopic]
    have hsaid : (w.deliver name ev).said = w.said := by simp [World.deliver, World.owner, hopens]
    intro other
    rw [Tracks, htopics, hsaid]
    exact h other
  · have hsome : topic.sink = some i := hown.resolve_right fun hrun => nomatch hrun.2
    rw [htopic] at hnone
    exact nomatch hsome.symm.trans hnone

theorem act_tracks {act : Act} (h : ∀ name, Tracks none w name) (hc : act.InTime w) : ∀ name, Tracks none (w.act act) name := by
  cases act with
  | call c => exact call_tracks h hc
  | event name ev calls =>
    rw [World.act, World.route]
    split
    · exact unhandled_tracks h ev ‹_›
    · exact putBack_tracks (calls_track (deliver_tracks h ev ‹_›) hc)

theorem within_said (h : ∀ name, Tracks none w name) {ev : TopicEvent} {calls : List Call}
    (hc : AllMeet World.call Call.InTime (w.deliver name ev) calls) : (calls.foldl World.call (w.deliver name ev)).MembersSaid := by
  cases hsink : (w.topics name).bind (·.sink) with
  | none => exact members_said (calls_track (unhandled_tracks h ev hsink) hc)
  | some i => exact members_said (calls_track (deliver_tracks h ev hsink) hc)

theorem call_delivered (w : World) (c : Call) : (w.call c).delivered = w.delivered := by
  cases c with
  | open_ name reply =>
    obtain ⟨said, hsaid, -⟩ := hears_eq _ w.names.length reply
    rw [World.call, hsaid]
  | close name => rfl
  | answer i reply =>
    rw [World.call]
    split
    · obtain ⟨said, hsaid, -⟩ := hears_eq { w with answers := update w.answers i (some reply) } i (some reply)
      rw [hsaid]
    · rfl
  | take i =>
    rw [World.call]
    split
    · split <;> rfl
    · rfl

theorem calls_delivered (w : World) (calls : List Call) : (calls.foldl World.call w).delivered = w.delivered := by
  induction calls generalizing w with
  | nil => rfl
  | cons c calls ih => exact (ih _).trans (call_delivered w c)

/-- **Where no refused open stays in the table, and no reply is taken late, events go to the open that was granted.** -/
theorem topics_follow (h : Reaches World.act (fun w act => Act.InTime w act) (· = .new) w) : Follows w := by
  have htracks : ∀ name, Tracks none w name :=
    h.invariant (I := fun w => ∀ name, Tracks none w name) (fun w hw name => by rw [hw]; exact .inl ⟨rfl, rfl⟩)
      fun w act ih hc => act_tracks ih hc
  refine ⟨fun name ev calls => ?_, members_said htracks, fun _ _ _ => within_said htracks⟩
  rw [← (htracks name).owner, World.act, World.route]
  split
  · rfl
  · exact calls_delivered _ calls

/-- An open that is granted and whose reply is taken. -/
def opened : List Act := [.call (.open_ "pool" (some (.granted ["alice"]))), .call (.take 0)]

theorem topics_follow_opened : Follows (opened.foldl World.act .new) := by
  have hmeets : AllMeet World.act (fun w act => Act.InTime w act) .new opened := by
    refine ⟨nofun, fun name hname members hanswer => .inr ?_, trivial⟩
    obtain rfl : "pool" = name := Option.some.inj hname
    exact ⟨rfl, (Answer.granted.inj (Option.some.inj hanswer))⟩
  exact topics_follow (reaches_foldl hmeets)

/-- A refused open has taken the place of the granted one. -/
theorem refused_open_takes_over : ¬ ∀ acts : List Act, Follows (acts.foldl World.act .new) := by
  intro h
  have hevent := (h (opened ++ [.call (.open_ "pool" (some .refused))])).delivered "pool" (.dropped "bob") []
  exact absurd hevent (by decide)

end CitadelAgent.AppSdk.Topics
