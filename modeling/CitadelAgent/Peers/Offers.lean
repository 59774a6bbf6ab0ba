import CitadelAgent.Conversations.Engine
import CitadelAgent.Lib.Machine
import CitadelAgent.Lib.Places
import CitadelAgent.Lib.Updates

/-!
# Offers the agent answers

`citadel-internal-service/src/kernel/responses/peer_event.rs` (`PostConnect`), `inbound_connect/{mod,decide}.rs` and
`requests/peer/answer.rs`, for the offers of one peer to one session: each is stored in the place of the one before, its task
reads what it is judged by, and an answer takes the offer that is then stored.

* `decide` : how the agent answers an offer, from the facts;
* `Offers.Unreplaced` : the answers that take an offer the agent has judged;
* `accepts_what_it_judged` : these alone accept only what was judged.
-/

namespace CitadelAgent.Peers
open Function Machine Conversations Conversations.Engine

inductive SecurityLevel
  | standard | reinforced | high | ultra | extreme
  | custom (level : UInt8)
  deriving DecidableEq

def sdk : ChatSecurityLevel → SecurityLevel
  | .standard => .standard
  | .reinforced => .reinforced
  | .high => .high
  | .extreme => .extreme

def securityMinimumFor (prefs : AccountPreferences) (peerCid : Cid) : ChatSecurityLevel :=
  ((prefs.securityMinimums.find? (·.peerCid = peerCid)).map (·.level)).getD .standard

/-! ## Deciding -/

inductive PauseRecord
  | absent
  | paused
  /-- A read error, or a value that is not the marker. -/
  | unreadable
  deriving DecidableEq

def PAUSED_MARKER : List UInt8 := Cbor.utf8 "paused"

def PauseRecord.fromRead : Except String (Option (List UInt8)) → PauseRecord
  | .ok none => .absent
  | .ok (some value) => if value = PAUSED_MARKER then .paused else .unreadable
  | .error _ => .unreadable

inductive AgentAnswer
  | accept
  | decline
  | noAnswer
  | leaveToWindows
  deriving DecidableEq

structure OfferFacts where
  registered : Option Bool
  pause : PauseRecord
  offered : SecurityLevel
  minimum : Option SecurityLevel

section
variable (value : SecurityLevel → UInt8)

def decide (facts : OfferFacts) : AgentAnswer :=
  if facts.registered ≠ some true then .leaveToWindows
  else match facts.pause, facts.minimum with
    | .paused, _ => .decline
    | .unreadable, _ => .noAnswer
    | .absent, none => .noAnswer
    | .absent, some minimum => if value facts.offered < value minimum then .decline else .accept

theorem decide_accept {facts : OfferFacts} (h : decide value facts = .accept) : facts.registered = some true ∧
    facts.pause = .absent ∧ ∃ minimum, facts.minimum = some minimum ∧ ¬ value facts.offered < value minimum := by
  unfold decide at h
  split at h
  · exact nomatch h
  · rename_i hregistered
    split at h
    · exact nomatch h
    · exact nomatch h
    · exact nomatch h
    · rename_i minimum hpause hminimum
      split at h
      · exact nomatch h
      · rename_i hlevel
        exact ⟨not_not.mp hregistered, hpause, minimum, hminimum, hlevel⟩

end

/-! ## Offers, their tasks and the answers -/

/-- Numbered in the order of arrival. -/
structure Offer where
  number : Nat
  level : SecurityLevel
  deriving DecidableEq

structure Judgement where
  offer : Offer
  arrived : Nat
  facts : OfferFacts

inductive Reading
  | spawned
  | hosted
  | registered (arrived : Nat) (registered : Option Bool)
  | paused (arrived : Nat) (registered : Option Bool) (pause : PauseRecord)
  | judged (judgement : Judgement)
  | ended

structure Task where
  offer : Offer
  reading : Reading

inductive Phase
  | begun
  | connected (already : Bool)
  | checked
  | taken (offer : Offer)
  | turned (offer : Offer)
  | ended

def Phase.offer : Phase → Option Offer
  | .taken offer => some offer
  | .turned offer => some offer
  | _ => none

structure Answer where
  judgement : Option Judgement
  accept : Bool
  phase : Phase

structure Sent where
  offer : Offer
  accept : Bool
  judgement : Option Judgement

structure Offers where
  arrived : Nat
  stored : Option Offer
  tasks : Nat → Option Task
  begun : Nat
  answers : Nat → Option Answer
  connected : Bool
  judgements : List Judgement
  sent : List Sent

inductive Act
  | postConnect (level : SecurityLevel)
  | isHosted (task : Nat) (hosted : Bool)
  | readPeers (task : Nat) (peers : Except String (Option (List Cid)))
  | readPause (task : Nat) (stored : Except String (Option (List UInt8)))
  | readPreferences (task : Nat) (prefs : Except String AccountPreferences)
  | answerAsAgent (task : Nat)
  | peerConnectAccept (accept : Bool)
  | readConnected (answer : Nat)
  | readWaiting (answer : Nat)
  | take (answer : Nat)
  | setPeerTurn (answer : Nat) (ok : Bool)
  | send (answer : Nat) (ok : Bool)
  | channel (connected : Bool)
  | prune

namespace Offers

def new : Offers := ⟨0, none, fun _ => none, 0, fun _ => none, false, [], []⟩

def setTask (s : Offers) (task : Nat) (x : Task) : Offers := { s with tasks := update s.tasks task (some x) }

def setAnswer (s : Offers) (answer : Nat) (x : Answer) : Offers := { s with answers := update s.answers answer (some x) }

def beginAnswer (s : Offers) (judgement : Option Judgement) (accept : Bool) : Offers :=
  { s with answers := update s.answers s.begun (some ⟨judgement, accept, .begun⟩), begun := s.begun + 1 }

section
variable (value : SecurityLevel → UInt8) (peerCid : Cid)

def step (s : Offers) : Act → Offers
  | .postConnect level =>
    let offer : Offer := ⟨s.arrived, level⟩
    { s with
      arrived := s.arrived + 1
      stored := some offer
      tasks := update s.tasks s.arrived (some ⟨offer, .spawned⟩) }
  | .isHosted task hosted =>
    match s.tasks task with
    | some ⟨offer, .spawned⟩ => s.setTask task ⟨offer, if hosted then .hosted else .ended⟩
    | _ => s
  | .readPeers task peers =>
    match s.tasks task with
    | some ⟨offer, .hosted⟩ =>
      let registered := peers.toOption.map fun peers => peers.any (peerCid ∈ ·)
      s.setTask task ⟨offer, .registered s.arrived registered⟩
    | _ => s
  | .readPause task stored =>
    match s.tasks task with
    | some ⟨offer, .registered arrived registered⟩ =>
      s.setTask task ⟨offer, .paused arrived registered (PauseRecord.fromRead stored)⟩
    | _ => s
  | .readPreferences task prefs =>
    match s.tasks task with
    | some ⟨offer, .paused arrived registered pause⟩ =>
      let minimum := prefs.toOption.map fun prefs => sdk (securityMinimumFor prefs peerCid)
      let judgement : Judgement := ⟨offer, arrived, ⟨registered, pause, offer.level, minimum⟩⟩
      { s.setTask task ⟨offer, .judged judgement⟩ with judgements := judgement :: s.judgements }
    | _ => s
  | .answerAsAgent task =>
    match s.tasks task with
    | some ⟨offer, .judged judgement⟩ =>
      match decide value judgement.facts with
      | .accept => (s.setTask task ⟨offer, .ended⟩).beginAnswer (some judgement) true
      | .decline => (s.setTask task ⟨offer, .ended⟩).beginAnswer (some judgement) false
      | .noAnswer | .leaveToWindows => s.setTask task ⟨offer, .ended⟩
    | _ => s
  | .peerConnectAccept accept => s.beginAnswer none accept
  | .readConnected answer =>
    match s.answers answer with
    | some ⟨judgement, accept, .begun⟩ => s.setAnswer answer ⟨judgement, accept, .connected s.connected⟩
    | _ => s
  | .readWaiting answer =>
    match s.answers answer with
    | some ⟨judgement, accept, .connected already⟩ =>
      -- an accept while the peer is connected and no offer waits is a success that sends nothing
      s.setAnswer answer ⟨judgement, accept, if accept ∧ already ∧ s.stored.isNone then .ended else .checked⟩
    | _ => s
  | .take answer =>
    match s.answers answer, s.stored with
    | some ⟨judgement, accept, .checked⟩, some offer =>
      { s.setAnswer answer ⟨judgement, accept, .taken offer⟩ with stored := none }
    | some ⟨judgement, accept, .checked⟩, none => s.setAnswer answer ⟨judgement, accept, .ended⟩
    | _, _ => s
  | .setPeerTurn answer ok =>
    match s.answers answer with
    | some ⟨judgement, accept, .taken offer⟩ =>
      s.setAnswer answer ⟨judgement, accept, if ok then .turned offer else .ended⟩
    | _ => s
  | .send answer ok =>
    match s.answers answer with
    | some ⟨judgement, accept, .turned offer⟩ =>
      { s.setAnswer answer ⟨judgement, accept, .ended⟩ with
        sent := if ok then ⟨offer, accept, judgement⟩ :: s.sent else s.sent }
    | _ => s
  | .channel connected => { s with connected := connected }
  | .prune => { s with stored := none }

end

/-! ## Each offer is answered at most once -/

inductive Place
  | stored
  | answer (answer : Nat)

def At (s : Offers) : Place → Nat → Prop
  | .stored, n => ∃ offer, s.stored = some offer ∧ offer.number = n
  | .answer answer, n => ∃ x offer, s.answers answer = some x ∧ x.phase.offer = some offer ∧ offer.number = n

def Single (s : Offers) : Prop := Places.Single s.At (s.sent.map (·.offer.number)) s.arrived

variable {s t : Offers}

theorem at_answer {answer other : Nat} {x : Answer} (hanswers : t.answers = update s.answers answer (some x)) {n : Nat}
    (h : t.At (.answer other) n) :
    other ≠ answer ∧ s.At (.answer other) n ∨ other = answer ∧ ∃ offer, x.phase.offer = some offer ∧ offer.number = n := by
  obtain ⟨y, offer, hy, hoffer, hn⟩ := h
  rw [hanswers] at hy
  rcases of_update_some hy with ⟨rfl, rfl⟩ | ⟨hsame, hy⟩
  · exact .inr ⟨rfl, offer, hoffer, hn⟩
  · exact .inl ⟨hsame, y, offer, hy, hoffer, hn⟩

theorem Single.answer (h : s.Single) {answer : Nat} {x : Answer} (hanswers : t.answers = update s.answers answer (some x))
    (hx : ∀ offer, x.phase.offer = some offer → s.At (.answer answer) offer.number) (hstored : t.stored = s.stored)
    (hsent : t.sent = s.sent) (harrived : t.arrived = s.arrived) : t.Single := by
  rw [Single, hsent, harrived]
  refine h.shrink fun p n hp => ?_
  cases p with
  | stored =>
    obtain ⟨offer, hoffer, hn⟩ := hp
    exact ⟨offer, hstored ▸ hoffer, hn⟩
  | answer other =>
    rcases at_answer hanswers hp with ⟨-, hold⟩ | ⟨rfl, offer, hoffer, rfl⟩
    · exact hold
    · exact hx offer hoffer

theorem Single.kept (h : s.Single) (hanswers : t.answers = s.answers) (hstored : t.stored = s.stored ∨ t.stored = none)
    (hsent : t.sent = s.sent) (harrived : t.arrived = s.arrived) : t.Single := by
  rw [Single, hsent, harrived]
  refine h.shrink fun p n hp => ?_
  cases p with
  | stored =>
    obtain ⟨offer, hoffer, hn⟩ := hp
    rcases hstored with hsame | hgone
    · exact ⟨offer, hsame ▸ hoffer, hn⟩
    · exact nomatch hgone.symm.trans hoffer
  | answer other =>
    obtain ⟨x, offer, hx, hoffer, hn⟩ := hp
    exact ⟨x, offer, hanswers ▸ hx, hoffer, hn⟩

theorem Single.postConnect (h : s.Single) {offer : Offer} (hoffer : offer.number = s.arrived) (hstored : t.stored = some offer)
    (hanswers : t.answers = s.answers) (hsent : t.sent = s.sent) (harrived : t.arrived = s.arrived + 1) : t.Single := by
  rw [Single, hsent, harrived]
  refine h.make (b := .stored) fun p n hp => ?_
  cases p with
  | stored =>
    obtain ⟨offer', hoffer', hn⟩ := hp
    obtain rfl := Option.mem_unique hstored hoffer'
    exact .inr ⟨rfl, hn ▸ hoffer⟩
  | answer other =>
    obtain ⟨x, offer', hx, hoffer', hn⟩ := hp
    exact .inl ⟨x, offer', hanswers ▸ hx, hoffer', hn⟩

theorem Single.take (h : s.Single) {answer : Nat} {x : Answer} {offer : Offer} (hoffer : s.stored = some offer)
    (hx : x.phase.offer = some offer) (hanswers : t.answers = update s.answers answer (some x)) (hstored : t.stored = none)
    (hsent : t.sent = s.sent) (harrived : t.arrived = s.arrived) : t.Single := by
  rw [Single, hsent, harrived]
  have hwas : s.At .stored offer.number := ⟨offer, hoffer, rfl⟩
  refine h.move hwas (b := .answer answer) fun p n hp => ?_
  cases p with
  | stored =>
    obtain ⟨offer', hoffer', -⟩ := hp
    exact nomatch hstored.symm.trans hoffer'
  | answer other =>
    rcases at_answer hanswers hp with ⟨-, hold⟩ | ⟨rfl, offer', hoffer', rfl⟩
    · exact .inl ⟨hold, nofun⟩
    · rw [Option.mem_unique hx hoffer']
      exact .inr ⟨rfl, rfl⟩

theorem Single.send (h : s.Single) {answer : Nat} {x y : Answer} {e : Sent} (hx : s.answers answer = some x)
    (hoffer : x.phase.offer = some e.offer) (hy : y.phase.offer = none)
    (hanswers : t.answers = update s.answers answer (some y)) (hstored : t.stored = s.stored) (hsent : t.sent = e :: s.sent)
    (harrived : t.arrived = s.arrived) : t.Single := by
  rw [Single, hsent, harrived]
  have hwas : s.At (.answer answer) e.offer.number := ⟨x, e.offer, hx, hoffer, rfl⟩
  refine h.spend hwas fun p n hp => ?_
  cases p with
  | stored =>
    obtain ⟨offer', hoffer', hn⟩ := hp
    exact ⟨⟨offer', hstored ▸ hoffer', hn⟩, nofun⟩
  | answer other =>
    rcases at_answer hanswers hp with ⟨hne, hold⟩ | ⟨-, offer', hoffer', -⟩
    · exact ⟨hold, fun hsame => hne (Place.answer.inj hsame)⟩
    · exact nomatch hy.symm.trans hoffer'

section
variable {value : SecurityLevel → UInt8} {peerCid : Cid}

theorem single_step (h : s.Single) (act : Act) : (s.step value peerCid act).Single := by
  cases act with
  | postConnect level => exact h.postConnect rfl rfl rfl rfl rfl
  | isHosted task hosted =>
    simp only [step]
    split
    · exact h.kept rfl (.inl rfl) rfl rfl
    · exact h
  | readPeers task peers =>
    simp only [step]
    split
    · exact h.kept rfl (.inl rfl) rfl rfl
    · exact h
  | readPause task stored =>
    simp only [step]
    split
    · exact h.kept rfl (.inl rfl) rfl rfl
    · exact h
  | readPreferences task prefs =>
    simp only [step]
    split
    · exact h.kept rfl (.inl rfl) rfl rfl
    · exact h
  | answerAsAgent task =>
    simp only [step]
    split
    · split
      · exact h.answer rfl nofun rfl rfl rfl
      · exact h.answer rfl nofun rfl rfl rfl
      · exact h.kept rfl (.inl rfl) rfl rfl
      · exact h.kept rfl (.inl rfl) rfl rfl
    · exact h
  | peerConnectAccept accept => exact h.answer rfl nofun rfl rfl rfl
  | readConnected answer =>
    simp only [step]
    split
    · exact h.answer rfl nofun rfl rfl rfl
    · exact h
  | readWaiting answer =>
    simp only [step]
    split
    · refine h.answer rfl (fun offer hoffer => ?_) rfl rfl rfl
      split at hoffer <;> exact nomatch hoffer
    · exact h
  | take answer =>
    simp only [step]
    split
    · rename_i offer hoffer
      exact h.take hoffer rfl rfl rfl rfl rfl
    · exact h.answer rfl nofun rfl rfl rfl
    · exact h
  | setPeerTurn answer ok =>
    simp only [step]
    split
    · rename_i judgement accept offer hanswer
      refine h.answer rfl (fun offer' hoffer => ?_) rfl rfl rfl
      cases ok with
      | false => exact nomatch hoffer
      | true => exact ⟨_, offer', hanswer, hoffer, rfl⟩
    · exact h
  | send answer ok =>
    simp only [step]
    split
    · rename_i judgement accept offer hanswer
      cases ok with
      | false => exact h.answer rfl nofun rfl rfl rfl
      | true => exact h.send hanswer rfl rfl rfl rfl rfl rfl
    · exact h
  | channel connected => exact h.kept rfl (.inl rfl) rfl rfl
  | prune => exact h.kept rfl (.inr rfl) rfl rfl

/-! ## What the agent has judged -/

def Acceptable (value : SecurityLevel → UInt8) (s : Offers) (offer : Offer) : Prop :=
  ∃ judgement ∈ s.judgements, judgement.offer = offer ∧ decide value judgement.facts = .accept

def Judgement.About (j : Judgement) : Prop := j.offer.number < j.arrived ∧ j.facts.offered = j.offer.level

def Task.Reads (judgements : List Judgement) (x : Task) : Prop :=
  match x.reading with
  | .registered arrived _ | .paused arrived _ _ => x.offer.number < arrived
  | .judged judgement => judgement ∈ judgements
  | _ => True

structure Sound (value : SecurityLevel → UInt8) (s : Offers) : Prop where
  tasks : ∀ task x, s.tasks task = some x → x.offer.number < s.arrived ∧ Task.Reads s.judgements x
  judgements : ∀ j ∈ s.judgements, Judgement.About j
  answers : ∀ answer j accept phase, s.answers answer = some ⟨some j, accept, phase⟩ →
    j ∈ s.judgements ∧ (accept = true → decide value j.facts = .accept)

theorem Task.Reads.mono {judgements judgements' : List Judgement} {x : Task} (hsub : judgements ⊆ judgements')
    (h : Task.Reads judgements x) : Task.Reads judgements' x := by
  unfold Task.Reads at h ⊢
  split at h
  · exact h
  · exact h
  · exact hsub h
  · exact trivial

theorem Sound.task (h : s.Sound value) {task : Nat} {x : Task} (htasks : t.tasks = update s.tasks task (some x))
    (hlt : x.offer.number < s.arrived) (hreads : Task.Reads t.judgements x) (harrived : t.arrived = s.arrived)
    (hjudgements : t.judgements = s.judgements ∨ ∃ j, Judgement.About j ∧ t.judgements = j :: s.judgements)
    (hanswers : t.answers = s.answers) : t.Sound value := by
  have hsub : s.judgements ⊆ t.judgements := by
    rcases hjudgements with hsame | ⟨j, -, hnew⟩
    · rw [hsame]
      exact List.Subset.refl _
    · rw [hnew]
      exact List.subset_cons_self j _
  constructor
  · intro other y hy
    rw [harrived]
    rw [htasks] at hy
    rcases of_update_some hy with ⟨-, rfl⟩ | ⟨-, hy⟩
    · exact ⟨hlt, hreads⟩
    · exact ⟨(h.tasks other y hy).1, (h.tasks other y hy).2.mono hsub⟩
  · intro j hj
    rcases hjudgements with hsame | ⟨j', hj', hnew⟩
    · exact h.judgements j (hsame ▸ hj)
    · rw [hnew] at hj
      rcases List.mem_cons.mp hj with rfl | hold
      · exact hj'
      · exact h.judgements j hold
  · intro answer j accept phase hanswer
    rw [hanswers] at hanswer
    obtain ⟨hj, haccept⟩ := h.answers answer j accept phase hanswer
    exact ⟨hsub hj, haccept⟩

theorem Sound.answer (h : s.Sound value) {answer : Nat} {x : Answer}
    (hx : ∀ j, x.judgement = some j → j ∈ s.judgements ∧ (x.accept = true → decide value j.facts = .accept))
    (hanswers : t.answers = update s.answers answer (some x)) (htasks : t.tasks = s.tasks) (harrived : t.arrived = s.arrived)
    (hjudgements : t.judgements = s.judgements) : t.Sound value := by
  constructor
  · rw [htasks, harrived, hjudgements]
    exact h.tasks
  · rw [hjudgements]
    exact h.judgements
  · intro other j accept phase hother
    rw [hjudgements]
    rw [hanswers] at hother
    rcases of_update_some hother with ⟨-, rfl⟩ | ⟨-, hother⟩
    · exact hx j rfl
    · exact h.answers other j accept phase hother

theorem Sound.goOn (h : s.Sound value) {answer : Nat} {judgement : Option Judgement} {accept : Bool} {phase phase' : Phase}
    (hwas : s.answers answer = some ⟨judgement, accept, phase⟩)
    (hanswers : t.answers = update s.answers answer (some ⟨judgement, accept, phase'⟩)) (htasks : t.tasks = s.tasks)
    (harrived : t.arrived = s.arrived) (hjudgements : t.judgements = s.judgements) : t.Sound value :=
  h.answer (fun j hj => h.answers answer j accept phase (by rw [hwas, show judgement = some j from hj])) hanswers htasks harrived
    hjudgements

theorem sound_step (h : s.Sound value) (act : Act) : (s.step value peerCid act).Sound value := by
  cases act with
  | postConnect level =>
    constructor
    · intro task x hx
      show x.offer.number < s.arrived + 1 ∧ _
      replace hx : update s.tasks s.arrived (some ⟨⟨s.arrived, level⟩, .spawned⟩) task = some x := hx
      rcases of_update_some hx with ⟨-, rfl⟩ | ⟨-, hx⟩
      · exact ⟨Nat.lt_succ_self _, trivial⟩
      · exact ⟨Nat.lt_succ_of_lt (h.tasks task x hx).1, (h.tasks task x hx).2⟩
    · exact h.judgements
    · exact h.answers
  | isHosted task hosted =>
    simp only [step]
    split
    · rename_i offer hx
      refine h.task rfl (h.tasks task _ hx).1 ?_ rfl (.inl rfl) rfl
      cases hosted <;> exact trivial
    · exact h
  | readPeers task peers =>
    simp only [step]
    split
    · rename_i offer hx
      have hlt := (h.tasks task _ hx).1
      exact h.task rfl hlt hlt rfl (.inl rfl) rfl
    · exact h
  | readPause task stored =>
    simp only [step]
    split
    · rename_i offer arrived registered hx
      obtain ⟨hlt, hreads⟩ := h.tasks task _ hx
      exact h.task rfl hlt hreads rfl (.inl rfl) rfl
    · exact h
  | readPreferences task prefs =>
    simp only [step]
    split
    · rename_i offer arrived registered pause hx
      obtain ⟨hlt, harrived⟩ := h.tasks task _ hx
      refine h.task rfl hlt List.mem_cons_self rfl (.inr ⟨_, ?_, rfl⟩) rfl
      exact ⟨harrived, rfl⟩
    · exact h
  | answerAsAgent task =>
    simp only [step]
    split
    · rename_i offer judgement hx
      obtain ⟨hlt, hjudged⟩ := h.tasks task _ hx
      have hended : (s.setTask task ⟨offer, .ended⟩).Sound value := h.task rfl hlt trivial rfl (.inl rfl) rfl
      split
      · rename_i haccept
        refine hended.answer (fun j hj => ?_) rfl rfl rfl rfl
        obtain rfl := Option.some.inj hj
        exact ⟨hjudged, fun _ => haccept⟩
      · refine hended.answer (fun j hj => ?_) rfl rfl rfl rfl
        obtain rfl := Option.some.inj hj
        exact ⟨hjudged, fun haccept => absurd haccept Bool.false_ne_true⟩
      · exact hended
      · exact hended
    · exact h
  | peerConnectAccept accept => exact h.answer (x := ⟨none, accept, .begun⟩) (fun _ hj => by cases hj) rfl rfl rfl rfl
  | readConnected answer =>
    simp only [step]
    split
    · rename_i hx
      exact h.goOn hx rfl rfl rfl rfl
    · exact h
  | readWaiting answer =>
    simp only [step]
    split
    · rename_i hx
      exact h.goOn hx rfl rfl rfl rfl
    · exact h
  | take answer =>
    simp only [step]
    split
    · rename_i hx hoffer
      exact h.goOn hx rfl rfl rfl rfl
    · rename_i hx hoffer
      exact h.goOn hx rfl rfl rfl rfl
    · exact h
  | setPeerTurn answer ok =>
    simp only [step]
    split
    · rename_i hx
      exact h.goOn hx rfl rfl rfl rfl
    · exact h
  | send answer ok =>
    simp only [step]
    split
    · rename_i hx
      exact h.goOn hx rfl rfl rfl rfl
    · exact h
  | channel connected => exact ⟨h.tasks, h.judgements, h.answers⟩
  | prune => exact ⟨h.tasks, h.judgements, h.answers⟩

/-! ## Accepting what was judged -/

/-- When the agent takes the stored offer to accept it, that is the offer it has judged: no other has replaced it whose own task
has not found it acceptable. -/
def Unreplaced (value : SecurityLevel → UInt8) (s : Offers) : Act → Prop
  | .take answer => ∀ judgement, s.answers answer = some ⟨some judgement, true, .checked⟩ →
      ∀ offer, s.stored = some offer → offer = judgement.offer ∨ s.Acceptable value offer
  | _ => True

structure Kept (value : SecurityLevel → UInt8) (s : Offers) : Prop where
  taken : ∀ answer j phase, s.answers answer = some ⟨some j, true, phase⟩ →
    ∀ offer, phase.offer = some offer → s.Acceptable value offer
  sent : ∀ e ∈ s.sent, e.accept = true → e.judgement.isSome → s.Acceptable value e.offer

theorem Acceptable.mono {offer : Offer} (hsub : s.judgements ⊆ t.judgements) (h : s.Acceptable value offer) :
    t.Acceptable value offer := by
  obtain ⟨j, hj, hoffer⟩ := h
  exact ⟨j, hsub hj, hoffer⟩

theorem Kept.keep (h : s.Kept value) (hanswers : t.answers = s.answers) (hsent : t.sent = s.sent)
    (hsub : s.judgements ⊆ t.judgements) : t.Kept value where
  taken answer j phase hanswer offer hoffer := (h.taken answer j phase (hanswers ▸ hanswer) offer hoffer).mono hsub
  sent e he haccept hagent := (h.sent e (hsent ▸ he) haccept hagent).mono hsub

theorem Kept.answer (h : s.Kept value) {answer : Nat} {x : Answer} (hanswers : t.answers = update s.answers answer (some x))
    (hx : ∀ offer, x.judgement.isSome → x.accept = true → x.phase.offer = some offer → s.Acceptable value offer)
    (hsent : ∀ e ∈ t.sent, e ∈ s.sent ∨ (e.accept = true → e.judgement.isSome → s.Acceptable value e.offer))
    (hjudgements : t.judgements = s.judgements) : t.Kept value := by
  have hsub : s.judgements ⊆ t.judgements := by rw [hjudgements]; exact List.Subset.refl _
  constructor
  · intro other j phase hother offer hoffer
    rw [hanswers] at hother
    rcases of_update_some hother with ⟨-, rfl⟩ | ⟨-, hother⟩
    · exact (hx offer rfl rfl hoffer).mono hsub
    · exact (h.taken other j phase hother offer hoffer).mono hsub
  · intro e he haccept hagent
    rcases hsent e he with hold | hnew
    · exact (h.sent e hold haccept hagent).mono hsub
    · exact (hnew haccept hagent).mono hsub

theorem kept_step (hs : s.Sound value) (h : s.Kept value) (act : Act) (hmet : s.Unreplaced value act) :
    (s.step value peerCid act).Kept value := by
  cases act with
  | postConnect level => exact h.keep rfl rfl (List.Subset.refl _)
  | isHosted task hosted =>
    simp only [step]
    split
    · exact h.keep rfl rfl (List.Subset.refl _)
    · exact h
  | readPeers task peers =>
    simp only [step]
    split
    · exact h.keep rfl rfl (List.Subset.refl _)
    · exact h
  | readPause task stored =>
    simp only [step]
    split
    · exact h.keep rfl rfl (List.Subset.refl _)
    · exact h
  | readPreferences task prefs =>
    simp only [step]
    split
    · exact h.keep rfl rfl (List.subset_cons_self _ _)
    · exact h
  | answerAsAgent task =>
    simp only [step]
    split
    · split
      · exact h.answer rfl nofun (fun _ he => .inl he) rfl
      · exact h.answer rfl nofun (fun _ he => .inl he) rfl
      · exact h.keep rfl rfl (List.Subset.refl _)
      · exact h.keep rfl rfl (List.Subset.refl _)
    · exact h
  | peerConnectAccept accept => exact h.answer rfl nofun (fun _ he => .inl he) rfl
  | readConnected answer =>
    simp only [step]
    split
    · exact h.answer rfl nofun (fun _ he => .inl he) rfl
    · exact h
  | readWaiting answer =>
    simp only [step]
    split
    · refine h.answer rfl (fun offer _ _ hoffer => ?_) (fun _ he => .inl he) rfl
      split at hoffer <;> exact nomatch hoffer
    · exact h
  | take answer =>
    simp only [step]
    split
    · rename_i judgement accept offer hx hoffer
      refine h.answer rfl (fun offer' hagent haccept hoffer' => ?_) (fun _ he => .inl he) rfl
      obtain rfl := Option.some.inj hoffer'
      obtain ⟨j, rfl⟩ := Option.isSome_iff_exists.mp hagent
      obtain rfl : accept = true := haccept
      rcases hmet j hx offer hoffer with rfl | hacceptable
      · obtain ⟨hj, hdecided⟩ := hs.answers answer j true .checked hx
        exact ⟨j, hj, rfl, hdecided rfl⟩
      · exact hacceptable
    · exact h.answer rfl nofun (fun _ he => .inl he) rfl
    · exact h
  | setPeerTurn answer ok =>
    simp only [step]
    split
    · rename_i judgement accept offer hx
      refine h.answer rfl (fun offer' hagent haccept hoffer' => ?_) (fun _ he => .inl he) rfl
      obtain ⟨j, rfl⟩ := Option.isSome_iff_exists.mp hagent
      obtain rfl : accept = true := haccept
      cases ok with
      | false => exact nomatch hoffer'
      | true => exact h.taken answer j _ hx offer' hoffer'
    · exact h
  | send answer ok =>
    simp only [step]
    split
    · rename_i judgement accept offer hx
      refine h.answer rfl nofun (fun e he => ?_) rfl
      cases ok with
      | false => exact .inl he
      | true =>
        rcases List.mem_cons.mp he with rfl | hold
        · refine .inr fun haccept hagent => ?_
          obtain ⟨j, rfl⟩ := Option.isSome_iff_exists.mp hagent
          obtain rfl : accept = true := haccept
          exact h.taken answer j _ hx offer rfl
        · exact .inl hold
    · exact h
  | channel connected => exact h.keep rfl rfl (List.Subset.refl _)
  | prune => exact h.keep rfl rfl (List.Subset.refl _)

theorem single_new : new.Single := by
  refine ⟨fun p q n hp => ?_, fun p n hp => ?_, List.nodup_nil, nofun⟩
  all_goals
    cases p with
    | stored => obtain ⟨offer, hoffer, -⟩ := hp; exact nomatch hoffer
    | answer answer => obtain ⟨x, offer, hx, -⟩ := hp; exact nomatch hx

theorem sound_new : new.Sound value where
  tasks _ _ hx := nomatch hx
  judgements _ hj := absurd hj List.not_mem_nil
  answers _ _ _ _ hx := nomatch hx

theorem kept_new : new.Kept value where
  taken _ _ _ hx := nomatch hx
  sent _ he := absurd he List.not_mem_nil

end

end Offers

def Offers.acceptedBy (value : SecurityLevel → UInt8) (peerCid : Cid) (answer : Nat) (s : Offers) : Offers :=
  [Act.take answer, .setPeerTurn answer true, .send answer true].foldl (step value peerCid) s

open Offers in
/-- In every run each stored offer is answered at most once, and each that the agent accepts was found acceptable by
its own task as long as it accepts none that has replaced the one it judged. In any run an offer that is taken
otherwise is accepted all the same. -/
theorem accepts_what_it_judged (value : SecurityLevel → UInt8) (peerCid : Cid) :
    (∀ s, Reaches (step value peerCid) (fun _ _ => True) (· = new) s → (s.sent.map (·.offer.number)).Nodup) ∧
    (∀ s, Reaches (step value peerCid) (Unreplaced value) (· = new) s →
      ∀ e ∈ s.sent, e.accept = true → e.judgement.isSome → ∃ j ∈ s.judgements, j.offer = e.offer ∧
        e.offer.number < j.arrived ∧ j.facts.offered = e.offer.level ∧ decide value j.facts = .accept ∧
        j.facts.pause = .absent ∧ ∃ minimum, j.facts.minimum = some minimum ∧ ¬ value e.offer.level < value minimum) ∧
    ∀ s answer, ¬ Unreplaced value s (.take answer) →
      ∃ e ∈ (acceptedBy value peerCid answer s).sent, e.accept = true ∧ e.judgement.isSome ∧
        ∀ j ∈ (acceptedBy value peerCid answer s).judgements, j.offer = e.offer → decide value j.facts ≠ .accept := by
  refine ⟨fun s run => ?_, fun s run e he haccept hagent => ?_, fun s answer hreplaced => ?_⟩
  · have hsingle : s.Single := run.invariant (I := Single) (fun s hs => by rw [hs]; exact single_new)
      fun s act h _ => single_step h act
    exact hsingle.once
  · have hs : s.Sound value ∧ s.Kept value := run.invariant (I := fun s => s.Sound value ∧ s.Kept value)
      (fun s hs => by rw [hs]; exact ⟨sound_new, kept_new⟩) fun s act h hmet => ⟨sound_step h.1 act, kept_step h.1 h.2 act hmet⟩
    obtain ⟨j, hj, hoffer, hdecided⟩ := hs.2.sent e he haccept hagent
    obtain ⟨harrived, hlevel⟩ := hs.1.judgements j hj
    rw [hoffer] at harrived hlevel
    obtain ⟨-, hpause, minimum, hminimum, hlt⟩ := decide_accept value hdecided
    exact ⟨j, hj, hoffer, harrived, hlevel, hdecided, hpause, minimum, hminimum, hlevel ▸ hlt⟩
  · simp only [Unreplaced, not_forall, not_or] at hreplaced
    obtain ⟨j, hx, offer, hoffer, -, hunjudged⟩ := hreplaced
    have hstate : acceptedBy value peerCid answer s = { s with
        stored := none
        answers := (acceptedBy value peerCid answer s).answers
        sent := ⟨offer, true, some j⟩ :: s.sent } := by
      simp only [acceptedBy, List.foldl, step, hx, hoffer, setAnswer, update_self, if_true]
    rw [hstate]
    exact ⟨_, List.mem_cons_self, rfl, rfl, fun j' hj' hsame haccept => hunjudged ⟨j', hj', hsame, haccept⟩⟩

def rank : SecurityLevel → UInt8
  | .standard => 0
  | .reinforced => 1
  | .high => 2
  | .ultra => 3
  | .extreme => 4
  | .custom level => level

def reads (task : Nat) : List Act :=
  [.isHosted task true, .readPeers task (.ok (some [7])), .readPause task (.ok none),
    .readPreferences task (.ok { AccountPreferences.UI_DEFAULTS with securityMinimums := [⟨7, .high⟩] })]

namespace Offers

def oneOffer : List Act :=
  .postConnect .high :: reads 0 ++ [.answerAsAgent 0, .readConnected 0, .readWaiting 0, .take 0, .setPeerTurn 0 true, .send 0 true]

end Offers

open Offers in
theorem accepts_what_it_judged_oneOffer : ∃ e ∈ (oneOffer.foldl (step rank 7) new).sent, e.offer = ⟨0, .high⟩ ∧
    ∃ j ∈ (oneOffer.foldl (step rank 7) new).judgements, j.offer = e.offer ∧ decide rank j.facts = .accept := by
  have hmeets : AllMeet (step rank 7) (Unreplaced rank) new oneOffer := by
    refine ⟨trivial, trivial, trivial, trivial, trivial, trivial, trivial, trivial, ?_, trivial, trivial, trivial⟩
    intro j _ offer hoffer
    obtain rfl : (⟨0, .high⟩ : Offer) = offer := Option.some.inj hoffer
    refine .inr ⟨_, List.mem_cons_self, rfl, ?_⟩
    rfl
  obtain ⟨j, hj, hoffer, -, -, hdecided, -⟩ :=
    (accepts_what_it_judged rank 7).2.1 _ (reaches_foldl hmeets) ⟨⟨0, .high⟩, true, _⟩ (List.mem_cons_self) rfl rfl
  exact ⟨_, List.mem_cons_self, rfl, j, hj, hoffer, hdecided⟩

/-- A second offer, below the chat's level, arrives once the first is judged. -/
def Offers.replacedOffer : List Act :=
  .postConnect .high :: reads 0 ++ [.answerAsAgent 0, .readConnected 0, .readWaiting 0, .postConnect .standard, .take 0,
    .setPeerTurn 0 true, .send 0 true] ++ reads 1

open Offers in
/-- The agent accepts the second offer, which it declines when it judges it. -/
theorem accepts_a_replaced_offer :
    ∃ s, Reaches (step rank 7) (fun _ _ => True) (· = new) s ∧ ∃ e ∈ s.sent, e.accept = true ∧ e.judgement.isSome ∧
      e.offer = ⟨1, .standard⟩ ∧ ∀ j ∈ s.judgements, j.offer = e.offer → decide rank j.facts = .decline :=
  ⟨replacedOffer.foldl (step rank 7) new, reaches_foldl (allMeet_of_forall (fun _ _ => trivial) _ _), by decide +kernel⟩

end CitadelAgent.Peers
