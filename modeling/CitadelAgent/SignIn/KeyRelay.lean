import CitadelAgent.Lib.Machine
import CitadelAgent.Lib.Places
import CitadelAgent.Lib.Updates

/-!
# Security-key challenges

`citadel-internal-service/src/kernel/sign_in/key_relay.rs`: the challenges of all relays in one table, put there by a task
of each relay and taken out by an answer, a decline or the relay's drop. What the SDK sends a relay is a challenge from the
moment the relay's task has received it.

* `Relays`, `Relays.step` : the table beside the relays and their tasks;
* `Relays.Inv` : a challenge is in one place;
* `spent_once` : the whole, as long as no relay is dropped while its task has a challenge in hand.
-/

namespace CitadelAgent.SignIn
open Function Machine

/-- A connection's. -/
abbrev Uuid := Nat

abbrev Bytes := List UInt8

abbrev Cid := UInt64

def PRF_LEN : Nat := 32

/-- What the SDK asks: numbered in the order in which the tasks received them. -/
structure SecurityKeyChallenge where
  number : Nat
  credentialIds : List Bytes

structure Open where
  relay : Nat
  cid : Cid
  audience : List Uuid
  allowed : List Bytes
  challenge : SecurityKeyChallenge

structure Refused where
  cid : Cid
  message : String

abbrev KeyChallenges := Nat → Option Open

/-! ## Taking a challenge -/

def NOT_OPEN : String :=
  "No such key challenge is open: it was answered, it expired, or the request that raised it has ended"

def judge (open_ : Open) (source : Uuid) (check : Open → Except String Unit) : Except String Unit :=
  if source ∈ open_.audience then check open_ else .error "This window was not asked to answer that challenge"

namespace KeyChallenges

/-- Removes the challenge if it is open to `source` and the check accepts the answer. -/
def take (map : KeyChallenges) (source : Uuid) (challengeId : Nat) (check : Open → Except String Unit) :
    Except Refused Open × KeyChallenges :=
  match map challengeId with
  | none => (.error ⟨0, NOT_OPEN⟩, map)
  | some open_ =>
    match judge open_ source check with
    | .error message => (.error ⟨open_.cid, message⟩, map)
    | .ok () => (.ok open_, update map challengeId none)

def checkAnswer (credentialId prfOutput : Bytes) (open_ : Open) : Except String Unit :=
  if credentialId ∉ open_.allowed then .error "The key that answered is not one this challenge allows"
  else if prfOutput.length ≠ PRF_LEN then .error s!"A PRF output is {PRF_LEN} bytes"
  else .ok ()

end KeyChallenges

inductive Reply
  | answer (credentialId prfOutput : Bytes)
  | decline (reason : String)

def Reply.check : Reply → Open → Except String Unit
  | .answer credentialId prfOutput => KeyChallenges.checkAnswer credentialId prfOutput
  | .decline _ => fun _ => .ok ()

structure Handed where
  source : Uuid
  open_ : Open
  reply : Reply

/-! ## Relays and their tasks -/

structure Asker where
  audience : List Uuid
  cid : Cid

inductive Task
  | waiting
  | holding (challenge : SecurityKeyChallenge)
  | ended

/-- A relay is dropped in two steps: its task is told to abort, and its challenges are swept. -/
inductive Life
  | alive
  | aborted
  | dropped

structure KeyRelay where
  asker : Asker
  life : Life
  task : Task

structure Relays where
  relays : Nat → Option KeyRelay
  started : Nat
  challenges : KeyChallenges
  ids : Nat
  raised : Nat
  handed : List Handed
  told : Except Refused Cid

inductive Act
  | start (asker : Asker)
  | receive (relay : Nat) (credentialIds : List Bytes)
  | insert (relay : Nat)
  | finish (relay : Nat)
  | abort (relay : Nat)
  | sweep (relay : Nat)
  | reply (source : Uuid) (challengeId : Nat) (reply : Reply)

namespace Relays

def new : Relays := ⟨fun _ => none, 0, fun _ => none, 0, 0, [], .ok 0⟩

def step (s : Relays) : Act → Relays
  | .start asker =>
    { s with relays := update s.relays s.started (some ⟨asker, .alive, .waiting⟩), started := s.started + 1 }
  | .receive relay credentialIds =>
    match s.relays relay with
    | some ⟨asker, .alive, .waiting⟩ =>
      let holding : KeyRelay := ⟨asker, .alive, .holding ⟨s.raised, credentialIds⟩⟩
      { s with relays := update s.relays relay (some holding), raised := s.raised + 1 }
    | _ => s
  | .insert relay =>
    match s.relays relay with
    | some ⟨asker, life, .holding challenge⟩ =>
      let opened : Open := ⟨relay, asker.cid, asker.audience, challenge.credentialIds, challenge⟩
      { s with
        relays := update s.relays relay (some ⟨asker, life, .waiting⟩)
        challenges := update s.challenges s.ids (some opened)
        ids := s.ids + 1 }
    | _ => s
  | .finish relay =>
    match s.relays relay with
    | some ⟨asker, life, .waiting⟩ => { s with relays := update s.relays relay (some ⟨asker, life, .ended⟩) }
    | _ => s
  | .abort relay =>
    match s.relays relay with
    | some ⟨asker, .alive, task⟩ => { s with relays := update s.relays relay (some ⟨asker, .aborted, task⟩) }
    | _ => s
  | .sweep relay =>
    match s.relays relay with
    | some ⟨asker, .aborted, task⟩ =>
      { s with
        relays := update s.relays relay (some ⟨asker, .dropped, task⟩)
        challenges := fun id => (s.challenges id).filter fun open_ => open_.relay ≠ relay }
    | _ => s
  | .reply source challengeId reply =>
    match s.challenges.take source challengeId reply.check with
    | (.error refused, map) => { s with challenges := map, told := .error refused }
    | (.ok open_, map) =>
      { s with challenges := map, told := .ok open_.cid, handed := ⟨source, open_, reply⟩ :: s.handed }

/-! ## A challenge is in one place -/

inductive Place
  | held (relay : Nat)
  | open_ (id : Nat)

def At (s : Relays) : Place → Nat → Prop
  | .held relay, n => ∃ r challenge, s.relays relay = some r ∧ r.task = .holding challenge ∧ challenge.number = n
  | .open_ id, n => ∃ o, s.challenges id = some o ∧ o.challenge.number = n

def numbers (s : Relays) : List Nat := s.handed.map (·.open_.challenge.number)

/-- Each challenge is with one task, or open under one id, or was handed over once. -/
def Single (s : Relays) : Prop := Places.Single s.At s.numbers s.raised

variable {s t : Relays}

theorem Single.of_places {numbers : List Nat} {raised : Nat} (h : Places.Single t.At numbers raised)
    (hnumbers : t.numbers = numbers) (hraised : t.raised = raised) : t.Single := by
  rw [Single, hnumbers, hraised]
  exact h

theorem held_update {relay other : Nat} {r : KeyRelay} (hrelays : t.relays = update s.relays relay (some r)) {n : Nat}
    (h : t.At (.held other) n) :
    other ≠ relay ∧ s.At (.held other) n ∨ other = relay ∧ ∃ c, r.task = .holding c ∧ c.number = n := by
  obtain ⟨r', c, hr', hc, hn⟩ := h
  rw [hrelays] at hr'
  rcases of_update_some hr' with ⟨rfl, rfl⟩ | ⟨hsame, hr'⟩
  · exact .inr ⟨rfl, c, hc, hn⟩
  · exact .inl ⟨hsame, r', c, hr', hc, hn⟩

theorem Single.relay (h : s.Single) {relay : Nat} {r : KeyRelay} (hrelays : t.relays = update s.relays relay (some r))
    (hr : ∀ c, r.task = .holding c → s.At (.held relay) c.number)
    (hopen : ∀ id o, t.challenges id = some o → s.challenges id = some o) (hraised : t.raised = s.raised)
    (hhanded : t.handed = s.handed) : t.Single := by
  refine .of_places (h.shrink fun p n hp => ?_) (congrArg (List.map _) hhanded) hraised
  cases p with
  | open_ id =>
    obtain ⟨o, ho, hn⟩ := hp
    exact ⟨o, hopen id o ho, hn⟩
  | held other =>
    rcases held_update hrelays hp with ⟨-, hother⟩ | ⟨rfl, c, hc, rfl⟩
    · exact hother
    · exact hr c hc

theorem Single.receive (h : s.Single) {relay : Nat} {r : KeyRelay} {c : SecurityKeyChallenge} (hc : c.number = s.raised)
    (hr : r.task = .holding c) (hrelays : t.relays = update s.relays relay (some r)) (hopen : t.challenges = s.challenges)
    (hraised : t.raised = s.raised + 1) (hhanded : t.handed = s.handed) : t.Single := by
  refine .of_places (h.make (b := .held relay) fun p n hp => ?_) (congrArg (List.map _) hhanded) hraised
  cases p with
  | open_ id =>
    obtain ⟨o, ho, hn⟩ := hp
    exact .inl ⟨o, hopen ▸ ho, hn⟩
  | held other =>
    rcases held_update hrelays hp with ⟨-, hother⟩ | ⟨rfl, d, hd, rfl⟩
    · exact .inl hother
    · obtain rfl : c = d := by simpa using hr.symm.trans hd
      exact .inr ⟨rfl, hc⟩

theorem Single.insert (h : s.Single) {relay : Nat} {r r' : KeyRelay} {o : Open} (hr : s.relays relay = some r)
    (hholding : r.task = .holding o.challenge) (hwaiting : r'.task = .waiting)
    (hrelays : t.relays = update s.relays relay (some r')) (hopen : t.challenges = update s.challenges s.ids (some o))
    (hraised : t.raised = s.raised) (hhanded : t.handed = s.handed) : t.Single := by
  have hheld : s.At (.held relay) o.challenge.number := ⟨r, _, hr, hholding, rfl⟩
  refine .of_places (h.move hheld (b := .open_ s.ids) fun p n hp => ?_) (congrArg (List.map _) hhanded) hraised
  cases p with
  | open_ id =>
    obtain ⟨o', ho', hn⟩ := hp
    rw [hopen] at ho'
    rcases of_update ho' with ⟨hid, ho'⟩ | ⟨-, ho'⟩
    · exact .inr ⟨congrArg _ hid, by rw [← hn, ← Option.some.inj ho']⟩
    · exact .inl ⟨⟨o', ho', hn⟩, nofun⟩
  | held other =>
    rcases held_update hrelays hp with ⟨hne, hold⟩ | ⟨-, c, hc, -⟩
    · exact .inl ⟨hold, fun hsame => hne (Place.held.inj hsame)⟩
    · exact nomatch hwaiting.symm.trans hc

theorem Single.reply (h : s.Single) {id : Nat} {x : Handed} (ho : s.challenges id = some x.open_)
    (hrelays : t.relays = s.relays) (hopen : t.challenges = update s.challenges id none) (hraised : t.raised = s.raised)
    (hhanded : t.handed = x :: s.handed) : t.Single := by
  have hgone : s.At (.open_ id) x.open_.challenge.number := ⟨x.open_, ho, rfl⟩
  have hnumbers : t.numbers = x.open_.challenge.number :: s.numbers := by rw [numbers, hhanded, List.map_cons]; rfl
  refine .of_places (h.spend hgone fun p n hp => ?_) hnumbers hraised
  cases p with
  | held relay =>
    obtain ⟨r, c, hr, hc, hn⟩ := hp
    exact ⟨⟨r, c, hrelays ▸ hr, hc, hn⟩, nofun⟩
  | open_ other =>
    obtain ⟨o', ho', hn⟩ := hp
    rw [hopen] at ho'
    obtain ⟨hid, ho'⟩ := of_update_none ho'
    exact ⟨⟨o', ho', hn⟩, fun hsame => hid (Place.open_.inj hsame)⟩

/-! ## What every run keeps -/

/-- What is in the table, and what was handed over, is as the relay that raised it asked. -/
structure Fair (s : Relays) : Prop where
  below : ∀ relay r, s.relays relay = some r → relay < s.started
  opened : ∀ id o, s.challenges id = some o →
    o.allowed = o.challenge.credentialIds ∧ ∃ r, s.relays o.relay = some r ∧ o.audience = r.asker.audience
  handed : ∀ x ∈ s.handed, x.source ∈ x.open_.audience ∧ x.open_.allowed = x.open_.challenge.credentialIds ∧
    (∃ r, s.relays x.open_.relay = some r ∧ x.open_.audience = r.asker.audience) ∧
    ∀ credentialId prfOutput, x.reply = .answer credentialId prfOutput →
      credentialId ∈ x.open_.allowed ∧ prfOutput.length = PRF_LEN

def Keeps (s t : Relays) : Prop :=
  ∀ relay r, s.relays relay = some r → ∃ r', t.relays relay = some r' ∧ r'.asker = r.asker

theorem keeps_update {relay : Nat} {r r' : KeyRelay} (hr : s.relays relay = some r)
    (hrelays : t.relays = update s.relays relay (some r')) (hasker : r'.asker = r.asker) : s.Keeps t := by
  intro other q hq
  rw [hrelays]
  by_cases h : other = relay
  · subst h
    rw [update_self]
    exact ⟨r', rfl, by rw [hasker, Option.mem_unique hr hq]⟩
  · rw [update_of_ne h]
    exact ⟨q, hq, rfl⟩

theorem Fair.keep (h : s.Fair) (hkeeps : s.Keeps t) (hbelow : ∀ relay r, t.relays relay = some r → relay < t.started)
    (hopen : ∀ id o, t.challenges id = some o → s.challenges id = some o) (hhanded : t.handed = s.handed) : t.Fair where
  below := hbelow
  opened id o ho := by
    obtain ⟨hallowed, r, hr, haudience⟩ := h.opened id o (hopen id o ho)
    obtain ⟨r', hr', hasker⟩ := hkeeps _ _ hr
    exact ⟨hallowed, r', hr', by rw [hasker, haudience]⟩
  handed x hx := by
    obtain ⟨hsource, hallowed, ⟨r, hr, haudience⟩, hanswer⟩ := h.handed x (hhanded ▸ hx)
    obtain ⟨r', hr', hasker⟩ := hkeeps _ _ hr
    exact ⟨hsource, hallowed, ⟨r', hr', by rw [hasker, haudience]⟩, hanswer⟩

theorem below_update (h : s.Fair) {relay : Nat} {r r' : KeyRelay} (hr : s.relays relay = some r)
    (hrelays : t.relays = update s.relays relay (some r')) (hstarted : t.started = s.started) :
    ∀ other q, t.relays other = some q → other < t.started := by
  intro other q hq
  rw [hrelays] at hq
  rw [hstarted]
  by_cases hsame : other = relay
  · rw [hsame]
    exact h.below relay r hr
  · rw [update_of_ne hsame] at hq
    exact h.below other q hq

end Relays

theorem KeyChallenges.take_ok {map map' : KeyChallenges} {source : Uuid} {id : Nat} {check : Open → Except String Unit}
    {o : Open} (h : map.take source id check = (.ok o, map')) :
    map id = some o ∧ source ∈ o.audience ∧ check o = .ok () ∧ map' = update map id none := by
  unfold take judge at h
  cases hmap : map id with
  | none => simp [hmap] at h
  | some o' =>
    by_cases hsource : source ∈ o'.audience
    · cases hcheck : check o' with
      | error message => simp [hmap, hsource, hcheck] at h
      | ok =>
        obtain ⟨rfl, rfl⟩ : o' = o ∧ update map id none = map' := by simpa [hmap, hsource, hcheck] using h
        exact ⟨rfl, hsource, hcheck, rfl⟩
    · simp [hmap, hsource] at h

theorem KeyChallenges.take_error {map map' : KeyChallenges} {source : Uuid} {id : Nat} {check : Open → Except String Unit}
    {refused : Refused} (h : map.take source id check = (.error refused, map')) : map' = map := by
  unfold take at h
  split at h
  · exact (Prod.mk.inj h).2.symm
  · split at h
    · exact (Prod.mk.inj h).2.symm
    · exact nomatch (Prod.mk.inj h).1

theorem Reply.check_ok {reply : Reply} {o : Open} (h : reply.check o = .ok ()) : ∀ credentialId prfOutput,
    reply = .answer credentialId prfOutput → credentialId ∈ o.allowed ∧ prfOutput.length = PRF_LEN := by
  rintro credentialId prfOutput rfl
  simp only [check, KeyChallenges.checkAnswer] at h
  split at h
  · exact nomatch h
  · split at h
    · exact nomatch h
    · rename_i hallowed hlength
      exact ⟨not_not.mp hallowed, not_not.mp hlength⟩

namespace Relays

variable {s : Relays}

theorem inv_step (h : s.Single ∧ s.Fair) (act : Act) : (s.step act).Single ∧ (s.step act).Fair := by
  obtain ⟨hsingle, hfair⟩ := h
  cases act with
  | start asker =>
    have hnew : s.relays s.started = none := by
      by_contra hsome
      obtain ⟨r, hr⟩ := Option.ne_none_iff_exists'.mp hsome
      exact lt_irrefl _ (hfair.below _ r hr)
    have hkeeps : s.Keeps (s.step (.start asker)) := by
      intro relay r hr
      have hne : relay ≠ s.started := (hfair.below relay r hr).ne
      exact ⟨r, by rw [← hr]; exact update_of_ne hne .., rfl⟩
    refine ⟨hsingle.relay rfl nofun (fun _ _ ho => ho) rfl rfl, hfair.keep hkeeps ?_ (fun _ _ ho => ho) rfl⟩
    intro relay r hr
    show relay < s.started + 1
    by_cases hsame : relay = s.started
    · omega
    · rw [show (s.step (.start asker)).relays relay = s.relays relay from update_of_ne hsame ..] at hr
      exact Nat.lt_succ_of_lt (hfair.below relay r hr)
  | receive relay credentialIds =>
    simp only [step]
    split
    · rename_i asker hr
      exact ⟨hsingle.receive rfl rfl rfl rfl rfl rfl,
        hfair.keep (keeps_update hr rfl rfl) (below_update hfair hr rfl rfl) (fun _ _ ho => ho) rfl⟩
    · exact ⟨hsingle, hfair⟩
  | insert relay =>
    simp only [step]
    split
    · rename_i asker life challenge hr
      refine ⟨hsingle.insert hr rfl rfl rfl rfl rfl rfl, ?_⟩
      have hkept : ({ s with relays := update s.relays relay (some ⟨asker, life, .waiting⟩), ids := s.ids + 1 } : Relays).Fair :=
        hfair.keep (keeps_update hr rfl rfl) (below_update hfair hr rfl rfl) (fun _ _ ho => ho) rfl
      refine ⟨hkept.below, fun id o ho => ?_, hkept.handed⟩
      replace ho : update s.challenges s.ids (some _) id = some o := ho
      rcases of_update_some ho with ⟨-, rfl⟩ | ⟨-, ho⟩
      · exact ⟨rfl, _, update_self .., rfl⟩
      · exact hkept.opened id o ho
    · exact ⟨hsingle, hfair⟩
  | finish relay =>
    simp only [step]
    split
    · rename_i asker life hr
      exact ⟨hsingle.relay rfl nofun (fun _ _ ho => ho) rfl rfl,
        hfair.keep (keeps_update hr rfl rfl) (below_update hfair hr rfl rfl) (fun _ _ ho => ho) rfl⟩
    · exact ⟨hsingle, hfair⟩
  | abort relay =>
    simp only [step]
    split
    · rename_i asker task hr
      exact ⟨hsingle.relay rfl (fun c hc => ⟨_, c, hr, hc, rfl⟩) (fun _ _ ho => ho) rfl rfl,
        hfair.keep (keeps_update hr rfl rfl) (below_update hfair hr rfl rfl) (fun _ _ ho => ho) rfl⟩
    · exact ⟨hsingle, hfair⟩
  | sweep relay =>
    simp only [step]
    split
    · rename_i asker task hr
      have hopen : ∀ id o, (s.challenges id).filter (fun open_ => open_.relay ≠ relay) = some o → s.challenges id = some o :=
        fun id o ho => (Option.filter_eq_some_iff.mp ho).1
      exact ⟨hsingle.relay rfl (fun c hc => ⟨_, c, hr, hc, rfl⟩) hopen rfl rfl,
        hfair.keep (keeps_update hr rfl rfl) (below_update hfair hr rfl rfl) hopen rfl⟩
    · exact ⟨hsingle, hfair⟩
  | reply source id reply =>
    simp only [step]
    split
    · rename_i refused map htake
      obtain rfl := KeyChallenges.take_error htake
      exact ⟨hsingle, ⟨hfair.below, hfair.opened, hfair.handed⟩⟩
    · rename_i o map htake
      obtain ⟨ho, hsource, hcheck, rfl⟩ := KeyChallenges.take_ok htake
      refine ⟨hsingle.reply (x := ⟨source, o, reply⟩) ho rfl rfl rfl rfl, hfair.below, fun id' o' ho' => ?_, fun x hx => ?_⟩
      · by_cases hid : id' = id
        · rw [hid] at ho'
          exact nomatch (update_self ..).symm.trans ho'
        · exact hfair.opened id' o' ((update_of_ne hid ..).symm.trans ho')
      · rcases List.mem_cons.mp hx with rfl | hx
        · obtain ⟨hallowed, hrelay⟩ := hfair.opened id o ho
          exact ⟨hsource, hallowed, hrelay, Reply.check_ok hcheck⟩
        · exact hfair.handed x hx

/-! ## A dropped relay -/

/-- A relay that is swept has no challenge in its task's hand. -/
def IdleWhenSwept (s : Relays) : Act → Prop
  | .sweep relay => ∀ r, s.relays relay = some r → r.life = .aborted → ∀ c, r.task ≠ .holding c
  | _ => True

def Swept (s : Relays) : Prop :=
  ∀ relay r, s.relays relay = some r → r.life = .dropped →
    (∀ c, r.task ≠ .holding c) ∧ ∀ id o, s.challenges id = some o → o.relay ≠ relay

theorem Swept.relay {t : Relays} (h : s.Swept) {relay : Nat} {r' : KeyRelay}
    (hrelays : t.relays = update s.relays relay (some r'))
    (hr' : r'.life = .dropped → (∀ c, r'.task ≠ .holding c) ∧ ∀ id o, t.challenges id = some o → o.relay ≠ relay)
    (hopen : ∀ id o, t.challenges id = some o → s.challenges id = some o ∨ o.relay = relay) : t.Swept := by
  intro other r hr hdropped
  rw [hrelays] at hr
  rcases of_update_some hr with ⟨rfl, rfl⟩ | ⟨hsame, hr⟩
  · exact hr' hdropped
  · refine ⟨(h other r hr hdropped).1, fun id o ho hrelay => ?_⟩
    rcases hopen id o ho with hold | hmine
    · exact (h other r hr hdropped).2 id o hold hrelay
    · exact hsame (hrelay.symm.trans hmine)

theorem swept_step (h : s.Swept) (act : Act) (hidle : s.IdleWhenSwept act) : (s.step act).Swept := by
  cases act with
  | start asker => exact h.relay rfl nofun fun _ _ ho => .inl ho
  | receive relay credentialIds =>
    simp only [step]
    split
    · exact h.relay rfl nofun fun _ _ ho => .inl ho
    · exact h
  | insert relay =>
    simp only [step]
    split
    · rename_i asker life challenge hr
      refine h.relay rfl (fun hdropped => absurd rfl ((h relay _ hr hdropped).1 challenge)) fun id o ho => ?_
      replace ho : update s.challenges s.ids (some _) id = some o := ho
      rcases of_update ho with ⟨-, ho⟩ | ⟨-, ho⟩
      · exact .inr (by rw [← Option.some.inj ho])
      · exact .inl ho
    · exact h
  | finish relay =>
    simp only [step]
    split
    · rename_i asker life hr
      exact h.relay rfl (fun hdropped => ⟨nofun, (h relay _ hr hdropped).2⟩) fun _ _ ho => .inl ho
    · exact h
  | abort relay =>
    simp only [step]
    split
    · exact h.relay rfl nofun fun _ _ ho => .inl ho
    · exact h
  | sweep relay =>
    simp only [step]
    split
    · rename_i asker task hr
      have hempty : ∀ c, task ≠ .holding c := hidle ⟨asker, .aborted, task⟩ hr rfl
      refine h.relay rfl (fun _ => ⟨hempty, fun id o ho => ?_⟩) fun id o ho => .inl (Option.filter_eq_some_iff.mp ho).1
      simpa using (Option.filter_eq_some_iff.mp ho).2
    · exact h
  | reply source id reply =>
    simp only [step]
    split
    · rename_i refused map htake
      obtain rfl := KeyChallenges.take_error htake
      exact h
    · rename_i o map htake
      obtain ⟨-, -, -, rfl⟩ := KeyChallenges.take_ok htake
      refine fun relay r hr hdropped => ⟨(h relay r hr hdropped).1, fun id' o' ho' => ?_⟩
      replace ho' : update s.challenges id none id' = some o' := ho'
      obtain ⟨-, ho'⟩ := of_update_none ho'
      exact (h relay r hr hdropped).2 id' o' ho'

theorem inv_new : new.Single ∧ new.Fair := by
  refine ⟨⟨fun p q n hp => ?_, fun p n hp => ?_, List.nodup_nil, nofun⟩, ⟨nofun, nofun, nofun⟩⟩
  all_goals
    cases p with
    | held relay => obtain ⟨r, c, hr, -⟩ := hp; exact nomatch hr
    | open_ id => obtain ⟨o, ho, -⟩ := hp; exact nomatch ho

theorem inv_of_run {meets : Relays → Act → Prop} (run : Reaches step meets (· = new) s) : s.Single ∧ s.Fair :=
  run.invariant (I := fun s => s.Single ∧ s.Fair) (fun s hs => by rw [hs]; exact inv_new) fun _ act h _ => inv_step h act

end Relays

open Relays in
/-- In every run each challenge is handed over at most once, by a connection that was asked, and a refused reply
changes none. A relay dropped while its task had no challenge in hand has none open; one dropped before it put that
into the table leaves it there. -/
theorem spent_once (s : Relays) :
    (Reaches step (fun _ _ => True) (· = new) s →
      s.numbers.Nodup ∧ (∀ id o, s.challenges id = some o → o.challenge.number ∉ s.numbers) ∧
      (∀ x ∈ s.handed, x.source ∈ x.open_.audience ∧
        (∃ r, s.relays x.open_.relay = some r ∧ x.open_.audience = r.asker.audience) ∧
        ∀ credentialId prfOutput, x.reply = .answer credentialId prfOutput →
          credentialId ∈ x.open_.challenge.credentialIds ∧ prfOutput.length = PRF_LEN) ∧
      ∀ source id reply refused, (s.challenges.take source id (Reply.check reply)).1 = .error refused →
        (s.step (.reply source id reply)).challenges = s.challenges ∧
          (s.step (.reply source id reply)).handed = s.handed) ∧
    (Reaches step IdleWhenSwept (· = new) s → ∀ relay r, s.relays relay = some r → r.life = .dropped →
      ∀ id o, s.challenges id = some o → o.relay ≠ relay) ∧
    ∀ (relay : Nat) (asker : Asker) (c : SecurityKeyChallenge),
      s.relays relay = some ⟨asker, .aborted, .holding c⟩ →
      let t := [Act.sweep relay, .insert relay, .finish relay].foldl step s
      t.relays relay = some ⟨asker, .dropped, .ended⟩ ∧ ∃ id o, t.challenges id = some o ∧ o.relay = relay := by
  refine ⟨fun run => ?_, fun run relay r hr hdropped => ?_, fun relay asker c hr => ?_⟩
  · obtain ⟨hsingle, hfair⟩ := inv_of_run run
    refine ⟨hsingle.once, fun id o ho => (hsingle.fresh (.open_ id) _ ⟨o, ho, rfl⟩).2, fun x hx => ?_, ?_⟩
    · obtain ⟨hsource, hallowed, hrelay, hanswer⟩ := hfair.handed x hx
      exact ⟨hsource, hrelay, fun credentialId prfOutput h => hallowed ▸ hanswer credentialId prfOutput h⟩
    · intro source id reply refused hrefused
      rcases htake : s.challenges.take source id reply.check with ⟨result, map⟩
      rw [htake] at hrefused
      obtain rfl : result = .error refused := hrefused
      obtain rfl := KeyChallenges.take_error htake
      simp only [step, htake, and_self]
  · have hswept : s.Swept := run.invariant (fun _ hs => by rw [hs]; exact nofun) fun _ act h hidle => swept_step h act hidle
    exact (hswept relay r hr hdropped).2
  · simp only [List.foldl, step, hr, update_self, true_and]
    exact ⟨s.ids, _, update_self .., rfl⟩

open Relays in
def answeredTwice : Relays :=
  [Act.start ⟨[1], 7⟩, .receive 0 [[9]], .insert 0, .reply 1 0 (.answer [9] (List.replicate 32 0)),
    .reply 1 0 (.answer [9] (List.replicate 32 0)), .abort 0, .sweep 0, .finish 0].foldl step new

open Relays in
theorem spent_once_answeredTwice :
    answeredTwice.numbers = [0] ∧ answeredTwice.numbers.Nodup ∧
      (∀ id o, answeredTwice.challenges id = some o → o.relay ≠ 0) := by
  have hmeets : AllMeet step IdleWhenSwept new [.start ⟨[1], 7⟩, .receive 0 [[9]], .insert 0,
      .reply 1 0 (.answer [9] (List.replicate 32 0)), .reply 1 0 (.answer [9] (List.replicate 32 0)), .abort 0, .sweep 0,
      .finish 0] := by
    refine ⟨trivial, trivial, trivial, trivial, trivial, trivial, fun r hr _ c hc => ?_, trivial, trivial⟩
    have hwaiting : some (⟨⟨[1], 7⟩, .aborted, .waiting⟩ : KeyRelay) = some r := hr
    rw [← Option.some.inj hwaiting] at hc
    exact nomatch hc
  have run : Reaches step IdleWhenSwept (· = new) answeredTwice := reaches_foldl hmeets
  have hrelay : answeredTwice.relays 0 = some ⟨⟨[1], 7⟩, .dropped, .ended⟩ := by rfl
  exact ⟨by decide, ((spent_once _).1 (run.mono fun _ _ _ => trivial)).1, (spent_once _).2.1 run 0 _ hrelay rfl⟩

open Relays in
/-- The relay is dropped between its task's receiving a challenge and putting it into the table. -/
theorem late_insert_stays_open :
    ∃ s, Reaches step (fun _ _ => True) (· = new) s ∧ s.relays 0 = some ⟨⟨[1], 7⟩, .dropped, .ended⟩ ∧
      ∃ id o, s.challenges id = some o ∧ o.relay = 0 :=
  ⟨[Act.start ⟨[1], 7⟩, .receive 0 [[9]], .abort 0, .sweep 0, .insert 0, .finish 0].foldl step new,
    reaches_foldl (allMeet_of_forall (fun _ _ => trivial) _ _), by rfl, 0, _, by rfl, by rfl⟩

end CitadelAgent.SignIn
