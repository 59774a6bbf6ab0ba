import CitadelAgent.Lib.Machine

/-!
# The waits of the page's client

* `Request.judge` : what the handler of a wait does with a message, for the five requests that wait;
* `Handler`, `Handler.call` : the installed handler, in which each wait wraps the one it found;
* `Page.step` : a wait begins, its timeout expires, a message arrives;
* `Handler.call_called` : what a call of the installed handler does, by where the message gets to in the chain.
-/

namespace CitadelAgent.PageClient
open Function Machine

/-- An `InternalServiceResponse`, as far as this client looks at it. -/
inductive Response
  | connectSuccess (cid : Nat)
  | connectFailure (message : String)
  | registerSuccess (cid : Nat)
  | registerFailure (message : String)
  | connectionManagementSuccess
  | connectionManagementFailure
  | other
  deriving DecidableEq

def Response.cid : Response → Option Nat
  | connectSuccess cid => some cid
  | registerSuccess cid => some cid
  | _ => none

/-- The `responseType`s that `waitForResponse` is called with. -/
inductive ResponseType
  | connectSuccess
  | registerSuccess
  deriving DecidableEq

namespace ResponseType

def name : ResponseType → String
  | connectSuccess => "ConnectSuccess"
  | registerSuccess => "RegisterSuccess"

/-- `responseType in message`. -/
def success : ResponseType → Response → Bool
  | connectSuccess, .connectSuccess _ => true
  | registerSuccess, .registerSuccess _ => true
  | _, _ => false

/-- The failure's message, when `responseType.replace('Success', 'Failure') in message`. -/
def failure : ResponseType → Response → Option String
  | connectSuccess, .connectFailure message => some message
  | registerSuccess, .registerFailure message => some message
  | _, _ => none

end ResponseType

/-- What a wait's handler does with a message: settle, or hand it on. -/
inductive Verdict
  | resolve
  | reject (error : String)
  | pass
  deriving DecidableEq

/-- `waitForResponse`: a registration takes a `ConnectSuccess` too, which `connect_after_register` brings. -/
def ResponseType.judge (responseType : ResponseType) (message : Response) : Verdict :=
  if responseType.success message ∨ (responseType = .registerSuccess ∧ ResponseType.connectSuccess.success message) then
    .resolve
  else
    match responseType.failure message with
    | some text => .reject (if text = "" then responseType.name ++ " failed" else text)
    | none => .pass

/-- `waitForConnectionManagementResponse`, which resolves with a failure as well. -/
def judgeConnectionManagement : Response → Verdict
  | .connectionManagementSuccess => .resolve
  | .connectionManagementFailure => .resolve
  | _ => .pass

inductive Request
  | connect
  | register
  | setOrphanMode
  | claimSession
  | disconnectOrphan
  deriving DecidableEq

variable {request : Request} {i : Nat}

namespace Request

/-- What `waitForResponse` is given; the others use `waitForConnectionManagementResponse`. -/
def responseType : Request → Option ResponseType
  | connect => some .connectSuccess
  | register => some .registerSuccess
  | _ => none

def judge (request : Request) (message : Response) : Verdict :=
  match request.responseType with
  | some responseType => responseType.judge message
  | none => judgeConnectionManagement message

def timeout : Request → Nat
  | register => 5000
  | _ => 30000

def timeoutError (request : Request) : String :=
  match request.responseType with
  | some responseType => "Timeout waiting for " ++ responseType.name ++ " after " ++ toString request.timeout ++ "ms"
  | none => "Timeout waiting for ConnectionManagement response after " ++ toString request.timeout ++ "ms"

def Awaits (request : Request) (message : Response) : Prop := request.judge message ≠ .pass

def Rejects (request : Request) (message : Response) : Prop :=
  request.judge message ≠ .pass ∧ request.judge message ≠ .resolve

instance (request : Request) (message : Response) : Decidable (request.Awaits message) :=
  inferInstanceAs (Decidable (_ ≠ _))

instance (request : Request) (message : Response) : Decidable (request.Rejects message) :=
  inferInstanceAs (Decidable (_ ∧ _))

theorem awaits_of_resolve {message : Response} (h : request.judge message = .resolve) :
    request.Awaits message := by
  intro hpass
  exact nomatch hpass.symm.trans h

theorem rejects_of_reject {message : Response} {error : String} (h : request.judge message = .reject error) : request.Rejects message := by
  refine ⟨fun hpass => ?_, fun hresolve => ?_⟩
  · exact nomatch hpass.symm.trans h
  · exact nomatch hresolve.symm.trans h

end Request

inductive Handler
  | user
  | wait (i : Nat) (request : Request) (originalHandler : Handler)
  deriving DecidableEq

/-- How a wait's promise settled, and how many messages had arrived before. -/
inductive Outcome
  | resolved (n : Nat)
  | rejected (n : Nat) (error : String)
  | timedOut (n : Nat) (error : String)
  deriving DecidableEq

/-- One `InternalServiceWasmClient`, with the waits begun on it and the messages that arrived, each by its number. -/
structure Page where
  messageHandler : Handler
  currentCid : Option Nat
  isConnected : Bool
  errors : List Nat
  requests : Nat → Request
  began : Nat → Nat
  started : Nat
  timers : Nat → Bool
  outcomes : Nat → Option Outcome
  log : List Response
  delivered : List Nat

namespace Page

def init : Page where
  messageHandler := .user
  currentCid := none
  isConnected := false
  errors := []
  requests := fun _ => .connect
  began := fun _ => 0
  started := 0
  timers := fun _ => false
  outcomes := fun _ => none
  log := []
  delivered := []

/-- `resolve` and `reject`: a promise settles once. -/
def settle (p : Page) (i : Nat) (outcome : Outcome) : Page :=
  { p with outcomes := update p.outcomes i ((p.outcomes i).or (some outcome)) }

/-- `clearTimeout(timeoutId)` and `this.messageHandler = originalHandler`. -/
def restore (p : Page) (i : Nat) (originalHandler : Handler) : Page :=
  { p with timers := update p.timers i false, messageHandler := originalHandler }

end Page

/-- A handler is called with message `n`; the user's may throw, and then what the waits that called it have still to do is left. -/
def Handler.call (message : Response) (n : Nat) (throws : Bool) : Handler → Page → Page × Bool
  | .user, p => ({ p with delivered := p.delivered ++ [n] }, throws)
  | .wait i request originalHandler, p =>
    match request.judge message with
    | .resolve =>
      match originalHandler.call message n throws (p.restore i originalHandler) with
      | (p', true) => (p', true)
      | (p', false) => (p'.settle i (.resolved n), false)
    | .reject error => ((p.restore i originalHandler).settle i (.rejected n error), false)
    | .pass => originalHandler.call message n throws p

/-- A wait the user's handler begins during a call wraps what the call has installed by then, as one begun after it does. -/
inductive Act
  | start (request : Request)
  | timeout (i : Nat)
  | arrive (message : Response) (throws : Bool)

namespace Page

/-- `waitForResponse` or `waitForConnectionManagementResponse` begins. -/
def wait (p : Page) (request : Request) : Page :=
  { p with
    messageHandler := .wait p.started request p.messageHandler
    requests := update p.requests p.started request
    began := update p.began p.started p.log.length
    timers := update p.timers p.started true
    started := p.started + 1 }

/-- The callback of `setTimeout`. -/
def timeout (p : Page) (i : Nat) : Page :=
  if p.timers i then
    { p with timers := update p.timers i false }.settle i (.timedOut p.log.length (p.requests i).timeoutError)
  else p

/-- A message has arrived; a `ConnectSuccess` or a `RegisterSuccess` is the client's own state too. -/
def arrived (p : Page) (message : Response) : Page :=
  { p with
    log := p.log ++ [message]
    currentCid := message.cid.or p.currentCid
    isConnected := message.cid.isSome || p.isConnected }

/-- `handleMessage`. -/
def handleMessage (p : Page) (message : Response) (throws : Bool) : Page :=
  match p.messageHandler.call message p.log.length throws (p.arrived message) with
  | (p', true) => { p' with errors := p'.errors ++ [p.log.length] }
  | (p', false) => p'

def step (p : Page) : Act → Page
  | .start request => p.wait request
  | .timeout i => p.timeout i
  | .arrive message throws => p.handleMessage message throws

end Page

namespace Handler

def waits : Handler → List (Nat × Request)
  | user => []
  | wait i request originalHandler => (i, request) :: originalHandler.waits

def reached (message : Response) : Handler → List (Nat × Request)
  | user => []
  | wait i request originalHandler =>
    (i, request) :: if request.Rejects message then [] else originalHandler.reached message

/-- The handler that a call leaves installed, when it installs one. -/
def left (message : Response) : Handler → Option Handler
  | user => none
  | wait _ request originalHandler =>
    match request.judge message with
    | .resolve => some ((originalHandler.left message).getD originalHandler)
    | .reject _ => some originalHandler
    | .pass => originalHandler.left message

def Delivers (h : Handler) (message : Response) : Prop := ∀ w ∈ h.reached message, ¬ w.2.Rejects message

instance (h : Handler) (message : Response) : Decidable (h.Delivers message) :=
  inferInstanceAs (Decidable (∀ w ∈ h.reached message, _))

end Handler

def Verdict.outcome (n : Nat) : Verdict → Option Outcome
  | .resolve => some (.resolved n)
  | .reject error => some (.rejected n error)
  | .pass => none

variable {p p' : Page} {h h' : Handler} {message : Response} {n : Nat} {throws threw : Bool}

/-! ## Where a message gets to -/

namespace Handler

theorem reached_subset (h : Handler) (message : Response) : h.reached message ⊆ h.waits := by
  induction h with
  | user => exact List.Subset.refl _
  | wait i request originalHandler ih =>
    show (i, request) :: (if request.Rejects message then [] else originalHandler.reached message) ⊆
      (i, request) :: originalHandler.waits
    split_ifs
    · exact List.cons_subset_cons _ (List.nil_subset _)
    · exact List.cons_subset_cons _ ih

theorem reached_of_rejects (hrejects : request.Rejects message) :
    (wait i request h).reached message = [(i, request)] := by
  show (i, request) :: (if request.Rejects message then [] else h.reached message) = _
  rw [if_pos hrejects]

theorem reached_of_not_rejects (hrejects : ¬ request.Rejects message) :
    (wait i request h).reached message = (i, request) :: h.reached message := by
  show (i, request) :: (if request.Rejects message then [] else h.reached message) = _
  rw [if_neg hrejects]

theorem delivers_wait (hrejects : ¬ request.Rejects message) :
    (wait i request h).Delivers message ↔ h.Delivers message := by
  unfold Delivers
  rw [reached_of_not_rejects hrejects, List.forall_mem_cons]
  exact and_iff_right hrejects

theorem left_suffix (hleft : h.left message = some h') : h'.waits <:+ h.waits := by
  induction h generalizing h' with
  | user => exact nomatch hleft
  | wait i request originalHandler ih =>
    unfold left at hleft
    split at hleft
    · obtain rfl := Option.some.inj hleft
      apply List.IsSuffix.trans _ (List.suffix_cons _ _)
      match hinner : originalHandler.left message with
      | none => exact List.suffix_refl _
      | some _ => exact ih hinner
    · obtain rfl := Option.some.inj hleft
      exact List.suffix_cons _ _
    · exact (ih hleft).trans (List.suffix_cons _ _)

theorem awaits_of_left (hleft : h.left message = some h') : ∃ w ∈ h.waits, w.2.Awaits message := by
  induction h generalizing h' with
  | user => exact nomatch hleft
  | wait i request originalHandler ih =>
    by_cases hawaits : request.Awaits message
    · exact ⟨(i, request), List.mem_cons_self, hawaits⟩
    · unfold left at hleft
      rw [not_not.1 hawaits] at hleft
      obtain ⟨w, hw, h⟩ := ih hleft
      exact ⟨w, List.mem_cons_of_mem _ hw, h⟩

end Handler

/-! ## A call -/

theorem Page.settle_keeps (p : Page) {j : Nat} {outcome settled : Outcome} (hsettled : p.outcomes j = some settled) :
    (p.settle i outcome).outcomes j = some settled := by
  show update p.outcomes i _ j = some settled
  by_cases hji : j = i
  · rw [hji] at hsettled ⊢
    rw [update_self, hsettled, Option.some_or]
  · rw [update_of_ne hji, hsettled]

/-- What a call of handler `h` does with message `n`: what is installed then, and which waits are settled. -/
structure Called (h : Handler) (message : Response) (n : Nat) (throws : Bool) (p p' : Page) (threw : Bool) : Prop where
  messageHandler : p'.messageHandler = (h.left message).getD p.messageHandler
  delivered : p'.delivered = if h.Delivers message then p.delivered ++ [n] else p.delivered
  settled : ∀ w ∈ h.reached message, threw = false →
    p'.outcomes w.1 = (p.outcomes w.1).or ((w.2.judge message).outcome n)
  apart : ∀ i, (∀ w ∈ h.reached message, w.2.Awaits message → w.1 ≠ i) →
    p'.timers i = p.timers i ∧ p'.outcomes i = p.outcomes i
  keeps : ∀ i outcome, p.outcomes i = some outcome → p'.outcomes i = some outcome
  threw : threw = true → throws = true ∧ h.Delivers message
  same : p'.requests = p.requests ∧ p'.began = p.began ∧ p'.started = p.started ∧ p'.log = p.log

/-- The waits of the chain are numbered inwards downwards. -/
def Handler.Ordered (h : Handler) : Prop := h.waits.Pairwise (fun outer inner => inner.1 < outer.1)

theorem Handler.call_user : Called .user message n throws p (call message n throws .user p).1 (call message n throws .user p).2 where
  messageHandler := rfl
  delivered := (if_pos nofun).symm
  settled := nofun
  apart := fun _ _ => ⟨rfl, rfl⟩
  keeps := fun _ _ houtcome => houtcome
  threw := fun hthrew => ⟨hthrew, nofun⟩
  same := ⟨rfl, rfl, rfl, rfl⟩

theorem Called.pass (hcalled : Called h message n throws p p' threw) (hpass : request.judge message = .pass)
    (hnew : ∀ w ∈ h.waits, w.1 < i) :
    Called (.wait i request h) message n throws p p' threw := by
  have hrejects : ¬ request.Rejects message := fun hr => hr.1 hpass
  refine ⟨?_, ?_, ?_, ?_, hcalled.keeps, ?_, hcalled.same⟩
  · rw [hcalled.messageHandler, Handler.left, hpass]
  · rw [hcalled.delivered, if_congr (Handler.delivers_wait hrejects) rfl rfl]
  · rw [Handler.reached_of_not_rejects hrejects]
    rw [List.forall_mem_cons]
    refine ⟨fun _ => ?_, hcalled.settled⟩
    have happart : ∀ w ∈ h.reached message, w.2.Awaits message → w.1 ≠ i :=
      fun w hw _ => Nat.ne_of_lt (hnew w (h.reached_subset message hw))
    show p'.outcomes i = (p.outcomes i).or ((request.judge message).outcome n)
    rw [(hcalled.apart i happart).2, hpass]
    exact (Option.or_none).symm
  · intro j hj
    rw [Handler.reached_of_not_rejects hrejects] at hj
    exact hcalled.apart j fun w hw => hj w (List.mem_cons_of_mem _ hw)
  · rw [Handler.delivers_wait hrejects]
    exact hcalled.threw

theorem Called.thrown (hcalled : Called h message n throws (p.restore i h) p' true)
    (hresolve : request.judge message = .resolve) : Called (.wait i request h) message n throws p p' true := by
  have hrejects : ¬ request.Rejects message := fun hr => hr.2 hresolve
  have hawaits : request.Awaits message := Request.awaits_of_resolve hresolve
  refine ⟨?_, ?_, (fun w _ hthrew => nomatch hthrew), ?_, hcalled.keeps, ?_, hcalled.same⟩
  · rw [hcalled.messageHandler, Handler.left, hresolve]
    rfl
  · rw [hcalled.delivered, if_congr (Handler.delivers_wait hrejects) rfl rfl]
    rfl
  · intro j hj
    rw [Handler.reached_of_not_rejects hrejects, List.forall_mem_cons] at hj
    have hji : j ≠ i := (hj.1 hawaits).symm
    obtain ⟨htimers, houtcomes⟩ := hcalled.apart j hj.2
    exact ⟨htimers.trans (update_of_ne hji _ _), houtcomes⟩
  · rw [Handler.delivers_wait hrejects]
    exact hcalled.threw

theorem Called.resolved (hcalled : Called h message n throws (p.restore i h) p' false)
    (hresolve : request.judge message = .resolve) (hnew : ∀ w ∈ h.waits, w.1 < i) :
    Called (.wait i request h) message n throws p (p'.settle i (.resolved n)) false := by
  have hrejects : ¬ request.Rejects message := fun hr => hr.2 hresolve
  have hawaits : request.Awaits message := Request.awaits_of_resolve hresolve
  have hne : ∀ w ∈ h.reached message, w.1 ≠ i := fun w hw => Nat.ne_of_lt (hnew w (h.reached_subset message hw))
  have hbefore : p'.outcomes i = p.outcomes i := (hcalled.apart i fun w hw _ => hne w hw).2
  refine ⟨?_, ?_, ?_, ?_, ?_, nofun, hcalled.same⟩
  · show p'.messageHandler = _
    rw [hcalled.messageHandler, Handler.left, hresolve]
    rfl
  · show p'.delivered = _
    rw [hcalled.delivered, if_congr (Handler.delivers_wait hrejects) rfl rfl]
    rfl
  · rw [Handler.reached_of_not_rejects hrejects, List.forall_mem_cons]
    refine ⟨fun _ => ?_, fun w hw hthrew => ?_⟩
    · show update p'.outcomes i _ i = (p.outcomes i).or ((request.judge message).outcome n)
      rw [update_self, hbefore, hresolve]
      rfl
    · show update p'.outcomes i _ w.1 = _
      rw [update_of_ne (hne w hw)]
      exact hcalled.settled w hw hthrew
  · intro j hj
    rw [Handler.reached_of_not_rejects hrejects, List.forall_mem_cons] at hj
    have hji : j ≠ i := (hj.1 hawaits).symm
    obtain ⟨htimers, houtcomes⟩ := hcalled.apart j hj.2
    exact ⟨htimers.trans (update_of_ne hji _ _), (update_of_ne hji _ _).trans houtcomes⟩
  · exact fun j outcome hj => p'.settle_keeps (hcalled.keeps j outcome hj)

theorem Called.rejected {error : String} (hreject : request.judge message = .reject error) :
    Called (.wait i request h) message n throws p ((p.restore i h).settle i (.rejected n error)) false := by
  have hrejects : request.Rejects message := Request.rejects_of_reject hreject
  refine ⟨?_, ?_, ?_, ?_, ?_, nofun, ⟨rfl, rfl, rfl, rfl⟩⟩
  · rw [Handler.left, hreject]
    rfl
  · refine (if_neg fun hdelivers => ?_).symm
    rw [Handler.Delivers, Handler.reached_of_rejects hrejects] at hdelivers
    exact hdelivers _ (List.mem_singleton_self _) hrejects
  · rw [Handler.reached_of_rejects hrejects]
    intro w hw _
    rw [List.mem_singleton.1 hw]
    show update p.outcomes i _ i = (p.outcomes i).or ((request.judge message).outcome n)
    rw [update_self, hreject]
    rfl
  · intro j hj
    rw [Handler.reached_of_rejects hrejects] at hj
    have hji : j ≠ i := (hj _ (List.mem_singleton_self _) hrejects.1).symm
    exact ⟨update_of_ne hji _ _, update_of_ne hji _ _⟩
  · exact fun j outcome hj => (p.restore i h).settle_keeps hj

theorem Handler.call_called (hordered : h.Ordered) :
    Called h message n throws p (h.call message n throws p).1 (h.call message n throws p).2 := by
  induction h generalizing p with
  | user => exact call_user
  | wait i request originalHandler ih =>
    obtain ⟨hnew, hinner⟩ := List.pairwise_cons.1 hordered
    unfold call
    split
    · rename_i hresolve
      have hcalled := ih (p := p.restore i originalHandler) hinner
      split
      · rename_i hcall
        rw [hcall] at hcalled
        exact hcalled.thrown hresolve
      · rename_i hcall
        rw [hcall] at hcalled
        exact hcalled.resolved hresolve hnew
    · exact .rejected (by assumption)
    · exact (ih hinner).pass (by assumption) hnew

end CitadelAgent.PageClient
