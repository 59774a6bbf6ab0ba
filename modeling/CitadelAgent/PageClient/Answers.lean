import CitadelAgent.PageClient.Waits

/-!
# Every wait is answered

* `Page.Answers` : each wait settles with the first message it awaits, unless it timed out before; each message is handed to the
  user's handler, and that is installed again when no wait is open;
* `Page.Meets` : a message leaves no open wait out, and a timeout not the last one;
* `Page.waits_are_answered` : so it is in every state of such runs;
* `Page.outer_wait_is_dropped` : a wait that was begun later loses its handler to the answer of an earlier one.
-/

namespace CitadelAgent.PageClient
open Function Machine

namespace Page

/-- None of the first `n` messages that came after wait `i` began is one it awaits. -/
def Unanswered (p : Page) (i n : Nat) : Prop :=
  ∀ k, p.began i ≤ k → k < n → ∀ message ∈ p.log[k]?, ¬ (p.requests i).Awaits message

/-- Message `n` is the first that wait `i` awaits, and this is what it does with it. -/
def FirstAwaited (p : Page) (i n : Nat) (verdict : Verdict) : Prop :=
  p.began i ≤ n ∧ (∃ message ∈ p.log[n]?, (p.requests i).judge message = verdict) ∧ p.Unanswered i n

/-- An open wait has its timer running and was sent nothing it awaits; a settled one settled with the first message it awaits, or
timed out before one came. -/
def SettlesRight (p : Page) (i : Nat) : Prop :=
  match p.outcomes i with
  | none => p.timers i = true ∧ p.Unanswered i p.log.length
  | some (.resolved n) => p.FirstAwaited i n .resolve
  | some (.rejected n error) => p.FirstAwaited i n (.reject error)
  | some (.timedOut n error) => n ≤ p.log.length ∧ p.Unanswered i n ∧ error = (p.requests i).timeoutError

structure Answers (p : Page) : Prop where
  waits : ∀ i < p.started, p.SettlesRight i
  messages : ∀ n < p.log.length, p.delivered.count n = 1 ∨
    (p.delivered.count n = 0 ∧ ∃ i < p.started, ∃ error, p.outcomes i = some (.rejected n error))
  restored : (∀ i < p.started, (p.outcomes i).isSome = true) → p.messageHandler = .user

/-! ## The condition -/

def Open (p : Page) (i : Nat) : Prop := p.outcomes i = none

instance (p : Page) (i : Nat) : Decidable (p.Open i) := inferInstanceAs (Decidable (p.outcomes i = none))

def NoneDropped (p : Page) (message : Response) : Prop :=
  p.messageHandler.waits.Pairwise fun outer inner => inner.2.Awaits message → p.Open outer.1 → outer.2.Awaits message

def NoneCutOff (p : Page) (message : Response) : Prop :=
  (∀ w ∈ p.messageHandler.waits, p.Open w.1 → w.2.Awaits message → w ∈ p.messageHandler.reached message) ∧
  ∀ w ∈ p.messageHandler.reached message, w.2.Rejects message → p.Open w.1

def Returns (p : Page) (message : Response) (throws : Bool) : Prop :=
  throws = true → ∀ w ∈ p.messageHandler.waits, p.Open w.1 → w.2.judge message ≠ .resolve

def Unwinds (p : Page) (message : Response) : Prop :=
  (∀ w ∈ p.messageHandler.waits, p.Open w.1 → w.2.Awaits message) →
    p.messageHandler.reached message = p.messageHandler.waits ∧
      ∀ w ∈ p.messageHandler.waits.getLast?, w.2.Awaits message

instance (p : Page) (message : Response) : Decidable (p.NoneDropped message) :=
  inferInstanceAs (Decidable (List.Pairwise _ _))

instance (p : Page) (message : Response) : Decidable (p.NoneCutOff message) := inferInstanceAs (Decidable (_ ∧ _))

instance (p : Page) (message : Response) (throws : Bool) : Decidable (p.Returns message throws) :=
  inferInstanceAs (Decidable (_ → _))

instance (p : Page) (message : Response) : Decidable (p.Unwinds message) := inferInstanceAs (Decidable (_ → _))

/-- A timeout expires while another wait is open; a message is handed to every open wait that awaits it without taking another's
handler away, and the last ones it answers have no other handler below them. -/
def Meets (p : Page) : Act → Prop
  | .start _ => True
  | .timeout i => p.timers i = true → ∃ j < p.started, j ≠ i ∧ p.Open j
  | .arrive message throws =>
    p.NoneDropped message ∧ p.NoneCutOff message ∧ p.Returns message throws ∧ p.Unwinds message

instance (p : Page) : ∀ act, Decidable (p.Meets act)
  | .start _ => isTrue trivial
  | .timeout i => inferInstanceAs (Decidable (p.timers i = true → ∃ j < p.started, j ≠ i ∧ p.Open j))
  | .arrive message throws => inferInstanceAs (Decidable
      (p.NoneDropped message ∧ p.NoneCutOff message ∧ p.Returns message throws ∧ p.Unwinds message))

end Page

variable {p p' : Page} {h h' : Handler} {message : Response} {n i : Nat} {throws threw : Bool}

/-! ## What a message leaves of the chain -/

namespace Handler

theorem waits_eq_nil (hwaits : h.waits = []) : h = .user := by
  cases h with
  | user => rfl
  | wait i request originalHandler => exact nomatch hwaits

theorem mem_left {w : Nat × Request} (hw : w ∈ h.waits) (hopen : p.Open w.1) (hpass : ¬ w.2.Awaits message)
    (hdropped : h.waits.Pairwise fun outer inner => inner.2.Awaits message → p.Open outer.1 → outer.2.Awaits message) :
    w ∈ ((h.left message).getD h).waits := by
  induction h with
  | user => exact hw
  | wait i request originalHandler ih =>
    obtain ⟨houter, hinner⟩ := List.pairwise_cons.1 hdropped
    unfold left
    split
    · rename_i hresolve
      obtain rfl | hw := List.mem_cons.1 hw
      · exact absurd (Request.awaits_of_resolve hresolve) hpass
      · exact ih hw hinner
    · rename_i error hreject
      obtain rfl | hw := List.mem_cons.1 hw
      · exact absurd (Request.rejects_of_reject hreject).1 hpass
      · exact hw
    · match hleft : originalHandler.left message with
      | none => exact hw
      | some h' =>
        obtain rfl | hw := List.mem_cons.1 hw
        · obtain ⟨v, hv, hawaits⟩ := awaits_of_left hleft
          exact absurd (houter v hv hawaits hopen) hpass
        · have hkept := ih hw hinner
          rw [hleft] at hkept
          exact hkept

theorem left_eq_user (hreached : h.reached message = h.waits) (hlast : ∀ w ∈ h.waits.getLast?, w.2.Awaits message) :
    (h.left message).getD h = .user := by
  induction h with
  | user => rfl
  | wait i request originalHandler ih =>
    by_cases hrejects : request.Rejects message
    · rw [reached_of_rejects hrejects] at hreached
      have huser := waits_eq_nil (List.cons.inj hreached).2.symm
      unfold left
      split
      · rename_i hresolve
        exact absurd hresolve hrejects.2
      · exact huser
      · rename_i hpass
        exact absurd hpass hrejects.1
    · rw [reached_of_not_rejects hrejects] at hreached
      have hinner := (List.cons.inj hreached).2
      by_cases huser : originalHandler = .user
      · rw [huser] at hlast ⊢
        have hawaits : request.Awaits message := hlast _ rfl
        have hresolve : request.judge message = .resolve := by
          by_contra hne
          exact hrejects ⟨hawaits, hne⟩
        rw [left, hresolve]
        rfl
      · have hwaits : originalHandler.waits ≠ [] := fun h => huser (waits_eq_nil h)
        have hleft := ih hinner fun w hw => hlast w (by rw [waits, List.getLast?_cons_of_ne_nil hwaits]; exact hw)
        have hsome : originalHandler.left message = some .user := by
          cases hinstalled : originalHandler.left message with
          | none => rw [hinstalled] at hleft; exact absurd hleft huser
          | some h' => rw [hinstalled] at hleft; exact congrArg some hleft
        unfold left
        split
        · exact hleft
        · rename_i error hreject
          exact absurd (Request.rejects_of_reject hreject) hrejects
        · rw [hsome]
          rfl

end Handler

/-! ## What is settled and delivered -/

theorem Handler.Ordered.left (h : p.messageHandler.Ordered) : ((p.messageHandler.left message).getD p.messageHandler).Ordered := by
  match hleft : p.messageHandler.left message with
  | none => exact h
  | some h' => exact List.Pairwise.sublist (left_suffix hleft).sublist h

theorem Handler.left_subset : ((h.left message).getD h).waits ⊆ h.waits := by
  match hleft : h.left message with
  | none => exact List.Subset.refl _
  | some h' => exact (left_suffix hleft).subset

namespace Page

theorem handleMessage_called (hordered : p.messageHandler.Ordered) (message : Response) (throws : Bool) :
    ∃ threw, Called p.messageHandler message p.log.length throws (p.arrived message) (p.handleMessage message throws) threw := by
  have hcalled : Called p.messageHandler message p.log.length throws (p.arrived message) _ _ := Handler.call_called hordered
  unfold handleMessage
  split
  · rename_i p' hcall
    rw [hcall] at hcalled
    refine ⟨true, ?_⟩
    exact ⟨hcalled.messageHandler, hcalled.delivered, hcalled.settled, hcalled.apart, hcalled.keeps, hcalled.threw, hcalled.same⟩
  · rename_i p' hcall
    rw [hcall] at hcalled
    exact ⟨false, hcalled⟩

theorem SettlesRight.of_eq (h : p.SettlesRight i) (houtcomes : p'.outcomes i = p.outcomes i)
    (htimers : p.Open i → p'.timers i = p.timers i) (hrequests : p'.requests i = p.requests i)
    (hbegan : p'.began i = p.began i) (hlog : p'.log = p.log) : p'.SettlesRight i := by
  unfold SettlesRight FirstAwaited Unanswered at h ⊢
  rw [houtcomes, hrequests, hbegan, hlog]
  match houtcome : p.outcomes i with
  | none =>
    rw [houtcome] at h
    exact ⟨(htimers houtcome).trans h.1, h.2⟩
  | some (.resolved n) => rw [houtcome] at h; exact h
  | some (.rejected n error) => rw [houtcome] at h; exact h
  | some (.timedOut n error) => rw [houtcome] at h; exact h

theorem Unanswered.append (h : p.Unanswered i n) (hn : n ≤ p.log.length) (hrequests : p'.requests = p.requests)
    (hbegan : p'.began = p.began) (hlog : p'.log = p.log ++ [message]) : p'.Unanswered i n := by
  intro k hk hkn m hm
  rw [hlog, List.getElem?_append_left (by omega)] at hm
  rw [hbegan] at hk
  rw [hrequests]
  exact h k hk hkn m hm

theorem FirstAwaited.append {verdict : Verdict} (h : p.FirstAwaited i n verdict) (hrequests : p'.requests = p.requests)
    (hbegan : p'.began = p.began) (hlog : p'.log = p.log ++ [message]) : p'.FirstAwaited i n verdict := by
  obtain ⟨hn, ⟨m, hm, hverdict⟩, hbefore⟩ := h
  obtain ⟨hlt, -⟩ := List.getElem?_eq_some_iff.1 hm
  refine ⟨hbegan ▸ hn, ⟨m, ?_, hrequests ▸ hverdict⟩, hbefore.append (Nat.le_of_lt hlt) hrequests hbegan hlog⟩
  rw [hlog, List.getElem?_append_left hlt]
  exact hm

theorem SettlesRight.append {outcome : Outcome} (h : p.SettlesRight i) (houtcome : p.outcomes i = some outcome)
    (hkept : p'.outcomes i = some outcome) (hrequests : p'.requests = p.requests)
    (hbegan : p'.began = p.began) (hlog : p'.log = p.log ++ [message]) : p'.SettlesRight i := by
  unfold SettlesRight at h ⊢
  rw [houtcome] at h
  rw [hkept]
  cases outcome with
  | resolved n => exact FirstAwaited.append h hrequests hbegan hlog
  | rejected n error => exact FirstAwaited.append h hrequests hbegan hlog
  | timedOut n error =>
    obtain ⟨hn, hbefore, herror⟩ := h
    refine ⟨?_, hbefore.append hn hrequests hbegan hlog, hrequests ▸ herror⟩
    rw [hlog, List.length_append]
    omega

/-! ## The invariant -/

structure Inv (p : Page) : Prop where
  answers : p.Answers
  ordered : p.messageHandler.Ordered
  known : ∀ w ∈ p.messageHandler.waits, w.1 < p.started ∧ p.requests w.1 = w.2
  chained : ∀ i < p.started, p.Open i → (i, p.requests i) ∈ p.messageHandler.waits
  began : ∀ i < p.started, p.began i ≤ p.log.length
  fresh : ∀ i, p.started ≤ i → p.timers i = false ∧ p.outcomes i = none
  arrived : ∀ n ∈ p.delivered, n < p.log.length

theorem inv_init : init.Inv where
  answers := {
    waits := nofun
    messages := nofun
    restored := fun _ => rfl }
  ordered := List.Pairwise.nil
  known := nofun
  chained := nofun
  began := nofun
  fresh := fun _ _ => ⟨rfl, rfl⟩
  arrived := nofun

theorem Inv.wait (h : p.Inv) (request : Request) : (p.wait request).Inv := by
  have hne : ∀ {i}, i < p.started → i ≠ p.started := fun hi => Nat.ne_of_lt hi
  have hold : ∀ i, i < p.started → (p.wait request).SettlesRight i := fun i hi =>
    (h.answers.waits i hi).of_eq rfl (fun _ => update_of_ne (hne hi) _ _) (update_of_ne (hne hi) _ _) (update_of_ne (hne hi) _ _) rfl
  have hnew : (p.wait request).SettlesRight p.started := by
    have houtcome : (p.wait request).outcomes p.started = none := (h.fresh _ (Nat.le_refl _)).2
    unfold SettlesRight
    rw [houtcome]
    refine ⟨update_self _ _ _, fun k hk hkn => ?_⟩
    have hbegan : (p.wait request).began p.started = p.log.length := update_self _ _ _
    rw [hbegan] at hk
    exact absurd hkn (Nat.not_lt.2 hk)
  refine ⟨⟨?_, ?_, ?_⟩, ?_, ?_, ?_, ?_, ?_, h.arrived⟩
  · intro i hi
    obtain hi | rfl := Nat.lt_succ_iff_lt_or_eq.1 hi
    · exact hold i hi
    · exact hnew
  · intro n hn
    obtain hone | ⟨hnone, i, hi, error, houtcome⟩ := h.answers.messages n hn
    · exact .inl hone
    · exact .inr ⟨hnone, i, Nat.lt_succ_of_lt hi, error, houtcome⟩
  · intro hall
    have hsome : (p.outcomes p.started).isSome = true := hall p.started (Nat.lt_succ_self _)
    rw [(h.fresh _ (Nat.le_refl _)).2] at hsome
    exact nomatch hsome
  · exact List.pairwise_cons.2 ⟨fun w hw => (h.known w hw).1, h.ordered⟩
  · intro w hw
    obtain rfl | hw := List.mem_cons.1 hw
    · exact ⟨Nat.lt_succ_self _, update_self _ _ _⟩
    · obtain ⟨hlt, hrequest⟩ := h.known w hw
      exact ⟨Nat.lt_succ_of_lt hlt, (update_of_ne (hne hlt) _ _).trans hrequest⟩
  · intro i hi hopen
    obtain hi | rfl := Nat.lt_succ_iff_lt_or_eq.1 hi
    · show (i, update p.requests p.started request i) ∈ _
      rw [update_of_ne (hne hi)]
      exact List.mem_cons_of_mem _ (h.chained i hi hopen)
    · show (p.started, update p.requests p.started request p.started) ∈ _
      rw [update_self]
      exact List.mem_cons_self
  · intro i hi
    show update p.began p.started p.log.length i ≤ p.log.length
    obtain hi | rfl := Nat.lt_succ_iff_lt_or_eq.1 hi
    · rw [update_of_ne (hne hi)]
      exact h.began i hi
    · exact Nat.le_of_eq (update_self _ _ _)
  · intro i hi
    have hlt : p.started < i := hi
    obtain ⟨htimers, houtcomes⟩ := h.fresh i (Nat.le_of_lt hlt)
    exact ⟨(update_of_ne (Nat.ne_of_gt hlt) _ _).trans htimers, houtcomes⟩

theorem Inv.timeout (h : p.Inv) (hmeets : p.Meets (.timeout i)) : (p.timeout i).Inv := by
  unfold Page.timeout
  split_ifs with htimer
  swap
  · exact h
  obtain ⟨j, hj, hji, hopen⟩ := hmeets htimer
  let q : Page := { p with timers := update p.timers i false }
  let outcome : Outcome := .timedOut p.log.length (p.requests i).timeoutError
  have hi : i < p.started := by
    by_contra hi
    rw [(h.fresh i (Nat.not_lt.1 hi)).1] at htimer
    exact nomatch htimer
  have hother : ∀ k ≠ i, (q.settle i outcome).outcomes k = p.outcomes k := fun k hk => update_of_ne hk _ _
  refine ⟨⟨?_, ?_, ?_⟩, h.ordered, h.known, ?_, h.began, ?_, h.arrived⟩
  · intro k hk
    by_cases hki : k = i
    · rw [hki]
      match houtcome : p.outcomes i with
      | none =>
        have hright := h.answers.waits i hi
        have hsettled : (q.settle i outcome).outcomes i = some outcome := by
          show update p.outcomes i ((p.outcomes i).or _) i = _
          rw [update_self, houtcome, Option.none_or]
        unfold SettlesRight at hright ⊢
        rw [houtcome] at hright
        rw [hsettled]
        exact ⟨Nat.le_refl _, hright.2, rfl⟩
      | some settled =>
        have hkept : (q.settle i outcome).outcomes i = some settled := q.settle_keeps houtcome
        exact (h.answers.waits i hi).of_eq (hkept.trans houtcome.symm) (fun hopen => nomatch houtcome.symm.trans hopen) rfl rfl rfl
    · exact (h.answers.waits k hk).of_eq (hother k hki) (fun _ => update_of_ne hki _ _) rfl rfl rfl
  · intro n hn
    obtain hone | ⟨hnone, k, hk, error, houtcome⟩ := h.answers.messages n hn
    · exact .inl hone
    · exact .inr ⟨hnone, k, hk, error, q.settle_keeps houtcome⟩
  · intro hall
    have hsome := hall j hj
    rw [hother j hji, hopen] at hsome
    exact nomatch hsome
  · intro k hk hopenk
    refine h.chained k hk ?_
    by_contra hne
    obtain ⟨settled, houtcome⟩ := Option.ne_none_iff_exists'.1 hne
    have hkept : (q.settle i outcome).outcomes k = some settled := q.settle_keeps houtcome
    exact nomatch hkept.symm.trans hopenk
  · intro k hk
    have hki : k ≠ i := Nat.ne_of_gt (Nat.lt_of_lt_of_le hi hk)
    obtain ⟨htimers, houtcomes⟩ := h.fresh k hk
    exact ⟨(update_of_ne hki _ _).trans htimers, (hother k hki).trans houtcomes⟩

/-! ## A message arrives -/

section Arrives
variable (hinv : p.Inv) (hcalled : Called p.messageHandler message p.log.length throws (p.arrived message) p' threw)
include hinv hcalled

theorem settled_now (hcut : p.NoneCutOff message) (hreturns : p.Returns message throws) (hi : i < p.started)
    (hopen : p.Open i) (hawaits : (p.requests i).Awaits message) :
    p'.outcomes i = ((p.requests i).judge message).outcome p.log.length := by
  have hchained := hinv.chained i hi hopen
  have hreached := hcut.1 _ hchained hopen hawaits
  have hthrew : threw = false := by
    by_contra hne
    obtain ⟨hthrows, hdelivers⟩ := hcalled.threw (eq_true_of_ne_false hne)
    exact hdelivers _ hreached ⟨hawaits, hreturns hthrows _ hchained hopen⟩
  have hsettled : p'.outcomes i = (p.outcomes i).or (((p.requests i).judge message).outcome p.log.length) :=
    hcalled.settled _ hreached hthrew
  rw [hsettled, hopen, Option.none_or]

theorem stays_open (hpass : ¬ (p.requests i).Awaits message) :
    p'.timers i = p.timers i ∧ p'.outcomes i = p.outcomes i := by
  refine hcalled.apart i fun w hw hawaits hwi => hpass ?_
  obtain ⟨-, hrequest⟩ := hinv.known w (Handler.reached_subset _ _ hw)
  rw [hwi] at hrequest
  rw [hrequest]
  exact hawaits

theorem open_before (hcut : p.NoneCutOff message) (hreturns : p.Returns message throws) (hi : i < p.started)
    (hopen : p'.Open i) : p.Open i ∧ ¬ (p.requests i).Awaits message := by
  have hbefore : p.Open i := by
    by_contra hne
    obtain ⟨settled, houtcome⟩ := Option.ne_none_iff_exists'.1 hne
    exact nomatch (hcalled.keeps i settled houtcome).symm.trans hopen
  refine ⟨hbefore, fun hawaits => ?_⟩
  have hsettled := settled_now hinv hcalled hcut hreturns hi hbefore hawaits
  match hverdict : (p.requests i).judge message with
  | .pass => exact hawaits hverdict
  | .resolve => rw [hverdict] at hsettled; exact nomatch hsettled.symm.trans hopen
  | .reject error => rw [hverdict] at hsettled; exact nomatch hsettled.symm.trans hopen

theorem settles_right (hcut : p.NoneCutOff message) (hreturns : p.Returns message throws) (hi : i < p.started) :
    p'.SettlesRight i := by
  obtain ⟨hrequests, hbegan, -, hlog⟩ := hcalled.same
  have hlog' : p'.log = p.log ++ [message] := hlog
  have hright := hinv.answers.waits i hi
  match houtcome : p.outcomes i with
  | some outcome => exact hright.append houtcome (hcalled.keeps i outcome houtcome) hrequests hbegan hlog'
  | none =>
    unfold SettlesRight at hright
    rw [houtcome] at hright
    obtain ⟨htimer, hunanswered⟩ := hright
    have hbefore : p'.Unanswered i p.log.length := hunanswered.append (Nat.le_refl _) hrequests hbegan hlog'
    have hnow : p'.log[p.log.length]? = some message := by rw [hlog', List.getElem?_concat_length]
    have hrequests' : p'.requests = p.requests := hrequests
    have hbegan' : p'.began = p.began := hbegan
    have hfirst : p'.FirstAwaited i p.log.length ((p.requests i).judge message) := by
      refine ⟨?_, ⟨message, hnow, ?_⟩, hbefore⟩
      · rw [hbegan']
        exact hinv.began i hi
      · rw [hrequests']
    unfold SettlesRight
    by_cases hawaits : (p.requests i).Awaits message
    · rw [settled_now hinv hcalled hcut hreturns hi houtcome hawaits]
      match hverdict : (p.requests i).judge message with
      | .pass => exact absurd hverdict hawaits
      | .resolve =>
        rw [hverdict] at hfirst
        exact hfirst
      | .reject error =>
        rw [hverdict] at hfirst
        exact hfirst
    · obtain ⟨htimers, houtcomes⟩ := stays_open hinv hcalled hawaits
      rw [houtcomes, houtcome]
      refine ⟨htimers.trans htimer, fun k hk hkn m hm => ?_⟩
      rw [hlog', List.length_append, List.length_singleton] at hkn
      obtain hkn | rfl := Nat.lt_succ_iff_lt_or_eq.1 hkn
      · exact hbefore k hk hkn m hm
      · rw [hnow] at hm
        obtain rfl := Option.some.inj hm
        rw [hrequests']
        exact hawaits

theorem delivered_once (hcut : p.NoneCutOff message) (hn : n < p'.log.length) : p'.delivered.count n = 1 ∨
    (p'.delivered.count n = 0 ∧ ∃ i < p.started, ∃ error, p'.outcomes i = some (.rejected n error)) := by
  have hlog : p'.log = p.log ++ [message] := hcalled.same.2.2.2
  have hdelivered : p'.delivered = if p.messageHandler.Delivers message then p.delivered ++ [p.log.length] else p.delivered :=
    hcalled.delivered
  have hnone : p.delivered.count p.log.length = 0 :=
    List.count_eq_zero.2 fun hmem => Nat.lt_irrefl _ (hinv.arrived _ hmem)
  rw [hlog, List.length_append, List.length_singleton] at hn
  obtain hn | rfl := Nat.lt_succ_iff_lt_or_eq.1 hn
  · have hcount : p'.delivered.count n = p.delivered.count n := by
      rw [hdelivered]
      split_ifs
      · rw [List.count_append, List.count_singleton, if_neg (by simpa using Nat.ne_of_gt hn), Nat.add_zero]
      · rfl
    rw [hcount]
    obtain hone | ⟨hnone, i, hi, error, houtcome⟩ := hinv.answers.messages n hn
    · exact .inl hone
    · exact .inr ⟨hnone, i, hi, error, hcalled.keeps i _ houtcome⟩
  · by_cases hdelivers : p.messageHandler.Delivers message
    · rw [if_pos hdelivers] at hdelivered
      refine .inl ?_
      rw [hdelivered, List.count_append, hnone, List.count_singleton_self]
    · rw [if_neg hdelivers] at hdelivered
      refine .inr ⟨by rw [hdelivered, hnone], ?_⟩
      unfold Handler.Delivers at hdelivers
      push Not at hdelivers
      obtain ⟨w, hw, hrejects⟩ := hdelivers
      obtain ⟨hlt, -⟩ := hinv.known w (Handler.reached_subset _ _ hw)
      have hthrew : threw = false := by
        by_contra hne
        exact (hcalled.threw (eq_true_of_ne_false hne)).2 w hw hrejects
      have hsettled : p'.outcomes w.1 = (p.outcomes w.1).or ((w.2.judge message).outcome p.log.length) :=
        hcalled.settled w hw hthrew
      have hopen : p.outcomes w.1 = none := hcut.2 w hw hrejects
      rw [hopen, Option.none_or] at hsettled
      match hverdict : w.2.judge message with
      | .pass => exact absurd hverdict hrejects.1
      | .resolve => exact absurd hverdict hrejects.2
      | .reject error => exact ⟨w.1, hlt, error, by rw [hsettled, hverdict]; rfl⟩

theorem Inv.called (hmeets : p.Meets (.arrive message throws)) : p'.Inv := by
  obtain ⟨hdropped, hcut, hreturns, hunwinds⟩ := hmeets
  obtain ⟨hrequests, hbegan, hstarted, hlog⟩ := hcalled.same
  have hlog' : p'.log = p.log ++ [message] := hlog
  have hhandler : p'.messageHandler = (p.messageHandler.left message).getD p.messageHandler := hcalled.messageHandler
  have hstarted' : p'.started = p.started := hstarted
  refine ⟨⟨?_, ?_, ?_⟩, ?_, ?_, ?_, ?_, ?_, ?_⟩
  · exact hstarted' ▸ fun i hi => settles_right hinv hcalled hcut hreturns hi
  · exact hstarted' ▸ fun n hn => delivered_once hinv hcalled hcut hn
  · intro hall
    rw [hhandler]
    obtain ⟨hreached, hlast⟩ := hunwinds fun w hw hopen => by
      obtain ⟨hlt, hrequest⟩ := hinv.known w hw
      by_contra hpass
      rw [← hrequest] at hpass
      have hsome := hall w.1 (hstarted'.symm ▸ hlt)
      rw [(stays_open hinv hcalled hpass).2, hopen] at hsome
      exact nomatch hsome
    exact Handler.left_eq_user hreached hlast
  · rw [hhandler]
    exact hinv.ordered.left
  · rw [hhandler, hstarted', show p'.requests = p.requests from hrequests]
    exact fun w hw => hinv.known w (Handler.left_subset hw)
  · intro i hi hopen
    rw [hstarted'] at hi
    obtain ⟨hbefore, hpass⟩ := open_before hinv hcalled hcut hreturns hi hopen
    rw [hhandler, show p'.requests = p.requests from hrequests]
    exact Handler.mem_left (hinv.chained i hi hbefore) hbefore hpass hdropped
  · intro i hi
    rw [hstarted'] at hi
    rw [show p'.began = p.began from hbegan, hlog', List.length_append]
    exact Nat.le_add_right_of_le (hinv.began i hi)
  · intro i hi
    rw [hstarted'] at hi
    have happart := hcalled.apart i fun w hw _ =>
      Nat.ne_of_lt (Nat.lt_of_lt_of_le (hinv.known w (Handler.reached_subset _ _ hw)).1 hi)
    exact ⟨happart.1.trans (hinv.fresh i hi).1, happart.2.trans (hinv.fresh i hi).2⟩
  · intro n hn
    have hdelivered : p'.delivered = if p.messageHandler.Delivers message then p.delivered ++ [p.log.length] else p.delivered :=
      hcalled.delivered
    rw [hlog', List.length_append, List.length_singleton]
    rw [hdelivered] at hn
    split_ifs at hn
    · obtain hn | hn := List.mem_append.1 hn
      · exact Nat.lt_succ_of_lt (hinv.arrived n hn)
      · rw [List.mem_singleton.1 hn]
        exact Nat.lt_succ_self _
    · exact Nat.lt_succ_of_lt (hinv.arrived n hn)

end Arrives

theorem inv_step (act : Act) (h : p.Inv) (hmeets : p.Meets act) : (p.step act).Inv := by
  cases act with
  | start request => exact h.wait request
  | timeout i => exact h.timeout hmeets
  | arrive message throws =>
    obtain ⟨threw, hcalled⟩ := handleMessage_called h.ordered message throws
    exact h.called hcalled hmeets

theorem keeps_outcome {act : Act} {outcome : Outcome} (h : p.Inv) (houtcome : p.outcomes i = some outcome) :
    (p.step act).outcomes i = some outcome := by
  cases act with
  | start request => exact houtcome
  | timeout j =>
    show (p.timeout j).outcomes i = some outcome
    unfold Page.timeout
    split_ifs
    · exact settle_keeps _ houtcome
    · exact houtcome
  | arrive message throws =>
    obtain ⟨threw, hcalled⟩ := handleMessage_called h.ordered message throws
    exact hcalled.keeps i outcome houtcome

theorem waits_are_answered (run : Reaches step Meets (· = init) p) :
    p.Answers ∧ ∀ i outcome act, p.outcomes i = some outcome → (p.step act).outcomes i = some outcome := by
  have hinv : p.Inv := by
    refine run.invariant ?_ fun s act hs hmeets => inv_step act hs hmeets
    rintro s rfl
    exact inv_init
  exact ⟨hinv.answers, fun i outcome act houtcome => keeps_outcome hinv houtcome⟩

theorem waits_are_answered_nested :
    let p := [.start .connect, .start .setOrphanMode, .start .disconnectOrphan, .arrive .other true,
      .arrive .connectionManagementFailure false, .start .register, .timeout 3,
      .arrive (.connectSuccess 7) false, .arrive .other false].foldl step init
    p.Answers ∧ p.messageHandler = .user ∧ p.outcomes 0 = some (.resolved 2) ∧ p.outcomes 1 = some (.resolved 1) :=
  have run := waits_are_answered (reaches_foldl (by decide +kernel))
  ⟨run.1, by decide +kernel, by decide +kernel, by decide +kernel⟩

/-- The answer of a `connect` restores what was there before the `setOrphanMode` that began after it; so its response, which
arrives next, does not settle that wait. And a lone `connect` that times out leaves its handler installed. -/
theorem outer_wait_is_dropped :
    ¬ (([.start .connect, .start .setOrphanMode, .arrive (.connectSuccess 7) false,
      .arrive .connectionManagementSuccess false].foldl step init).Answers) ∧
    ¬ (([.start .connect, .timeout 0].foldl step init).Answers) := by
  refine ⟨fun h => ?_, fun h => ?_⟩
  · have hwait := (h.waits 1 (by decide +kernel)).2
    exact hwait 1 (by decide +kernel) (by decide +kernel) .connectionManagementSuccess (by decide +kernel) (by decide +kernel)
  · have hrestored := h.restored (by decide +kernel)
    exact absurd hrestored (by decide +kernel)

end Page

end CitadelAgent.PageClient
